import Polyglot.Proofs.Expr.Store

/-!
# No expression twice

A store whose nodes are all different has one id for each expression in it: the ids of two
expressions that count as equal are the same, however deep the expressions are, although a node is
only compared with others by the ids of its parts.

- `Expr.Alike`: expressions that count as equal; `Expr.alike_iff`: they have one representative.
- `ExprStore.Sound`: parts come first, and no two nodes count as equal.
- `ExprStore.Sound.eq_iff_alike`: then ids are the same if and only if the expressions are alike.
- `ExprStore.Stored`: what storing makes of such a store; `Stored.intern`: a single node.
-/

namespace Polyglot

/-! ## Expressions that count as equal -/

namespace Double

/-- Numbers that count as equal: they are the same, both are zero, or neither is a number. -/
def Alike (x y : Double) : Prop :=
  x = y ∨ x.magnitude = 0 ∧ y.magnitude = 0 ∨ x.isNaN = true ∧ y.isNaN = true

theorem isNaN_canonical (x : Double) : x.canonical.isNaN = x.isNaN := by
  unfold canonical
  split
  · rename_i hnan
    rw [hnan]
    decide
  · split
    · rename_i hnan _
      rw [Bool.eq_false_iff.2 hnan]
      decide
    · rfl

theorem magnitude_canonical_eq_zero {x : Double} : x.canonical.magnitude = 0 ↔ x.magnitude = 0 := by
  unfold canonical
  split
  · rename_i hnan
    have hpos : infinityMagnitude < x.magnitude := by simpa [isNaN] using hnan
    exact iff_of_false (by decide) (Nat.ne_of_gt (Nat.zero_lt_of_lt hpos))
  · split
    · rename_i hzero
      exact iff_of_true (by decide) hzero
    · rfl

theorem alike_iff {x y : Double} : x.Alike y ↔ x.canonical = y.canonical := by
  constructor
  · rintro (rfl | ⟨hx, hy⟩ | ⟨hx, hy⟩)
    · rfl
    · have hnan : ∀ {z : Double}, z.magnitude = 0 → z.isNaN = false := by
        intro z hz
        simp [isNaN, hz]
      simp [canonical, hnan hx, hnan hy, hx, hy]
    · simp [canonical, hx, hy]
  · intro h
    have hnan : x.isNaN = y.isNaN := by rw [← isNaN_canonical x, h, isNaN_canonical]
    have hzero : x.magnitude = 0 ↔ y.magnitude = 0 := by
      rw [← magnitude_canonical_eq_zero, h, magnitude_canonical_eq_zero]
    by_cases hx : x.isNaN = true
    · exact .inr (.inr ⟨hx, hnan ▸ hx⟩)
    · by_cases hx' : x.magnitude = 0
      · exact .inr (.inl ⟨hx', hzero.1 hx'⟩)
      · left
        rwa [canonical, if_neg hx, if_neg hx', canonical, if_neg (hnan ▸ hx),
          if_neg (mt hzero.2 hx')] at h

end Double

/-- Literals that count as equal. -/
inductive Literal.Alike : Literal → Literal → Prop where
  | str (value : String) : Alike (.str value) (.str value)
  | int (value : Int) : Alike (.int value) (.int value)
  | float {x y : Double} (h : x.Alike y) : Alike (.float x) (.float y)

theorem Literal.alike_iff {l l' : Literal} : l.Alike l' ↔ l.canonical = l'.canonical := by
  constructor
  · intro h
    cases h with
    | str value => rfl
    | int value => rfl
    | float h => simp only [canonical, Double.alike_iff.1 h]
  · intro h
    cases l <;> cases l' <;> simp only [canonical, str.injEq, int.injEq, float.injEq,
      reduceCtorEq] at h
    · exact h ▸ .str _
    · exact h ▸ .int _
    · exact .float (Double.alike_iff.2 h)

namespace Expr

/-- Expressions that count as equal: they differ in literals that count as equal, if at all. -/
inductive Alike : Expr → Expr → Prop where
  | app (fn : Sym) {args args' : List Expr} (h : List.Forall₂ Alike args args') :
      Alike (.app fn args) (.app fn args')
  | lit {value value' : Literal} (h : value.Alike value') : Alike (.lit value) (.lit value')
  | hole (index : Nat) : Alike (.hole index) (.hole index)

theorem alike_iff {e e' : Expr} : e.Alike e' ↔ e.canonical = e'.canonical := by
  induction e using Expr.induction generalizing e' with
  | hole index =>
    constructor
    · rintro ⟨⟩
      rfl
    · intro h
      cases e' <;> cases h
      exact .hole index
  | lit value =>
    constructor
    · intro h
      cases h with
      | lit h => rw [canonical, canonical, Literal.alike_iff.1 h]
    · intro h
      cases e' <;> simp only [canonical, lit.injEq, reduceCtorEq] at h
      exact .lit (Literal.alike_iff.2 h)
  | app fn args ih =>
    have hargs : ∀ args', List.Forall₂ Alike args args' ↔
        args.map canonical = args'.map canonical := by
      intro args'
      rw [← List.forall₂_eq_eq_eq, List.forall₂_map_left_iff, List.forall₂_map_right_iff,
        List.forall₂_iff_get, List.forall₂_iff_get]
      refine and_congr_right fun _ => forall_congr' fun i => forall_congr' fun hi =>
        forall_congr' fun _ => ?_
      exact ih _ (List.get_mem args ⟨i, hi⟩)
    constructor
    · intro h
      cases h with
      | app _ h => rw [canonical, canonical, canonicalAll_eq_map, canonicalAll_eq_map,
          (hargs _).1 h]
    · intro h
      cases e' <;> simp only [canonical, canonicalAll_eq_map, app.injEq, reduceCtorEq] at h
      obtain ⟨rfl, h⟩ := h
      exact .app fn ((hargs _).2 h)

theorem Alike.refl (e : Expr) : e.Alike e := alike_iff.2 rfl

end Expr

/-! ## One id for each expression -/

namespace ExprStore

variable {s s' s'' : ExprStore} {id id' : ExprId} {ids : List ExprId} {node node' : Node}
  {e e' : Expr}

/-- No two nodes count as equal. -/
def Distinct (s : ExprStore) : Prop :=
  ∀ id id' node node', s.resolve? id = some node → s.resolve? id' = some node' →
    node.canonical = node'.canonical → id = id'

/-- A store that keeps every expression once, after its parts. -/
structure Sound (s : ExprStore) : Prop where
  ordered : s.Ordered
  distinct : s.Distinct

theorem sound_empty : Sound {} :=
  ⟨ordered_empty, fun id _ node _ h => by simp [resolve?] at h⟩

theorem index_lt_of_resolve? (h : s.resolve? id = some node) : id.index < s.size :=
  resolve?_isSome_iff.1 (h ▸ rfl)

theorem Extends.size_le (h : s.Extends s') : s.size ≤ s'.size := by
  by_contra hlt
  have hlast : (⟨s'.size⟩ : ExprId).index < s.size := Nat.lt_of_not_le hlt
  obtain ⟨node, hnode⟩ := Option.isSome_iff_exists.1 (resolve?_isSome_iff.2 hlast)
  exact absurd (index_lt_of_resolve? (h _ _ hnode)) (Nat.lt_irrefl _)

theorem expr?_eq_app_iff {fn : Sym} {es : List Expr} :
    s.expr? id = some (.app fn es) ↔ ∃ args, s.resolve? id = some (.app fn args) ∧
      List.Forall₂ (fun arg e => arg.index < id.index ∧ s.expr? arg = some e) args es := by
  cases hnode : s.resolve? id with
  | none => rw [expr?, hnode]; simp
  | some node =>
    cases node with
    | lit value => rw [expr?, hnode]; simp
    | hole index => rw [expr?, hnode]; simp
    | app fn' args =>
      rw [expr?_of_app hnode]
      constructor
      · rintro ⟨es', heq, hes⟩
        cases heq
        exact ⟨args, rfl, hes⟩
      · rintro ⟨args', heq, hes⟩
        cases heq
        exact ⟨es, rfl, hes⟩

theorem expr?_eq_lit_iff {value : Literal} :
    s.expr? id = some (.lit value) ↔ s.resolve? id = some (.lit value) := by
  cases hnode : s.resolve? id with
  | none => rw [expr?, hnode]; simp
  | some node => cases node <;> rw [expr?, hnode] <;> simp

theorem expr?_eq_hole_iff {index : Nat} :
    s.expr? id = some (.hole index) ↔ s.resolve? id = some (.hole index) := by
  cases hnode : s.resolve? id with
  | none => rw [expr?, hnode]; simp
  | some node => cases node <;> rw [expr?, hnode] <;> simp

/-- Nodes that count as equal only at the top do so all the way down, as their parts have one id
each. -/
theorem Sound.eq_of_alike (h : s.Sound) (he : s.expr? id = some e) (he' : s.expr? id' = some e')
    (halike : e.Alike e') : id = id' := by
  induction e using Expr.induction generalizing id id' e' with
  | hole index =>
    cases halike
    rw [expr?_eq_hole_iff] at he he'
    exact h.distinct _ _ _ _ he he' rfl
  | lit value =>
    cases halike with
    | lit hvalue =>
      rw [expr?_eq_lit_iff] at he he'
      refine h.distinct _ _ _ _ he he' ?_
      rw [Node.canonical, Node.canonical, Literal.alike_iff.1 hvalue]
  | app fn es ih =>
    cases halike with
    | @app _ _ es' hes =>
      obtain ⟨args, hnode, hargs⟩ := expr?_eq_app_iff.1 he
      obtain ⟨args', hnode', hargs'⟩ := expr?_eq_app_iff.1 he'
      have hids : args = args' := by
        refine List.ext_getElem (by rw [hargs.length_eq, hes.length_eq, hargs'.length_eq]) ?_
        intro i hi hi'
        have hi₁ : i < es.length := hargs.length_eq ▸ hi
        have hi₂ : i < es'.length := hargs'.length_eq ▸ hi'
        exact ih _ (List.getElem_mem hi₁) (hargs.get hi hi₁).2 (hargs'.get hi' hi₂).2
          (hes.get hi₁ hi₂)
      exact h.distinct _ _ _ _ hnode hnode' (by rw [hids])

/-- Ids of a store are the same if and only if the expressions that they stand for are alike. -/
theorem Sound.eq_iff_alike (h : s.Sound) (he : s.expr? id = some e) (he' : s.expr? id' = some e') :
    id = id' ↔ e.Alike e' := by
  refine ⟨?_, h.eq_of_alike he he'⟩
  rintro rfl
  cases he.symm.trans he'
  exact .refl e

/-! ## Storing -/

/-- A node that counts as equal to a stored one is found. -/
theorem Distinct.intern_eq (h : s.Distinct) (hnode : s.resolve? id = some node')
    (heq : node'.canonical = node.canonical) : s.intern node = (id, s) := by
  unfold intern
  split
  · rename_i i hi
    obtain ⟨hlt, hfound, -⟩ := Array.findIdx?_eq_some_iff_getElem.1 hi
    have hat : s.resolve? ⟨i⟩ = some s.nodes[i] := by simp [resolve?, hlt]
    rw [h ⟨i⟩ id _ _ hat hnode (by rw [heq]; simpa using hfound)]
  · rename_i hnone
    obtain ⟨hlt, hat⟩ := Array.getElem?_eq_some_iff.1 hnode
    have hnot := Array.findIdx?_eq_none_iff.1 hnone _ (Array.getElem_mem hlt)
    simp [hat, heq] at hnot

theorem resolve?_push (s : ExprStore) (node : Node) (id : ExprId) :
    resolve? ⟨s.nodes.push node⟩ id = if id.index = s.size then some node else s.resolve? id :=
  Array.getElem?_push

theorem Sound.intern (h : s.Sound) (hargs : ∀ arg ∈ node.args, arg.index < s.size) :
    (s.intern node).2.Sound := by
  refine ⟨h.ordered.intern hargs, ?_⟩
  rcases s.intern_cases node with ⟨_, _, _, hs⟩ | ⟨hnew, -, hs⟩
  · rw [hs]
    exact h.distinct
  · rw [hs]
    intro id id' node₁ node₂ h₁ h₂ heq
    simp only [resolve?_push] at h₁ h₂
    -- one of them is the new one, and then both are
    split at h₁ <;> split at h₂
    · rename_i hid hid'
      exact congrArg ExprId.mk (hid.trans hid'.symm)
    · cases h₁
      exact absurd heq.symm (hnew _ _ h₂)
    · cases h₂
      exact absurd heq (hnew _ _ h₁)
    · exact h.distinct _ _ _ _ h₁ h₂ heq

/-- What it makes of a store to store expressions that get these ids: what was there stays, and if
anything is new then the last one is among them. -/
structure Stored (s : ExprStore) (ids : List ExprId) (s' : ExprStore) : Prop where
  sound : s'.Sound
  keeps : s.Extends s'
  index_lt : ∀ id ∈ ids, id.index < s'.size
  last : s' = s ∨ ∃ id ∈ ids, id.index + 1 = s'.size

theorem Sound.stored_nil (h : s.Sound) : Stored s [] s := ⟨h, .refl s, nofun, .inl rfl⟩

theorem Stored.cons (h : Stored s [id] s') (h' : Stored s' ids s'') : Stored s (id :: ids) s'' := by
  refine ⟨h'.sound, h.keeps.trans h'.keeps, fun x hx => ?_, ?_⟩
  · rcases List.mem_cons.1 hx with rfl | hx
    · exact Nat.lt_of_lt_of_le (h.index_lt _ List.mem_cons_self) h'.keeps.size_le
    · exact h'.index_lt x hx
  · rcases h'.last with rfl | ⟨x, hx, hlast⟩
    · refine h.last.imp_right ?_
      rintro ⟨x, hx, hlast⟩
      exact ⟨x, List.mem_cons.2 (.inl (List.mem_singleton.1 hx)), hlast⟩
    · exact .inr ⟨x, List.mem_cons_of_mem _ hx, hlast⟩

/-- To store a node whose parts were stored before: if any of these is new then so is the node. -/
theorem Stored.intern (h : Stored s node.args s') :
    Stored s [(s'.intern node).1] (s'.intern node).2 := by
  have hextends := h.keeps.trans (s'.extends_intern node)
  refine ⟨h.sound.intern h.index_lt, hextends, fun x hx => ?_, ?_⟩
  · rw [List.mem_singleton.1 hx]
    obtain ⟨node', hnode, -⟩ := s'.resolve?_intern node
    exact index_lt_of_resolve? hnode
  · rcases s'.intern_cases node with ⟨node', hnode, heq, hs⟩ | ⟨-, hid, hs⟩
    · rw [hs]
      refine h.last.imp_right ?_
      rintro ⟨arg, harg, hlast⟩
      -- a part that was stored last cannot be part of anything stored
      have hargs : node'.args = node.args := by
        cases node <;> cases node' <;> simp_all [Node.canonical, Node.args]
      have hlt := h.sound.ordered _ _ hnode arg (hargs ▸ harg)
      have := index_lt_of_resolve? hnode
      omega
    · rw [hid, hs]
      exact .inr ⟨_, List.mem_singleton.2 rfl, by simp [size]⟩

end ExprStore

end Polyglot
