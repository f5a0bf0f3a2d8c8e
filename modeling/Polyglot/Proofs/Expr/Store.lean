import Polyglot.Expr.Store
import Polyglot.Proofs.Lists

/-!
# What the ids of a store stand for

Every expression is stored after its parts. So an id of a store always stands for an expression, and
it goes on to stand for that one, however many others are stored later.

- `ExprStore.Ordered`: the parts come first; every store is made by steps that keep this
  (`Ordered.intern`).
- `ExprStore.exists_expr?`: an id of the store stands for an expression.
- `ExprStore.internExpr_spec`: the id of an expression stands for one that counts as equal to it.
-/

namespace Polyglot

/-! ## Expressions -/

namespace Expr

/-- Induction over an expression, with all arguments of an application at once. -/
@[elab_as_elim]
theorem induction {P : Expr → Prop} (app : ∀ fn args, (∀ e ∈ args, P e) → P (.app fn args))
    (lit : ∀ value, P (.lit value)) (hole : ∀ index, P (.hole index)) : ∀ e, P e
  | .app fn args => app fn args fun e _ => induction app lit hole e
  | .lit value => lit value
  | .hole index => hole index

theorem canonicalAll_eq_map (es : List Expr) : canonicalAll es = es.map canonical := by
  induction es with
  | nil => rfl
  | cons e es ih => rw [canonicalAll, ih, List.map_cons]

/-- An expression without literals. -/
inductive LiteralFree : Expr → Prop where
  | app {fn : Sym} {args : List Expr} (hargs : ∀ e ∈ args, LiteralFree e) :
      LiteralFree (.app fn args)
  | hole (index : Nat) : LiteralFree (.hole index)

/-- Without literals there is nothing that no expression tells apart. -/
theorem LiteralFree.eq_of_canonical_eq {e e' : Expr} (he : e.LiteralFree)
    (h : e'.canonical = e.canonical) : e' = e := by
  induction he generalizing e' with
  | hole index =>
    cases e' <;> simp_all [canonical]
  | @app fn args _ ih =>
    cases e' with
    | lit value => cases h
    | hole index => cases h
    | app fn' args' =>
      simp only [canonical, canonicalAll_eq_map, app.injEq] at h ⊢
      refine ⟨h.1, List.ext_getElem (by simpa using congrArg List.length h.2) ?_⟩
      intro i hi' hi
      refine ih _ (List.getElem_mem hi) ?_
      have := congrArg (·[i]?) h.2
      simpa [hi, hi'] using this

end Expr

namespace ExprStore

/-- The ids that a node is made from. -/
def Node.args : Node → List ExprId
  | .app _ args => args
  | .lit _ | .hole _ => []

/-- Every node comes after the nodes that it is made from. -/
def Ordered (s : ExprStore) : Prop :=
  ∀ id node, s.resolve? id = some node → ∀ arg ∈ node.args, arg.index < id.index

/-- All that is in one store has the same id in another. -/
def Extends (s s' : ExprStore) : Prop :=
  ∀ id node, s.resolve? id = some node → s'.resolve? id = some node

variable {s s' s'' : ExprStore} {id : ExprId} {node : Node} {e : Expr}

theorem ordered_empty : Ordered {} := by
  intro id node h
  simp [resolve?] at h

theorem Extends.refl (s : ExprStore) : s.Extends s := fun _ _ h => h

theorem Extends.trans (h : s.Extends s') (h' : s'.Extends s'') : s.Extends s'' :=
  fun id node hnode => h' id node (h id node hnode)

theorem resolve?_isSome_iff : (s.resolve? id).isSome ↔ id.index < s.size := by
  simp [resolve?, size]

/-! ## The expression of an id -/

theorem expr?_of_app {fn : Sym} {args : List ExprId} (h : s.resolve? id = some (.app fn args)) :
    s.expr? id = some e ↔ ∃ es, e = .app fn es ∧
      List.Forall₂ (fun arg e => arg.index < id.index ∧ s.expr? arg = some e) args es := by
  rw [expr?, h]
  simp only [Option.map_eq_some_iff, mapM_eq_some_iff_forall₂, Option.ite_none_right_eq_some]
  constructor
  · rintro ⟨es, hes, rfl⟩
    exact ⟨es, rfl, hes⟩
  · rintro ⟨es, rfl, hes⟩
    exact ⟨es, hes, rfl⟩

/-- Ids keep what they stand for when a store grows. -/
theorem Extends.expr? (h : s.Extends s') (he : s.expr? id = some e) : s'.expr? id = some e := by
  induction hn : id.index using Nat.strongRecOn generalizing id e with
  | ind n ih =>
    cases hnode : s.resolve? id with
    | none => rw [ExprStore.expr?, hnode] at he; cases he
    | some node =>
      cases node with
      | lit value =>
        rw [ExprStore.expr?, hnode] at he
        rwa [ExprStore.expr?, h id _ hnode]
      | hole index =>
        rw [ExprStore.expr?, hnode] at he
        rwa [ExprStore.expr?, h id _ hnode]
      | app fn args =>
        obtain ⟨es, rfl, hes⟩ := (expr?_of_app hnode).1 he
        refine (expr?_of_app (h id _ hnode)).2 ⟨es, rfl, ?_⟩
        exact hes.imp fun arg e ⟨hlt, harg⟩ => ⟨hlt, ih _ (hn ▸ hlt) harg rfl⟩

/-- An id of a store stands for an expression. -/
theorem exists_expr? (h : s.Ordered) (hid : id.index < s.size) : ∃ e, s.expr? id = some e := by
  -- On the index, since parts are stored before what they are parts of.
  induction hn : id.index using Nat.strongRecOn generalizing id with
  | ind n ih =>
    obtain ⟨node, hnode⟩ := Option.isSome_iff_exists.1 (resolve?_isSome_iff.2 hid)
    cases node with
    | lit value => exact ⟨.lit value, by rw [expr?, hnode]⟩
    | hole index => exact ⟨.hole index, by rw [expr?, hnode]⟩
    | app fn args =>
      have hargs : ∀ arg ∈ args, ∃ e, arg.index < id.index ∧ s.expr? arg = some e := by
        intro arg harg
        have hlt : arg.index < id.index := h id _ hnode arg harg
        obtain ⟨e, he⟩ := ih _ (hn ▸ hlt) (Nat.lt_trans hlt hid) rfl
        exact ⟨e, hlt, he⟩
      obtain ⟨es, hes⟩ := exists_forall₂ hargs
      exact ⟨.app fn es, (expr?_of_app hnode).2 ⟨es, rfl, hes⟩⟩

theorem index_lt_of_expr? (h : s.expr? id = some e) : id.index < s.size := by
  rw [← resolve?_isSome_iff]
  cases hnode : s.resolve? id with
  | none => rw [expr?, hnode] at h; cases h
  | some node => rfl

/-! ## Storing -/

/-- A node is found, or there is none that counts as equal to it and it is put at the end. -/
theorem intern_cases (s : ExprStore) (node : Node) :
    (∃ node', s.resolve? (s.intern node).1 = some node' ∧ node'.canonical = node.canonical ∧
      (s.intern node).2 = s) ∨
    (∀ id node', s.resolve? id = some node' → node'.canonical ≠ node.canonical) ∧
      (s.intern node).1 = ⟨s.size⟩ ∧ (s.intern node).2 = ⟨s.nodes.push node⟩ := by
  unfold intern
  split
  · rename_i i hi
    obtain ⟨hlt, heq, -⟩ := Array.findIdx?_eq_some_iff_getElem.1 hi
    refine .inl ⟨s.nodes[i], by simp [resolve?, hlt], by simpa using heq, rfl⟩
  · rename_i hnone
    refine .inr ⟨fun id node' hnode heq => ?_, rfl, rfl⟩
    obtain ⟨hlt, hat⟩ := Array.getElem?_eq_some_iff.1 hnode
    have hnot := Array.findIdx?_eq_none_iff.1 hnone _ (Array.getElem_mem hlt)
    simp [hat, heq] at hnot

theorem extends_push (s : ExprStore) (node : Node) : s.Extends ⟨s.nodes.push node⟩ := by
  intro id node' h
  have hlt : id.index < s.nodes.size := (Array.getElem?_eq_some_iff.1 h).1
  simp only [resolve?, Array.getElem?_push] at h ⊢
  rw [if_neg (by omega)]
  exact h

theorem extends_intern (s : ExprStore) (node : Node) : s.Extends (s.intern node).2 := by
  rcases s.intern_cases node with ⟨_, _, _, h⟩ | ⟨_, _, h⟩
  · rw [h]
    exact .refl s
  · rw [h]
    exact s.extends_push node

/-- The id of a node stands for one that counts as equal to it. -/
theorem resolve?_intern (s : ExprStore) (node : Node) :
    ∃ node', (s.intern node).2.resolve? (s.intern node).1 = some node' ∧
      node'.canonical = node.canonical := by
  rcases s.intern_cases node with ⟨node', hnode, heq, h⟩ | ⟨_, hid, h⟩
  · rw [h]
    exact ⟨node', hnode, heq⟩
  · rw [hid, h]
    exact ⟨node, by simp [resolve?, size], rfl⟩

theorem resolve?_app (s : ExprStore) (fn : Sym) (args : List ExprId) :
    (s.app fn args).2.resolve? (s.app fn args).1 = some (.app fn args) := by
  obtain ⟨node, hnode, heq⟩ := s.resolve?_intern (.app fn args)
  cases node <;> cases heq
  exact hnode

theorem resolve?_lit (s : ExprStore) (value : Literal) :
    ∃ value', (s.lit value).2.resolve? (s.lit value).1 = some (.lit value') ∧
      value'.canonical = value.canonical := by
  obtain ⟨node, hnode, heq⟩ := s.resolve?_intern (.lit value)
  cases node with
  | app fn args => cases heq
  | hole index => cases heq
  | lit value' => exact ⟨value', hnode, by simpa [Node.canonical] using heq⟩

theorem resolve?_hole (s : ExprStore) (index : Nat) :
    (s.hole index).2.resolve? (s.hole index).1 = some (.hole index) := by
  obtain ⟨node, hnode, heq⟩ := s.resolve?_intern (.hole index)
  cases node <;> cases heq
  exact hnode

/-- To store a node that is made from ids of the store keeps the order. -/
theorem Ordered.intern (h : s.Ordered) (hargs : ∀ arg ∈ node.args, arg.index < s.size) :
    (s.intern node).2.Ordered := by
  rcases s.intern_cases node with ⟨_, _, _, hs⟩ | ⟨_, _, hs⟩
  · rwa [hs]
  · rw [hs]
    intro id node' hnode
    simp only [resolve?, Array.getElem?_push] at hnode
    split at hnode
    · rename_i hid
      cases hnode
      exact fun arg harg => hid ▸ hargs arg harg
    · exact h id node' hnode

/-- An id stands for an expression that counts as equal to this one. -/
def StandsFor (s : ExprStore) (id : ExprId) (e : Expr) : Prop :=
  ∃ e', s.expr? id = some e' ∧ e'.canonical = e.canonical

theorem StandsFor.extends (h : s.StandsFor id e) (hs : s.Extends s') : s'.StandsFor id e := by
  obtain ⟨e', he', hcanon⟩ := h
  exact ⟨e', hs.expr? he', hcanon⟩

theorem StandsFor.index_lt (h : s.StandsFor id e) : id.index < s.size := by
  obtain ⟨e', he', -⟩ := h
  exact index_lt_of_expr? he'

/-- Ids that stand for the arguments of an application have expressions. -/
theorem exists_of_standsFor {ids : List ExprId} {args : List Expr}
    (h : List.Forall₂ s.StandsFor ids args) :
    ∃ es, List.Forall₂ (fun id e => s.expr? id = some e) ids es ∧
      es.map Expr.canonical = args.map Expr.canonical := by
  induction h with
  | nil => exact ⟨[], .nil, rfl⟩
  | cons hid _ ih =>
    obtain ⟨e', he', heq⟩ := hid
    obtain ⟨es, hes, hmap⟩ := ih
    exact ⟨e' :: es, .cons he' hes, by simp [heq, hmap]⟩

theorem standsFor_lit (s : ExprStore) (value : Literal) :
    (s.lit value).2.StandsFor (s.lit value).1 (.lit value) := by
  obtain ⟨value', hnode, heq⟩ := s.resolve?_lit value
  exact ⟨.lit value', by rw [expr?, hnode], by rw [Expr.canonical, Expr.canonical, heq]⟩

theorem standsFor_hole (s : ExprStore) (index : Nat) :
    (s.hole index).2.StandsFor (s.hole index).1 (.hole index) :=
  ⟨.hole index, by rw [expr?, s.resolve?_hole], rfl⟩

/-- The id of an application stands for it, if the ids of its arguments stand for these. -/
theorem standsFor_app (h : s.Ordered) (fn : Sym) {ids : List ExprId} {args : List Expr}
    (hids : List.Forall₂ s.StandsFor ids args) :
    (s.app fn ids).2.Ordered ∧ (s.app fn ids).2.StandsFor (s.app fn ids).1 (.app fn args) := by
  have hbelow : ∀ id ∈ ids, id.index < s.size := by
    intro id hid
    obtain ⟨i, hi, rfl⟩ := List.mem_iff_getElem.1 hid
    exact (hids.get hi (hids.length_eq ▸ hi)).index_lt
  have hordered : (s.intern (.app fn ids)).2.Ordered := h.intern hbelow
  refine ⟨hordered, ?_⟩
  have hnode := s.resolve?_app fn ids
  obtain ⟨es, hes, hcanon⟩ := exists_of_standsFor hids
  refine ⟨.app fn es, (expr?_of_app hnode).2 ⟨es, rfl, ?_⟩, ?_⟩
  · rw [List.forall₂_iff_get] at hes ⊢
    refine ⟨hes.1, fun i hi hi' => ⟨?_, (s.extends_intern _).expr? (hes.2 i hi hi')⟩⟩
    exact hordered _ _ hnode _ (List.get_mem ids ⟨i, hi⟩)
  · rw [Expr.canonical, Expr.canonical, Expr.canonicalAll_eq_map, Expr.canonicalAll_eq_map,
      hcanon]

/-- What storing one expression makes of a store: the rest stays, parts come first, and the id
stands for an expression that counts as equal. -/
theorem internExpr_spec (h : s.Ordered) (e : Expr) :
    (s.internExpr e).2.Ordered ∧ s.Extends (s.internExpr e).2 ∧
      (s.internExpr e).2.StandsFor (s.internExpr e).1 e := by
  induction e using Expr.induction generalizing s with
  | lit value =>
    rw [internExpr]
    exact ⟨h.intern (by simp [Node.args]), s.extends_intern _, s.standsFor_lit value⟩
  | hole index =>
    rw [internExpr]
    exact ⟨h.intern (by simp [Node.args]), s.extends_intern _, s.standsFor_hole index⟩
  | app fn args ih =>
    -- the arguments one after the other, each in the store that the earlier ones left
    have hall : ∀ (es : List Expr) (s : ExprStore), s.Ordered → (∀ e ∈ es, e ∈ args) →
        (s.internExprs es).2.Ordered ∧ s.Extends (s.internExprs es).2 ∧
          List.Forall₂ (s.internExprs es).2.StandsFor (s.internExprs es).1 es := by
      intro es
      induction es with
      | nil => exact fun s hs _ => ⟨hs, .refl s, .nil⟩
      | cons e es ihes =>
        intro s hs hsub
        obtain ⟨ho₁, hx₁, hid⟩ := ih e (hsub e List.mem_cons_self) hs
        obtain ⟨ho₂, hx₂, hrest⟩ := ihes _ ho₁ fun e' h' => hsub e' (List.mem_cons_of_mem _ h')
        exact ⟨ho₂, hx₁.trans hx₂, .cons (hid.extends hx₂) hrest⟩
    obtain ⟨hordered, hextends, hids⟩ := hall args s h fun _ h => h
    obtain ⟨hordered', hstands⟩ := standsFor_app hordered fn hids
    rw [internExpr]
    exact ⟨hordered', hextends.trans (extends_intern _ _), hstands⟩

/-- What storing several expressions makes of a store. -/
theorem extends_internExprs (h : s.Ordered) (es : List Expr) :
    (s.internExprs es).2.Ordered ∧ s.Extends (s.internExprs es).2 := by
  induction es generalizing s with
  | nil => exact ⟨h, .refl s⟩
  | cons e es ih =>
    obtain ⟨hordered, hextends, -⟩ := internExpr_spec h e
    obtain ⟨hordered', hextends'⟩ := ih hordered
    exact ⟨hordered', hextends.trans hextends'⟩

/-- The id of an expression without literals stands for that expression. -/
theorem expr?_internExpr (h : s.Ordered) (he : e.LiteralFree) :
    (s.internExpr e).2.expr? (s.internExpr e).1 = some e := by
  obtain ⟨-, -, e', he', hcanon⟩ := internExpr_spec h e
  rwa [he.eq_of_canonical_eq hcanon] at he'

end ExprStore

end Polyglot
