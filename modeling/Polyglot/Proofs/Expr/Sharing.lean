import Polyglot.Proofs.Expr.Store

/-!
# One id for one expression

An expression that was stored once is found again under the same id, however many others were
stored since, and whatever nodes the store had, even such that come before their parts.
Without literals, expressions that have the same id are the same.

- `ExprStore.Denotes`: what an id stands for, without regard to the order of the nodes.
- `ExprStore.Has`: an expression was stored under an id; `Has.extends`: that lasts.
- `ExprStore.has_internExpr`: to store an expression comes to that.
- `ExprStore.Has.eq_iff`: ids are the same if and only if the expressions are.
-/

namespace Polyglot

namespace Expr

mutual

/-- Whether two expressions are the same. -/
def decEq : (a b : Expr) → Decidable (a = b)
  | .app f as, .app g bs =>
    match decEqAll as bs with
    | isTrue h => decidable_of_iff (f = g) (by simp [h])
    | isFalse h => isFalse (by simp [h])
  | .lit v, .lit w => decidable_of_iff (v = w) (by simp)
  | .hole i, .hole j => decidable_of_iff (i = j) (by simp)
  | .app .., .lit .. => isFalse (by simp)
  | .app .., .hole _ => isFalse (by simp)
  | .lit .., .app .. => isFalse (by simp)
  | .lit .., .hole _ => isFalse (by simp)
  | .hole _, .app .. => isFalse (by simp)
  | .hole _, .lit .. => isFalse (by simp)

/-- Whether two lists of expressions are the same. -/
def decEqAll : (as bs : List Expr) → Decidable (as = bs)
  | [], [] => isTrue rfl
  | a :: as, b :: bs =>
    match decEq a b with
    | isTrue h => match decEqAll as bs with
      | isTrue hs => isTrue (by rw [h, hs])
      | isFalse hs => isFalse (by simp [hs])
    | isFalse h => isFalse (by simp [h])
  | [], _ :: _ => isFalse (by simp)
  | _ :: _, [] => isFalse (by simp)

end

instance : DecidableEq Expr := decEq

end Expr

namespace ExprStore

variable {s s' : ExprStore} {id id' : ExprId} {node : Node} {e e' : Expr}

/-! ## What an id stands for -/

/-- An id stands for an expression, whatever the order of the nodes. -/
inductive Denotes (s : ExprStore) : ExprId → Expr → Prop where
  | app {id : ExprId} {fn : Sym} {ids : List ExprId} {es : List Expr}
      (hnode : s.resolve? id = some (.app fn ids)) (hlength : ids.length = es.length)
      (hargs : ∀ (i : Nat) (arg : ExprId) (e : Expr), ids[i]? = some arg → es[i]? = some e →
        Denotes s arg e) :
      Denotes s id (.app fn es)
  | lit {id : ExprId} {value : Literal} (hnode : s.resolve? id = some (.lit value)) :
      Denotes s id (.lit value)
  | hole {id : ExprId} {index : Nat} (hnode : s.resolve? id = some (.hole index)) :
      Denotes s id (.hole index)

theorem Denotes.unique (h : s.Denotes id e) (h' : s.Denotes id e') : e = e' := by
  induction h generalizing e' with
  | lit hnode =>
    cases h' with
    | app hnode' => cases hnode.symm.trans hnode'
    | lit hnode' => cases hnode.symm.trans hnode'; rfl
    | hole hnode' => cases hnode.symm.trans hnode'
  | hole hnode =>
    cases h' with
    | app hnode' => cases hnode.symm.trans hnode'
    | lit hnode' => cases hnode.symm.trans hnode'
    | hole hnode' => cases hnode.symm.trans hnode'; rfl
  | @app id fn ids es hnode hlength _ ih =>
    cases h' with
    | lit hnode' => cases hnode.symm.trans hnode'
    | hole hnode' => cases hnode.symm.trans hnode'
    | @app _ _ _ es' hnode' hlength' hargs' =>
      cases hnode.symm.trans hnode'
      refine congrArg _ (List.ext_getElem (hlength.symm.trans hlength') fun i hi hi' => ?_)
      have hid : i < ids.length := hlength ▸ hi
      exact ih i _ _ (List.getElem?_eq_getElem hid) (List.getElem?_eq_getElem hi)
        (hargs' i _ _ (List.getElem?_eq_getElem hid) (List.getElem?_eq_getElem hi'))

/-- In a store whose nodes are in order, that is the expression of the id. -/
theorem Denotes.expr? (h : s.Denotes id e) (hs : s.Ordered) : s.expr? id = some e := by
  induction h with
  | lit hnode => rw [ExprStore.expr?, hnode]
  | hole hnode => rw [ExprStore.expr?, hnode]
  | @app id fn ids es hnode hlength _ ih =>
    refine (expr?_of_app hnode).2 ⟨es, rfl, forall₂_of_getElem? hlength ?_⟩
    intro i arg e harg he
    exact ⟨hs id _ hnode arg (List.mem_of_getElem? harg), ih i arg e harg he⟩

theorem Denotes.extends (h : s.Denotes id e) (hs : s.Extends s') : s'.Denotes id e := by
  induction h with
  | app hnode hlength _ ih => exact .app (hs _ _ hnode) hlength ih
  | lit hnode => exact .lit (hs _ _ hnode)
  | hole hnode => exact .hole (hs _ _ hnode)

/-! ## Storing twice -/

mutual

theorem internExpr_extends (s : ExprStore) : ∀ e, s.Extends (s.internExpr e).2
  | .app _ args => (internExprs_extends s args).trans (extends_intern _ _)
  | .lit _ => extends_intern _ _
  | .hole _ => extends_intern _ _

theorem internExprs_extends (s : ExprStore) : ∀ es, s.Extends (s.internExprs es).2
  | [] => .refl s
  | e :: es => (internExpr_extends s e).trans (internExprs_extends _ es)

end

/-- A node that was stored is found again under its id: it is still the first that counts as equal
to it. -/
theorem intern_again (hs : (s.intern node).2.Extends s') :
    s'.intern node = ((s.intern node).1, s') := by
  have hat : ∀ j (hj : j < (s.intern node).2.nodes.size), ∃ hj' : j < s'.nodes.size,
      s'.nodes[j] = (s.intern node).2.nodes[j] := fun j hj =>
    Array.getElem?_eq_some_iff.1 (hs ⟨j⟩ _ (Array.getElem?_eq_getElem hj))
  have hfind : ∀ i, s'.nodes.findIdx? (·.canonical == node.canonical) = some i →
      s'.intern node = (⟨i⟩, s') := by
    intro i hi
    rw [intern, hi]
  cases hold : s.nodes.findIdx? (·.canonical == node.canonical) with
  | some i =>
    have hintern : s.intern node = (⟨i⟩, s) := by rw [intern, hold]
    rw [hintern] at hat ⊢
    obtain ⟨hi, heq, hfirst⟩ := Array.findIdx?_eq_some_iff_getElem.1 hold
    obtain ⟨hi', hat'⟩ := hat i hi
    refine hfind i (Array.findIdx?_eq_some_iff_getElem.2 ⟨hi', by rw [hat', heq], fun j hj => ?_⟩)
    obtain ⟨hj', hat'⟩ := hat j (Nat.lt_trans hj hi)
    rw [hat']
    exact hfirst j hj
  | none =>
    have hintern : s.intern node = (⟨s.nodes.size⟩, ⟨s.nodes.push node⟩) := by rw [intern, hold]
    rw [hintern] at hat ⊢
    obtain ⟨hi', hat'⟩ := hat s.nodes.size (by simp)
    rw [Array.findIdx?_eq_none_iff] at hold
    refine hfind _ (Array.findIdx?_eq_some_iff_getElem.2 ⟨hi', by rw [hat']; simp, fun j hj => ?_⟩)
    obtain ⟨hj', hat'⟩ := hat j (by simp; omega)
    have hnot := hold s.nodes[j] (Array.getElem_mem hj)
    rw [hat', Array.getElem_push_lt hj, hnot]
    simp

mutual

/-- An expression that was stored is found again under its id. -/
theorem internExpr_again {s s' : ExprStore} : ∀ e, (s.internExpr e).2.Extends s' →
    s'.internExpr e = ((s.internExpr e).1, s')
  | .app fn args, hs => by
    have hargs := internExprs_again args ((extends_intern _ _).trans hs)
    simp only [internExpr, hargs]
    exact intern_again hs
  | .lit _, hs => intern_again hs
  | .hole _, hs => intern_again hs

/-- So are several expressions. -/
theorem internExprs_again {s s' : ExprStore} : ∀ es, (s.internExprs es).2.Extends s' →
    s'.internExprs es = ((s.internExprs es).1, s')
  | [], _ => rfl
  | e :: es, hs => by
    have he := internExpr_again e ((internExprs_extends _ es).trans hs)
    have hes := internExprs_again es hs
    simp only [internExprs, he, hes]

end

/-! ## Expressions of a store -/

/-- An expression was stored under an id. -/
def Has (s : ExprStore) (id : ExprId) (e : Expr) : Prop := s.internExpr e = (id, s)

theorem Has.extends (h : s.Has id e) (hs : s.Extends s') : s'.Has id e := by
  have hsecond : (s.internExpr e).2 = s := congrArg Prod.snd h
  rw [Has, internExpr_again e (hsecond.symm ▸ hs), congrArg Prod.fst h]

theorem has_internExpr (s : ExprStore) (e : Expr) :
    (s.internExpr e).2.Has (s.internExpr e).1 e :=
  internExpr_again e (.refl _)

theorem Has.unique (h : s.Has id e) (h' : s.Has id' e) : id = id' :=
  congrArg Prod.fst (h.symm.trans h')

mutual

/-- The id of an expression without literals stands for it. -/
theorem denotes_internExpr (s : ExprStore) : ∀ e : Expr, e.LiteralFree →
    (s.internExpr e).2.Denotes (s.internExpr e).1 e
  | .app fn args, he => by
    have hargs : ∀ e ∈ args, e.LiteralFree := by
      cases he with
      | app hargs => exact hargs
    obtain ⟨node, hnode, hcanon⟩ :=
      (s.internExprs args).2.resolve?_intern (.app fn (s.internExprs args).1)
    cases node with
    | lit value => cases hcanon
    | hole index => cases hcanon
    | app fn' ids =>
      cases hcanon
      have hall := denotes_internExprs s args hargs
      refine .app hnode hall.length_eq fun i arg e harg he => ?_
      exact (rel_of_forall₂ hall harg he).extends (extends_intern _ _)
  | .lit _, he => nomatch he
  | .hole index, _ => by
    obtain ⟨node, hnode, hcanon⟩ := s.resolve?_intern (.hole index)
    cases node with
    | app fn args => cases hcanon
    | lit value => cases hcanon
    | hole index' =>
      cases hcanon
      exact .hole hnode

/-- So do the ids of several of them. -/
theorem denotes_internExprs (s : ExprStore) : ∀ es : List Expr, (∀ e ∈ es, e.LiteralFree) →
    List.Forall₂ (s.internExprs es).2.Denotes (s.internExprs es).1 es
  | [], _ => .nil
  | e :: es, hes =>
    .cons ((denotes_internExpr s e (hes e List.mem_cons_self)).extends (internExprs_extends _ es))
      (denotes_internExprs _ es fun e' he' => hes e' (List.mem_cons_of_mem _ he'))

end

theorem Has.denotes (h : s.Has id e) (he : e.LiteralFree) : s.Denotes id e := by
  have hdenotes := s.denotes_internExpr e he
  rwa [show s.internExpr e = (id, s) from h] at hdenotes

/-- Two stored expressions without literals have the same id if and only if they are the same. -/
theorem Has.eq_iff (h : s.Has id e) (h' : s.Has id' e') (he : e.LiteralFree)
    (he' : e'.LiteralFree) : id = id' ↔ e = e' := by
  constructor
  · rintro rfl
    exact (h.denotes he).unique (h'.denotes he')
  · rintro rfl
    exact h.unique h'

end ExprStore

end Polyglot
