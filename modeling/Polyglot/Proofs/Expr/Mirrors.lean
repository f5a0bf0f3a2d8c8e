import Polyglot.Expr.Printer
import Polyglot.Proofs.Expr.Naming

/-!
# Stores with different handles

Which handle a name gets depends on what was interned before it. So stores that took in the same
expressions, with other names interned in between, differ in the handles of functions, but in
nothing else: what is stored has the same ids in them, and is written in the same way.

- `SymbolStore.Namesakes`: handles of two stores that go by the same name.
- `Expr.Mirrors`, `ExprStore.Mirrors`: expressions and stores that differ in such handles only.
- `ExprStore.Mirrors.intern`: the same nodes get the same ids; `ExprStore.Mirrors.exists_expr?`: ids
  stand for the same expressions; `ExprStore.Mirrors.text_eq`: they have the same texts.
- `Stores.Mirrors.read`: the same texts are read as the same ids, or fail with the same errors.
-/

namespace Polyglot

/-! ## Handles of one name -/

namespace SymbolStore

variable {base s s' t t' : SymbolStore} {a a' b b' : Sym}

/-- Handles, each of its own store, go by the same name. -/
def Namesakes (s s' : SymbolStore) (a a' : Sym) : Prop :=
  ∃ name, s.resolve? a = some name ∧ s'.resolve? a' = some name

theorem eq_of_resolve? {name : String} (h : s.resolve? a = some name)
    (h' : s.resolve? b = some name) : a = b :=
  Option.some.inj ((find?_eq_some_iff.2 h).symm.trans (find?_eq_some_iff.2 h'))

theorem Namesakes.symm (h : Namesakes s s' a a') : Namesakes s' s a' a :=
  h.imp fun _ hname => hname.symm

theorem Namesakes.mono (h : Namesakes s s' a a') (hs : s.Extends t) (hs' : s'.Extends t') :
    Namesakes t t' a a' :=
  h.imp fun name hname => ⟨hs a name hname.1, hs' a' name hname.2⟩

/-- A handle of a name has one namesake at most. -/
theorem Namesakes.eq_iff (h : Namesakes s s' a a') (h' : Namesakes s s' b b') :
    a = b ↔ a' = b' := by
  obtain ⟨name, ha, ha'⟩ := h
  obtain ⟨other, hb, hb'⟩ := h'
  constructor
  · rintro rfl
    cases ha.symm.trans hb
    exact eq_of_resolve? ha' hb'
  · rintro rfl
    cases ha'.symm.trans hb'
    exact eq_of_resolve? ha hb

/-- A handle that was known before is a namesake of itself. -/
theorem namesakes_of_knows (hs : base.Extends s) (hs' : base.Extends s') (ha : base.Knows a) :
    Namesakes s s' a a :=
  ha.imp fun name hname => ⟨hs a name hname, hs' a name hname⟩

theorem Namesakes.eq_of_knows (h : Namesakes s s' a a') (hs : base.Extends s)
    (hs' : base.Extends s') (ha : base.Knows a) : a = a' :=
  ((namesakes_of_knows hs hs' ha).eq_iff h).1 rfl

theorem namesakes_intern (s s' : SymbolStore) (name : String) :
    Namesakes (s.intern name).2 (s'.intern name).2 (s.intern name).1 (s'.intern name).1 :=
  ⟨name, resolve?_intern s name, resolve?_intern s' name⟩

end SymbolStore

open SymbolStore (Namesakes)

/-! ## Expressions that differ in handles only -/

section Expressions

variable {s s' t t' : SymbolStore} {e e' : Expr}

/-- Expressions that differ in handles only, which go by the same names. -/
inductive Expr.Mirrors (s s' : SymbolStore) : Expr → Expr → Prop where
  | app {fn fn' : Sym} {args args' : List Expr} (hfn : Namesakes s s' fn fn')
      (hargs : List.Forall₂ (Mirrors s s') args args') :
      Mirrors s s' (.app fn args) (.app fn' args')
  | lit (value : Literal) : Mirrors s s' (.lit value) (.lit value)
  | hole (index : Nat) : Mirrors s s' (.hole index) (.hole index)

/-- All functions of an expression have names. -/
def Expr.Known (symbols : SymbolStore) (e : Expr) : Prop := e.Mirrors symbols symbols e

theorem Expr.Mirrors.mono (h : e.Mirrors s s' e') (hs : s.Extends t) (hs' : s'.Extends t') :
    e.Mirrors t t' e' := by
  induction e using Expr.induction generalizing e' with
  | hole index =>
    cases h
    exact .hole index
  | lit value =>
    cases h
    exact .lit value
  | app fn args ih =>
    cases h with
    | app hfn hargs =>
      refine .app (hfn.mono hs hs') (forall₂_of_getElem? hargs.length_eq ?_)
      intro i arg arg' harg harg'
      exact ih arg (List.mem_of_getElem? harg) (rel_of_forall₂ hargs harg harg')

theorem Expr.known_app {symbols : SymbolStore} {fn : Sym} {args : List Expr}
    (hfn : symbols.Knows fn) (hargs : ∀ e ∈ args, e.Known symbols) :
    (Expr.app fn args).Known symbols :=
  .app (SymbolStore.namesakes_of_knows (.refl _) (.refl _) hfn) (List.forall₂_same.2 hargs)

/-- Such expressions are written in the same way. -/
theorem Expr.Mirrors.exists_source? (h : e.Mirrors s s' e') :
    ∃ source, e.source? s = some source ∧ e'.source? s' = some source := by
  induction e using Expr.induction generalizing e' with
  | hole index =>
    cases h
    exact ⟨.hole index, rfl, rfl⟩
  | lit value =>
    cases h
    exact ⟨.lit value, rfl, rfl⟩
  | app fn args ih =>
    cases h with
    | app hfn hargs =>
      obtain ⟨name, hname, hname'⟩ := hfn
      obtain ⟨sources, hsources, hsources'⟩ := exists_between_forall₂ hargs
        (P := fun e source => e.source? s = some source)
        (Q := fun source e' => e'.source? s' = some source) fun e he e' h => ih e he h
      exact ⟨.app name sources, source?_app_iff.2 ⟨name, sources, hname, hsources, rfl⟩,
        source?_app_iff.2 ⟨name, sources, hname', hsources'.flip, rfl⟩⟩

theorem Expr.Mirrors.text_eq (h : e.Mirrors s s' e') : e'.text s' = e.text s := by
  obtain ⟨source, hsource, hsource'⟩ := h.exists_source?
  rw [Expr.text, Expr.text, write_of_source? hsource, write_of_source? hsource']

end Expressions

/-! ## Stores that differ in handles only -/

namespace ExprStore

variable {s s' t t' : SymbolStore} {x y : ExprStore} {node node' : Node}

/-- Nodes that differ in handles only, which go by the same names. -/
inductive Node.Mirrors (s s' : SymbolStore) : Node → Node → Prop where
  | app {fn fn' : Sym} (hfn : Namesakes s s' fn fn') (args : List ExprId) :
      Mirrors s s' (.app fn args) (.app fn' args)
  | lit (value : Literal) : Mirrors s s' (.lit value) (.lit value)
  | hole (index : Nat) : Mirrors s s' (.hole index) (.hole index)

theorem Node.Mirrors.symm (h : node.Mirrors s s' node') : node'.Mirrors s' s node := by
  cases h with
  | app hfn args => exact .app hfn.symm args
  | lit value => exact .lit value
  | hole index => exact .hole index

theorem Node.Mirrors.mono (h : node.Mirrors s s' node') (hs : s.Extends t)
    (hs' : s'.Extends t') : node.Mirrors t t' node' := by
  cases h with
  | app hfn args => exact .app (hfn.mono hs hs') args
  | lit value => exact .lit value
  | hole index => exact .hole index

/-- Such nodes count as equal to one another in both stores or in none. -/
theorem Node.Mirrors.canonical_eq_iff {other other' : Node} (h : node.Mirrors s s' node')
    (hother : other.Mirrors s s' other') :
    node.canonical = other.canonical ↔ node'.canonical = other'.canonical := by
  cases h with
  | app hfn args =>
    cases hother with
    | app hfn' args' => simp only [canonical, app.injEq, hfn.eq_iff hfn']
    | lit | hole => simp [canonical]
  | lit value => cases hother <;> simp [canonical]
  | hole index => cases hother <;> simp [canonical]

/-- Stores whose nodes differ in handles only. -/
def Mirrors (s s' : SymbolStore) (x y : ExprStore) : Prop :=
  List.Forall₂ (Node.Mirrors s s') x.nodes.toList y.nodes.toList

theorem mirrors_empty (s s' : SymbolStore) : Mirrors s s' {} {} := .nil

namespace Mirrors

variable (h : Mirrors s s' x y)
include h

theorem symm : Mirrors s' s y x := (h.imp fun _ _ hnode => hnode.symm).flip

theorem mono (hs : s.Extends t) (hs' : s'.Extends t') : Mirrors t t' x y :=
  h.imp fun _ _ hnode => hnode.mono hs hs'

theorem size_eq : y.nodes.size = x.nodes.size := h.length_eq.symm

theorem exists_resolve? {id : ExprId} (hnode : x.resolve? id = some node) :
    ∃ node', y.resolve? id = some node' ∧ node.Mirrors s s' node' :=
  exists_rel_of_forall₂ h hnode

/-- **The same nodes get the same ids.** -/
theorem intern (hnode : node.Mirrors s s' node') :
    (y.intern node').1 = (x.intern node).1 ∧
      Mirrors s s' (x.intern node).2 (y.intern node').2 := by
  have hplace : y.nodes.findIdx? (·.canonical == node'.canonical) =
      x.nodes.findIdx? (·.canonical == node.canonical) := by
    rw [← y.nodes.toArray_toList, ← x.nodes.toArray_toList, List.findIdx?_toArray,
      List.findIdx?_toArray]
    refine findIdx?_eq_of_forall₂ h fun n n' hn => ?_
    rw [Bool.eq_iff_iff, beq_iff_eq, beq_iff_eq]
    exact (hn.canonical_eq_iff hnode).symm
  unfold ExprStore.intern
  rw [hplace]
  split
  · exact ⟨rfl, h⟩
  · refine ⟨congrArg ExprId.mk h.size_eq, ?_⟩
    show List.Forall₂ _ (x.nodes.push node).toList (y.nodes.push node').toList
    rw [Array.toList_push, Array.toList_push]
    exact List.rel_append h (.cons hnode .nil)

/-- **Ids stand for the same expressions.** -/
theorem exists_expr? {id : ExprId} {e : Expr} (he : x.expr? id = some e) :
    ∃ e', y.expr? id = some e' ∧ e.Mirrors s s' e' := by
  induction e using Expr.induction generalizing id with
  | hole index =>
    obtain ⟨node', hnode', hmirrors⟩ := h.exists_resolve? (expr?_eq_hole_iff.1 he)
    cases hmirrors
    exact ⟨.hole index, expr?_eq_hole_iff.2 hnode', .hole index⟩
  | lit value =>
    obtain ⟨node', hnode', hmirrors⟩ := h.exists_resolve? (expr?_eq_lit_iff.1 he)
    cases hmirrors
    exact ⟨.lit value, expr?_eq_lit_iff.2 hnode', .lit value⟩
  | app fn args ih =>
    obtain ⟨ids, hnode, hids⟩ := expr?_eq_app_iff.1 he
    obtain ⟨node', hnode', hmirrors⟩ := h.exists_resolve? hnode
    cases hmirrors with
    | app hfn =>
      obtain ⟨args', hids', hargs'⟩ := exists_between_forall₂ hids.flip
        (P := fun arg arg' => arg.Mirrors s s' arg')
        (Q := fun arg' id' => id'.index < id.index ∧ y.expr? id' = some arg')
        fun arg harg id' hid' => by
          obtain ⟨arg', harg', hmirrors⟩ := ih arg harg hid'.2
          exact ⟨arg', hmirrors, hid'.1, harg'⟩
      exact ⟨.app _ args', expr?_eq_app_iff.2 ⟨ids, hnode', hargs'.flip⟩, .app hfn hids'⟩

/-- An id stands for something in both stores or in none. -/
theorem expr?_eq_none {id : ExprId} (he : x.expr? id = none) : y.expr? id = none := by
  cases he' : y.expr? id with
  | none => rfl
  | some e' =>
    obtain ⟨e, he'', -⟩ := h.symm.exists_expr? he'
    cases he.symm.trans he''

/-- What is stored has the same texts. -/
theorem text_eq (id : ExprId) : y.text s' id = x.text s id := by
  rw [ExprStore.text, ExprStore.text]
  cases he : x.expr? id with
  | none => rw [h.expr?_eq_none he]
  | some e =>
    obtain ⟨e', he', hmirrors⟩ := h.exists_expr? he
    rw [he']
    exact hmirrors.text_eq

end Mirrors

mutual

/-- **The same expressions get the same ids**, as long as all their names were known before. -/
theorem Mirrors.internExpr {x y : ExprStore} (h : Mirrors s s' x y) :
    ∀ {e : Expr}, e.Mirrors s s' e → (y.internExpr e).1 = (x.internExpr e).1 ∧
      Mirrors s s' (x.internExpr e).2 (y.internExpr e).2
  | .hole index, _ => h.intern (.hole index)
  | .lit value, _ => h.intern (.lit value)
  | .app fn args, he => by
    cases he with
    | app hfn hargs =>
      obtain ⟨hids, hafter⟩ := Mirrors.internExprs h (List.forall₂_same.1 hargs)
      rw [ExprStore.internExpr, ExprStore.internExpr]
      dsimp only
      rw [hids]
      exact hafter.intern (.app hfn _)

/-- So do several, one after the other. -/
theorem Mirrors.internExprs {x y : ExprStore} (h : Mirrors s s' x y) :
    ∀ {es : List Expr}, (∀ e ∈ es, e.Mirrors s s' e) →
      (y.internExprs es).1 = (x.internExprs es).1 ∧
        Mirrors s s' (x.internExprs es).2 (y.internExprs es).2
  | [], _ => ⟨rfl, h⟩
  | e :: es, hes => by
    obtain ⟨hid, hfirst⟩ := Mirrors.internExpr h (hes e List.mem_cons_self)
    have hothers : ∀ e ∈ es, e.Mirrors s s' e := fun e he => hes e (List.mem_cons_of_mem _ he)
    obtain ⟨hids, hrest⟩ := Mirrors.internExprs hfirst hothers
    exact ⟨congrArg₂ List.cons hid hids, hrest⟩

end

end ExprStore

/-! ## Reading -/

namespace Stores

variable {s s' t t' : Stores}

/-- All names and expressions are still there. -/
structure Extends (s s' : Stores) : Prop where
  symbols : s.symbols.Extends s'.symbols
  exprs : s.exprs.Extends s'.exprs

theorem Extends.refl (s : Stores) : s.Extends s := ⟨.refl _, .refl _⟩

theorem Extends.trans (h : s.Extends s') (h' : s'.Extends t) : s.Extends t :=
  ⟨h.symbols.trans h'.symbols, h.exprs.trans h'.exprs⟩

theorem extends_intern (s : Stores) (name : String) :
    s.Extends { s with symbols := (s.symbols.intern name).2 } :=
  ⟨s.symbols.extends_intern name, .refl _⟩

theorem extends_store (s : Stores) (node : ExprStore.Node) :
    s.Extends { s with exprs := (s.exprs.intern node).2 } :=
  ⟨.refl _, s.exprs.extends_intern node⟩

/-- Stores whose nodes differ in handles only, each in those of its own names. -/
def Mirrors (s s' : Stores) : Prop := ExprStore.Mirrors s.symbols s'.symbols s.exprs s'.exprs

theorem Mirrors.symbols (h : s.Mirrors s') {a b : SymbolStore} (ha : s.symbols.Extends a)
    (hb : s'.symbols.Extends b) : Mirrors { s with symbols := a } { s' with symbols := b } :=
  ExprStore.Mirrors.mono h ha hb

mutual

theorem extends_internSource (s : Stores) : ∀ source : Source,
    s.Extends (s.internSource source).2
  | .hole index => s.extends_store (.hole index)
  | .lit value => s.extends_store (.lit value)
  | .app name args =>
    ((s.extends_intern name).trans (extends_internSources _ args)).trans (extends_store _ _)

theorem extends_internSources (s : Stores) : ∀ sources : List Source,
    s.Extends (s.internSources sources).2
  | [] => .refl s
  | source :: sources =>
    (extends_internSource s source).trans (extends_internSources _ sources)

end

mutual

/-- The same sources get the same ids. -/
theorem Mirrors.internSource {s s' : Stores} (h : s.Mirrors s') : ∀ source : Source,
    (s'.internSource source).1 = (s.internSource source).1 ∧
      (s.internSource source).2.Mirrors (s'.internSource source).2
  | .hole index => ExprStore.Mirrors.intern h (.hole index)
  | .lit value => ExprStore.Mirrors.intern h (.lit value)
  | .app name args => by
    let t : Stores := { s with symbols := (s.symbols.intern name).2 }
    let t' : Stores := { s' with symbols := (s'.symbols.intern name).2 }
    have hstart : t.Mirrors t' :=
      h.symbols (s.symbols.extends_intern name) (s'.symbols.extends_intern name)
    obtain ⟨hids, hargs⟩ := Mirrors.internSources hstart args
    -- What is stored of the arguments keeps the name that was interned before them.
    have hfn := (SymbolStore.namesakes_intern s.symbols s'.symbols name).mono
      (t.extends_internSources args).symbols (t'.extends_internSources args).symbols
    rw [Stores.internSource, Stores.internSource]
    dsimp only
    rw [show (t'.internSources args).1 = (t.internSources args).1 from hids]
    exact ExprStore.Mirrors.intern hargs (.app hfn _)

/-- So do several, one after the other. -/
theorem Mirrors.internSources {s s' : Stores} (h : s.Mirrors s') : ∀ sources : List Source,
    (s'.internSources sources).1 = (s.internSources sources).1 ∧
      (s.internSources sources).2.Mirrors (s'.internSources sources).2
  | [] => ⟨rfl, h⟩
  | source :: sources => by
    obtain ⟨hid, hfirst⟩ := Mirrors.internSource h source
    obtain ⟨hids, hrest⟩ := Mirrors.internSources hfirst sources
    exact ⟨congrArg₂ List.cons hid hids, hrest⟩

end

theorem extends_internFragment (s : Stores) (fragment : Source.Fragment) :
    s.Extends (s.internFragment fragment) := by
  cases fragment with
  | name name => exact s.extends_intern name
  | part source => exact s.extends_internSource source

theorem Mirrors.internFragment (h : s.Mirrors s') (fragment : Source.Fragment) :
    (s.internFragment fragment).Mirrors (s'.internFragment fragment) := by
  cases fragment with
  | name name => exact h.symbols (SymbolStore.extends_intern _ _) (SymbolStore.extends_intern _ _)
  | part source => exact (h.internSource source).2

/-- What is left of a reading that failed. -/
theorem extends_internFragments (s : Stores) (fragments : List Source.Fragment) :
    s.Extends (fragments.foldl internFragment s) := by
  induction fragments generalizing s with
  | nil => exact .refl s
  | cons fragment fragments ih => exact (s.extends_internFragment fragment).trans (ih _)

theorem Mirrors.internFragments (h : s.Mirrors s') (fragments : List Source.Fragment) :
    (fragments.foldl Stores.internFragment s).Mirrors
      (fragments.foldl Stores.internFragment s') := by
  induction fragments generalizing s s' with
  | nil => exact h
  | cons fragment fragments ih => exact ih (h.internFragment fragment)

theorem extends_read (s : Stores) (text : String) : s.Extends (s.read text).2 := by
  rw [Stores.read]
  split
  · exact s.extends_internSource _
  · exact s.extends_internFragments _

/-- **The same texts are read as the same ids**, or fail with the same errors. -/
theorem Mirrors.read (h : s.Mirrors s') (text : String) :
    (s'.read text).1 = (s.read text).1 ∧ (s.read text).2.Mirrors (s'.read text).2 := by
  rw [Stores.read, Stores.read]
  split
  · rename_i source _
    obtain ⟨hid, hafter⟩ := h.internSource source
    exact ⟨congrArg Except.ok hid, hafter⟩
  · exact ⟨rfl, h.internFragments _⟩

end Stores

end Polyglot
