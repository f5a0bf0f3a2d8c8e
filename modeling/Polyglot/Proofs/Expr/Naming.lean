import Polyglot.Proofs.Expr.Distinct
import Polyglot.Proofs.Expr.Reading
import Polyglot.Proofs.Grammar.Words

/-!
# Expressions and their names

A stored expression has a source, as long as all its functions have names, and it is written as that
source is. To store a source comes to nothing if what it spells is there: every name is found and
every node is.

- `Expr.source?`: the source of an expression.
- `Source.Spells`: a source that stands for an expression or for one that counts as equal.
- `Stores.stored_internSource`: storing a source comes to storing nodes.
- `Stores.internSource_spec`: what is stored is what the source spells.
- `Stores.internSource_of_spells`: if that is there already then nothing changes.
-/

namespace Polyglot

theorem SymbolStore.intern_of_resolve? {s : SymbolStore} {sym : Sym} {name : String}
    (h : s.resolve? sym = some name) : s.intern name = (sym, s) := by
  obtain ⟨i, hi, rfl⟩ := Option.map_eq_some_iff.1 (find?_eq_some_iff.2 h)
  unfold intern
  split
  · rename_i j hj
    cases hi.symm.trans hj
    rfl
  · rename_i hnone
    cases hi.symm.trans hnone

/-! ## Sources of expressions -/

mutual

/-- The source of an expression, if all its functions have names. -/
def Expr.source? (symbols : SymbolStore) : Expr → Option Source
  | .app fn args =>
    (symbols.resolve? fn).bind fun name => (Expr.sources? symbols args).map (.app name)
  | .lit value => some (.lit value)
  | .hole index => some (.hole index)

/-- The sources of several expressions. -/
def Expr.sources? (symbols : SymbolStore) : List Expr → Option (List Source)
  | [] => some []
  | e :: es =>
    (Expr.source? symbols e).bind fun first => (Expr.sources? symbols es).map (first :: ·)

end

section Sources

variable {symbols symbols' : SymbolStore} {source : Source} {sources : List Source} {e : Expr}
  {es : List Expr}

theorem Expr.sources?_eq_some_iff : Expr.sources? symbols es = some sources ↔
    List.Forall₂ (fun e source => e.source? symbols = some source) es sources := by
  induction es generalizing sources with
  | nil => simp [Expr.sources?, eq_comm]
  | cons e es ih =>
    rw [List.forall₂_cons_left_iff]
    simp only [Expr.sources?, Option.bind_eq_some_iff, Option.map_eq_some_iff]
    constructor
    · rintro ⟨first, hfirst, rest, hrest, rfl⟩
      exact ⟨first, rest, hfirst, ih.1 hrest, rfl⟩
    · rintro ⟨first, rest, hfirst, hrest, rfl⟩
      exact ⟨first, hfirst, rest, ih.2 hrest, rfl⟩

theorem Expr.source?_app_iff {fn : Sym} : (Expr.app fn es).source? symbols = some source ↔
    ∃ name sources, symbols.resolve? fn = some name ∧
      List.Forall₂ (fun e source => e.source? symbols = some source) es sources ∧
      source = .app name sources := by
  simp only [Expr.source?, Option.bind_eq_some_iff, Option.map_eq_some_iff,
    Expr.sources?_eq_some_iff, @eq_comm _ _ source]
  constructor
  · rintro ⟨name, hname, sources, hsources, rfl⟩
    exact ⟨name, sources, hname, hsources, rfl⟩
  · rintro ⟨name, sources, hname, hsources, rfl⟩
    exact ⟨name, hname, sources, hsources, rfl⟩

/-- Arguments are written one after the other. -/
theorem Expr.writeArgs_of_forall₂
    (h : List.Forall₂ (fun e source => e.write symbols true = .ok (source.write true)) es sources) :
    Expr.writeArgs symbols es = .ok (Source.writeArgs sources) := by
  induction h with
  | nil => rfl
  | cons hfirst _ ih =>
    rw [Expr.writeArgs, hfirst, ih]
    rfl

/-- An expression is written as its source is. -/
theorem Expr.write_of_source? (h : e.source? symbols = some source) (nested : Bool) :
    e.write symbols nested = .ok (source.write nested) := by
  induction e using Expr.induction generalizing source nested with
  | lit value => cases h; rfl
  | hole index => cases h; rfl
  | app fn args ih =>
    obtain ⟨name, sources, hname, hsources, rfl⟩ := Expr.source?_app_iff.1 h
    have hargs : Expr.writeArgs symbols args = .ok (Source.writeArgs sources) := by
      refine Expr.writeArgs_of_forall₂ (forall₂_of_getElem? hsources.length_eq ?_)
      intro i e source he hsource
      exact ih e (List.mem_of_getElem? he) (rel_of_forall₂ hsources he hsource) true
    have hempty : args.isEmpty = sources.isEmpty := by
      cases hsources <;> rfl
    rw [Expr.write, hname]
    simp only [hargs, hempty, Source.write]
    rfl

end Sources

/-! ## What a source spells -/

namespace Source

/-- A source that stands for an expression, or for one that counts as equal to it. -/
inductive Spells (symbols : SymbolStore) : Source → Expr → Prop where
  | app {fn : Sym} {name : String} {sources : List Source} {args : List Expr}
      (hname : symbols.resolve? fn = some name)
      (hargs : List.Forall₂ (Spells symbols) sources args) :
      Spells symbols (.app name sources) (.app fn args)
  | lit {value value' : Literal} (h : value.Alike value') :
      Spells symbols (.lit value) (.lit value')
  | hole (index : Nat) : Spells symbols (.hole index) (.hole index)

/-- A source without floats that are not finite. -/
inductive Finite : Source → Prop where
  | app {name : String} {args : List Source} (hargs : ∀ source ∈ args, Finite source) :
      Finite (.app name args)
  | lit {value : Literal} (h : ∀ x, value = .float x → x.isFinite = true) : Finite (.lit value)
  | hole (index : Nat) : Finite (.hole index)

variable {symbols symbols' : SymbolStore} {source source' : Source} {e e' : Expr}

/-- A source is what it is read as if all floats are finite. -/
theorem Finite.reread_eq (h : source.Finite) : source.reread = some source := by
  induction source using Source.induction with
  | hole index => rfl
  | lit value =>
    cases h with
    | lit h =>
      cases value with
      | float x => rw [reread, rereadLiteral, if_pos (h x rfl)]
      | str | int => rfl
  | app name args ih =>
    cases h with
    | app hargs =>
      have hall : ∀ sources : List Source, (∀ source ∈ sources, source.reread = some source) →
          rereadAll sources = some sources := by
        intro sources hsources
        induction sources with
        | nil => rfl
        | cons first rest ihrest =>
          rw [rereadAll, hsources first List.mem_cons_self,
            ihrest fun source hmem => hsources source (List.mem_cons_of_mem _ hmem)]
          rfl
      rw [reread, hall args fun source hmem => ih source hmem (hargs source hmem)]
      rfl

theorem forall₂_of_rereadAll {sources sources' : List Source}
    (h : rereadAll sources = some sources') :
    List.Forall₂ (fun source source' => source.reread = some source') sources sources' := by
  induction sources generalizing sources' with
  | nil => cases h; exact .nil
  | cons source sources ih =>
    rw [rereadAll, Option.bind_eq_some_iff] at h
    obtain ⟨first, hfirst, h⟩ := h
    obtain ⟨rest, hrest, rfl⟩ := Option.map_eq_some_iff.1 h
    exact .cons hfirst (ih hrest)

/-- If what a source is read as stands for the same expression then all floats are finite. -/
theorem finite_of_reread (h : source.Spells symbols e) (hread : source.reread = some source')
    (h' : source'.Spells symbols e) : source.Finite := by
  induction source using Source.induction generalizing source' e with
  | hole index => exact .hole index
  | lit value =>
    refine .lit fun x hx => ?_
    subst hx
    rw [reread, rereadLiteral] at hread
    split at hread
    · assumption
    · -- otherwise it is read as an application, if at all
      split_ifs at hread <;> cases hread <;> cases h <;> cases h'
  | app name sources ih =>
    rw [reread] at hread
    obtain ⟨sources', hall, rfl⟩ := Option.map_eq_some_iff.1 hread
    have hreads := forall₂_of_rereadAll hall
    cases h with
    | app _ hargs =>
      cases h' with
      | app _ hargs' =>
        refine .app fun arg harg => ?_
        obtain ⟨i, hi, rfl⟩ := List.mem_iff_getElem.1 harg
        have hi' : i < sources'.length := hreads.length_eq ▸ hi
        have hi'' : i < _ := hargs.length_eq ▸ hi
        exact ih _ harg (hargs.get hi hi'') (hreads.get hi hi') (hargs'.get hi' hi'')

theorem Spells.extends (h : source.Spells symbols e) (hsymbols : symbols.Extends symbols') :
    source.Spells symbols' e := by
  induction source using Source.induction generalizing e with
  | hole index =>
    cases h
    exact .hole index
  | lit value =>
    cases h with
    | lit h => exact .lit h
  | app name sources ih =>
    cases h with
    | app hname hargs =>
      refine .app (hsymbols _ _ hname) (forall₂_of_getElem? hargs.length_eq ?_)
      intro i source e hsource he
      exact ih source (List.mem_of_getElem? hsource) (rel_of_forall₂ hargs hsource he)

/-- What counts as equal to what a source stands for is stood for as well. -/
theorem Spells.congr (h : source.Spells symbols e) (heq : e'.canonical = e.canonical) :
    source.Spells symbols e' := by
  have halike : e.Alike e' := Expr.alike_iff.2 heq.symm
  induction source using Source.induction generalizing e e' with
  | hole index =>
    cases h
    cases halike
    exact .hole index
  | lit value =>
    cases h with
    | lit h =>
      cases halike with
      | lit h' =>
        exact .lit (Literal.alike_iff.2 ((Literal.alike_iff.1 h).trans (Literal.alike_iff.1 h')))
  | app name sources ih =>
    cases h with
    | app hname hargs =>
      cases halike with
      | app _ halike =>
        refine .app hname (forall₂_of_getElem? (hargs.length_eq.trans halike.length_eq) ?_)
        intro i source e' hsource he'
        obtain ⟨hi, rfl⟩ := List.getElem?_eq_some_iff.1 he'
        have hi' : i < _ := halike.length_eq.symm ▸ hi
        have hargs_i := rel_of_forall₂ hargs hsource (List.getElem?_eq_getElem hi')
        have halike_i := halike.get hi' hi
        exact ih source (List.mem_of_getElem? hsource) hargs_i (Expr.alike_iff.1 halike_i).symm
          halike_i

/-- The source of an expression stands for it. -/
theorem spells_of_source? (h : e.source? symbols = some source) : source.Spells symbols e := by
  induction e using Expr.induction generalizing source with
  | hole index =>
    cases h
    exact .hole index
  | lit value =>
    cases h
    exact .lit (Literal.alike_iff.2 rfl)
  | app fn args ih =>
    obtain ⟨name, sources, hname, hsources, rfl⟩ := Expr.source?_app_iff.1 h
    refine .app hname (forall₂_of_getElem? hsources.length_eq.symm ?_)
    intro i source e hsource he
    exact ih e (List.mem_of_getElem? he) (rel_of_forall₂ hsources he hsource)

/-- What a legible source stands for has a source that is legible, too. -/
theorem Spells.exists_source? (h : source.Spells symbols e) (hlegible : source.Legible) :
    ∃ source', e.source? symbols = some source' ∧ source'.Legible := by
  induction source using Source.induction generalizing e with
  | hole index =>
    cases h
    exact ⟨_, rfl, hlegible⟩
  | lit value =>
    cases h with
    | lit h =>
      refine ⟨_, rfl, ?_⟩
      cases h with
      | str | int => exact hlegible
      | float h => exact .lit trivial
  | app name sources ih =>
    cases h with
    | @app fn _ _ args hname hargs =>
      cases hlegible with
      | app hident hlegible =>
        have hsources : ∀ e ∈ args, ∃ source', e.source? symbols = some source' ∧
            source'.Legible := by
          intro e he
          obtain ⟨i, hi, rfl⟩ := List.mem_iff_getElem.1 he
          have hi' : i < sources.length := hargs.length_eq ▸ hi
          exact ih _ (List.getElem_mem hi') (hargs.get hi' hi) (hlegible _ (List.getElem_mem hi'))
        obtain ⟨sources', hsources'⟩ := exists_forall₂ hsources
        refine ⟨_, Expr.source?_app_iff.2 ⟨name, sources', hname, hsources'.imp fun _ _ h => h.1,
          rfl⟩, .app hident fun source' hmem => ?_⟩
        obtain ⟨i, hi, rfl⟩ := List.mem_iff_getElem.1 hmem
        exact (hsources'.get (hsources'.length_eq ▸ hi) hi).2

end Source

/-! ## Storing a source -/

namespace Stores

open Source ExprStore

variable {s s' : Stores} {source : Source} {id : ExprId} {e : Expr}

/-- An id that stands for what a source spells. -/
def Holds (s : Stores) (source : Source) (id : ExprId) : Prop :=
  ∃ e, s.exprs.StandsFor id e ∧ source.Spells s.symbols e

theorem Holds.exists_expr? (h : s.Holds source id) :
    ∃ e, s.exprs.expr? id = some e ∧ source.Spells s.symbols e := by
  obtain ⟨e, ⟨e', he', hcanon⟩, hspells⟩ := h
  exact ⟨e', he', hspells.congr hcanon⟩

theorem Holds.extends (h : s.Holds source id) (hsymbols : s.symbols.Extends s'.symbols)
    (hexprs : s.exprs.Extends s'.exprs) : s'.Holds source id := by
  obtain ⟨e, hstands, hspells⟩ := h
  exact ⟨e, hstands.extends hexprs, hspells.extends hsymbols⟩

/-- The id of an application stands for what is spelt by its name and its arguments. -/
theorem holds_app (h : s.exprs.Ordered) {fn : Sym} {name : String}
    (hname : s.symbols.resolve? fn = some name) {sources : List Source} {ids : List ExprId}
    (hids : List.Forall₂ s.Holds sources ids) :
    Holds { s with exprs := (s.exprs.app fn ids).2 } (.app name sources)
      (s.exprs.app fn ids).1 := by
  obtain ⟨es, hspells, hstands⟩ := exists_between_forall₂ hids
    (P := fun source e => source.Spells s.symbols e) (Q := fun e id => s.exprs.StandsFor id e)
    fun _ _ _ hholds => hholds.imp fun _ h => h.symm
  exact ⟨.app fn es, (standsFor_app h fn hstands.flip).2, .app hname hspells⟩

mutual

/-- To store a source comes to storing nodes. -/
theorem stored_internSource (s : Stores) (h : s.exprs.Sound) : ∀ source : Source,
    Stored s.exprs [(s.internSource source).1] (s.internSource source).2.exprs
  | .app name args =>
    (stored_internSources { s with symbols := (s.symbols.intern name).2 } h args).intern
  | .lit _ => h.stored_nil.intern
  | .hole _ => h.stored_nil.intern

/-- So it does to store several. -/
theorem stored_internSources (s : Stores) (h : s.exprs.Sound) : ∀ sources : List Source,
    Stored s.exprs (s.internSources sources).1 (s.internSources sources).2.exprs
  | [] => h.stored_nil
  | source :: sources =>
    have hfirst := stored_internSource s h source
    hfirst.cons (stored_internSources _ hfirst.sound sources)

end

mutual

/-- The id that a source is stored under stands for what it spells, and no name is lost. -/
theorem internSource_spec (s : Stores) (h : s.exprs.Sound) : ∀ source : Source,
    s.symbols.Extends (s.internSource source).2.symbols ∧
      (s.internSource source).2.Holds source (s.internSource source).1
  | .hole index => ⟨.refl _, .hole index, s.exprs.standsFor_hole index, .hole index⟩
  | .lit value =>
    ⟨.refl _, .lit value, s.exprs.standsFor_lit value, .lit (Literal.alike_iff.2 rfl)⟩
  | .app name args => by
    have hargs := stored_internSources { s with symbols := (s.symbols.intern name).2 } h args
    obtain ⟨hsymbols, hholds⟩ :=
      internSources_spec { s with symbols := (s.symbols.intern name).2 } h args
    have hname := hsymbols _ _ (SymbolStore.resolve?_intern s.symbols name)
    exact ⟨(s.symbols.extends_intern name).trans hsymbols,
      holds_app hargs.sound.ordered hname hholds⟩

/-- So it is with several, one after the other. -/
theorem internSources_spec (s : Stores) (h : s.exprs.Sound) : ∀ sources : List Source,
    s.symbols.Extends (s.internSources sources).2.symbols ∧
      List.Forall₂ (s.internSources sources).2.Holds sources (s.internSources sources).1
  | [] => ⟨.refl _, .nil⟩
  | source :: sources => by
    have hfirst := stored_internSource s h source
    obtain ⟨hsymbols, hholds⟩ := internSource_spec s h source
    have hrest := stored_internSources (s.internSource source).2 hfirst.sound sources
    obtain ⟨hsymbols', hholds'⟩ :=
      internSources_spec (s.internSource source).2 hfirst.sound sources
    exact ⟨hsymbols.trans hsymbols', .cons (hholds.extends hsymbols' hrest.keeps) hholds'⟩

end

mutual

/-- To store what is there changes nothing, and it has the id that it had. -/
theorem internSource_of_spells (h : s.exprs.Sound) : ∀ (source : Source) {id : ExprId} {e : Expr},
    s.exprs.expr? id = some e → source.Spells s.symbols e → s.internSource source = (id, s)
  | .hole index, id, _, he, hspells => by
    cases hspells
    have hnode := expr?_eq_hole_iff.1 he
    rw [internSource, ExprStore.hole, h.distinct.intern_eq hnode rfl]
  | .lit value, id, _, he, hspells => by
    cases hspells with
    | @lit _ value' halike =>
      have hcanon : (Node.lit value').canonical = (Node.lit value).canonical := by
        rw [Node.canonical, Node.canonical, Literal.alike_iff.1 halike]
      rw [internSource, ExprStore.lit, h.distinct.intern_eq (expr?_eq_lit_iff.1 he) hcanon]
  | .app name sources, id, _, he, hspells => by
    cases hspells with
    | app hname hes =>
      obtain ⟨ids, hnode, hids⟩ := expr?_eq_app_iff.1 he
      have hargs := internSources_of_spells h sources (hids.imp fun _ _ h => h.2) hes
      rw [internSource, SymbolStore.intern_of_resolve? hname]
      dsimp only
      rw [hargs]
      dsimp only
      rw [ExprStore.app, h.distinct.intern_eq hnode rfl]

/-- The same for several. -/
theorem internSources_of_spells (h : s.exprs.Sound) : ∀ (sources : List Source)
    {ids : List ExprId} {es : List Expr},
    List.Forall₂ (fun id e => s.exprs.expr? id = some e) ids es →
    List.Forall₂ (Source.Spells s.symbols) sources es → s.internSources sources = (ids, s)
  | [], _, _, hids, hes => by
    cases hes
    cases hids
    rfl
  | source :: sources, _, _, hids, hes => by
    cases hes with
    | cons hspells hes =>
      cases hids with
      | cons hid hids =>
        rw [internSources, internSource_of_spells h source hid hspells]
        dsimp only
        rw [internSources_of_spells h sources hids hes]

end

end Stores

end Polyglot
