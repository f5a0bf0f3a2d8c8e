import Polyglot.Chart
import Polyglot.Proofs.Grammar.Acceptance

/-!
# Names that a grammar does not use

A name is looked up in two stages: first whether it was interned at all, and then whether its handle
means anything to the grammar. More names may be interned at any time, so the first stage may come
to another end later on. The second one then fails, for the names of all that a grammar consists of
were interned when it was made.

- `SymbolStore.Extends.bind_find?`: what a look-up in two stages comes to stays what it is.
- `Grammar.Named`: all that a grammar consists of has names; `Grammar.named_of_build`.
- `Grammar.Named.resolveConcrete?`, `Grammar.Named.goal`, `Grammar.Named.labelled?`: languages,
  categories and labels are found, or not, whatever else was interned.
-/

namespace Polyglot

/-! ## Look-ups in two stages -/

namespace SymbolStore

variable {base symbols : SymbolStore} {sym : Sym} {name : String}

/-- A handle that was known goes by the same name. -/
theorem Extends.resolve?_eq (h : base.Extends symbols) (hsym : base.Knows sym) :
    symbols.resolve? sym = base.resolve? sym := by
  obtain ⟨name, hname⟩ := hsym
  rw [hname, h sym name hname]

theorem Extends.name_eq (h : base.Extends symbols) (hsym : base.Knows sym) :
    symbols.name sym = base.name sym := by
  rw [SymbolStore.name, SymbolStore.name, h.resolve?_eq hsym]

/-- A name whose handle was known was found by it then. -/
theorem Extends.find?_of_knows (h : base.Extends symbols) (hsym : base.Knows sym)
    (hname : symbols.find? name = some sym) : base.find? name = some sym := by
  have hresolve := find?_eq_some_iff.1 hname
  rw [h.resolve?_eq hsym] at hresolve
  exact find?_eq_some_iff.2 hresolve

/-- **A look-up in two stages stays what it is** when more names are interned, as long as the second
stage means nothing but handles that were known before. -/
theorem Extends.bind_find? (h : base.Extends symbols) {α : Type} {meaning : Sym → Option α}
    (hmeaning : ∀ sym a, meaning sym = some a → base.Knows sym) (name : String) :
    (symbols.find? name).bind meaning = (base.find? name).bind meaning := by
  cases hbase : base.find? name with
  | some sym => rw [h.find? hbase]
  | none =>
    cases hfind : symbols.find? name with
    | none => rfl
    | some sym =>
      show meaning sym = none
      refine Option.eq_none_iff_forall_ne_some.2 fun a ha => ?_
      -- A handle with a meaning was known, and the name would have been found before.
      have := h.find?_of_knows (hmeaning sym a ha) hfind
      cases hbase.symm.trans this

end SymbolStore

/-! ## The names of a grammar -/

/-- All that a grammar consists of has names. -/
structure Grammar.Named (g : Grammar) (symbols : SymbolStore) : Prop where
  functions : ∀ f ∈ g.abs.funs, symbols.Knows f.name
  concretes : ∀ c ∈ g.concretes, symbols.Knows c.name
  cats : ∀ c ∈ g.concretes, ∀ k ∈ c.cats, symbols.Knows k.name
  funs : ∀ c ∈ g.concretes, ∀ f ∈ c.funs, symbols.Knows f.name
  words : ∀ c ∈ g.concretes, c.Known symbols

theorem SymbolStore.knows_of_find? {symbols : SymbolStore} {name : String} {sym : Sym}
    (h : symbols.find? name = some sym) : symbols.Knows sym :=
  ⟨name, SymbolStore.find?_eq_some_iff.1 h⟩

/-- A grammar that was built has names for all that it consists of. -/
theorem Grammar.named_of_build {w : WrittenGrammar} {g : Grammar} (h : w.build = .ok g) :
    g.Named w.draft.2.symbols := by
  have hfits := fun c hc => Concrete.fits_of_build (c := c) h hc
  have hwords := fun c hc => Concrete.known_of_build (c := c) h hc
  have hreads := w.reads_draft
  obtain ⟨-, -, -, rfl⟩ := Draft.finish_eq_ok_iff.1 h
  -- Probabilities change no name.
  have hfunctions : ∀ f ∈ w.draft.2.weighted.funs, w.draft.2.symbols.Knows f.name := by
    intro f hf
    obtain ⟨f', hf', rfl⟩ := List.mem_map.1 hf
    obtain ⟨name, args, cat, hspelled, -⟩ := hreads.functions.declared f' hf'
    exact SymbolStore.knows_of_find? hspelled.name
  refine ⟨hfunctions, fun c hc => ?_, fun c hc k hk => ?_, fun c hc f hf => ?_, hwords⟩
  · obtain ⟨name, -, -, hname, -⟩ := hreads.labelled c hc
    exact SymbolStore.knows_of_find? hname
  · obtain ⟨k', hk', heq⟩ := Draft.declares_weighted.1 ((hfits c hc).categories k hk)
    obtain ⟨name, hname, -⟩ := hreads.categories.declared k' hk'
    rw [← heq]
    exact SymbolStore.knows_of_find? hname
  · obtain ⟨decl, hdecl, -⟩ := (hfits c hc).functions f hf
    have hname : decl.name = f.name := by simpa using List.find?_some hdecl
    rw [← hname]
    exact hfunctions decl (List.mem_of_find?_eq_some hdecl)

/-! ## What is found by its name -/

namespace Grammar

variable {g : Grammar} {base symbols : SymbolStore} {c : Concrete}

theorem mem_of_resolveConcrete? {name : String} (h : g.resolveConcrete? symbols name = some c) :
    c ∈ g.concretes := by
  rcases Option.or_eq_some_iff.1 h with h | ⟨-, h⟩
  · obtain ⟨sym, -, hfind⟩ := Option.bind_eq_some_iff.1 h
    exact List.mem_of_find?_eq_some hfind
  · exact List.mem_of_find?_eq_some h

namespace Named

variable (hg : g.Named base) (h : base.Extends symbols)
include hg h

/-- A language is found by its name or code, or not, whatever else was interned. -/
theorem resolveConcrete? (name : String) :
    g.resolveConcrete? symbols name = g.resolveConcrete? base name := by
  have hconcrete : g.concrete? symbols name = g.concrete? base name := by
    refine h.bind_find? (fun sym c hc => ?_) name
    have hname : c.name = sym := by simpa using List.find?_some hc
    rw [← hname]
    exact hg.concretes c (List.mem_of_find?_eq_some hc)
  rw [Grammar.resolveConcrete?, Grammar.resolveConcrete?, hconcrete]

/-- So is a category. -/
theorem bind_category? (hc : c ∈ g.concretes) (cat : String) :
    (symbols.find? cat).bind c.category? = (base.find? cat).bind c.category? := by
  refine h.bind_find? (fun sym k hk => ?_) cat
  have hname : k.name = sym := by simpa using List.find?_some hk
  rw [← hname]
  exact hg.cats c hc k (List.mem_of_find?_eq_some hk)

theorem goal (hc : c ∈ g.concretes) (cat : String) (field : Nat) :
    Chart.goal symbols c cat field = Chart.goal base c cat field := by
  rw [Chart.goal, Chart.goal, hg.bind_category? h hc]

/-- So is a field by its label. -/
theorem labelled? (hc : c ∈ g.concretes) (cat label : String) :
    Chart.labelled? symbols c cat label = Chart.labelled? base c cat label := by
  have := congrArg (·.bind fun k => k.labels.findIdx? (· == label)) (hg.bind_category? h hc cat)
  simp only [Option.bind_assoc] at this
  exact this

end Named

end Grammar

end Polyglot
