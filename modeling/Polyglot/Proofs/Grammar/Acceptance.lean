import Polyglot.Proofs.Grammar.Declared
import Polyglot.Proofs.Grammar.Fitting

/-!
# Which grammars are accepted

A grammar is accepted exactly if it is well-formed: productions were only added to instances that
were there, abstract functions use declared categories, concrete syntaxes have different names, and
each of them fits together. The order of the checks and the probabilities play no part in that.

- `WrittenGrammar.WellFormed`: what a grammar has to be like.
- `WrittenGrammar.accepted_iff`: the grammars that are like that are accepted, and no others.
-/

namespace Polyglot

/-! ## Probabilities change nothing -/

section Weighted

variable {d : Draft} {c : Concrete}

theorem Draft.declares_weighted {cat : Sym} : d.weighted.Declares cat ↔ d.abs.Declares cat := by
  simp [weighted, Abstract.Declares]

/-- A function is declared with as many arguments, whatever its probability is. -/
theorem Draft.exists_function?_weighted {name : Sym} {P : Nat → Prop} :
    (∃ decl, d.weighted.function? name = some decl ∧ P decl.arity) ↔
      ∃ decl, d.abs.function? name = some decl ∧ P decl.arity := by
  have hfunction : d.weighted.function? name = (d.abs.function? name).map fun f =>
      { f with prob := probability d.probabilities d.abs.funs f } := by
    simp only [weighted, Abstract.function?, List.find?_map]
    rfl
  rw [hfunction]
  cases d.abs.function? name with
  | none => simp
  | some f => simp [AbstractFunction.arity]

theorem Concrete.serves_weighted {f : ConcreteFunction} :
    c.Serves d.weighted f ↔ c.Serves d.abs f :=
  Draft.exists_function?_weighted (P := fun arity => ∀ seq ∈ f.fields, ∃ s,
    c.sequence? seq = some s ∧ ∀ x ∈ s, ∀ arg, x.arg? = some arg → arg < arity)

theorem Production.fits_weighted {n : Nat} {p : Production} :
    p.Fits c d.weighted n ↔ p.Fits c d.abs n := by
  cases p with
  | coerce target => exact Iff.rfl
  | apply fn args =>
    refine exists_congr fun f => and_congr_right fun _ => and_congr_right fun _ =>
      and_congr_left fun _ => ?_
    exact Draft.exists_function?_weighted (P := fun arity => args.length = arity)

theorem Concrete.fits_weighted : c.Fits d.weighted ↔ c.Fits d.abs := by
  constructor
  · rintro ⟨hcats, hfuns, hproductions⟩
    exact ⟨fun k hk => Draft.declares_weighted.1 (hcats k hk),
      fun f hf => serves_weighted.1 (hfuns f hf),
      fun inst hinst p hp => Production.fits_weighted.1 (hproductions inst hinst p hp)⟩
  · rintro ⟨hcats, hfuns, hproductions⟩
    exact ⟨fun k hk => Draft.declares_weighted.2 (hcats k hk),
      fun f hf => serves_weighted.2 (hfuns f hf),
      fun inst hinst p hp => Production.fits_weighted.2 (hproductions inst hinst p hp)⟩

end Weighted

/-! ## What a draft says about its declarations -/

namespace Draft

variable {ds : List Declaration} {d : Draft}

theorem ReadsCategories.declares_iff (h : ReadsCategories ds d.symbols d.abs.cats) {name : String}
    {sym : Sym} (hname : d.symbols.find? name = some sym) :
    d.abs.Declares sym ↔ DeclaresCategory ds name := by
  constructor
  · rintro ⟨k, hk, rfl⟩
    obtain ⟨name', hfind, hdeclared⟩ := h.declared k hk
    rwa [SymbolStore.eq_of_find? hname hfind]
  · intro hdeclared
    obtain ⟨k, hk, hfind⟩ := h.taken name hdeclared
    exact ⟨k, hk, Option.some.inj (hfind.symm.trans hname)⟩

/-- The functions of a draft use declared categories only if the declarations do. -/
theorem Reads.declared_iff (h : Reads ds d) :
    (∀ f ∈ d.abs.funs, ∀ cat ∈ f.args ++ [f.cat], d.abs.Declares cat) ↔
      ∀ name args cat, DeclaresFunction ds name args cat →
        ∀ used ∈ args ++ [cat], DeclaresCategory ds used := by
  -- The names of a declaration and the handles of its function are found for one another.
  have hboth : ∀ {f : AbstractFunction} {name args cat}, f.Spelled d.symbols name args cat →
      d.symbols.Finds (args ++ [cat]) (f.args ++ [f.cat]) := by
    intro f name args cat hspelled
    rw [SymbolStore.Finds, List.map_append, List.map_append, hspelled.args]
    exact congrArg (f.args.map some ++ [·]) hspelled.cat
  constructor
  · intro hall name args cat hdeclared used hused
    obtain ⟨f, hf, hspelled⟩ := h.functions.taken name args cat hdeclared
    obtain ⟨sym, hsym, hfind⟩ := (hboth hspelled).exists_mem hused
    exact (h.categories.declares_iff hfind).1 (hall f hf sym hsym)
  · intro hall f hf sym hsym
    obtain ⟨name, args, cat, hspelled, hdeclared⟩ := h.functions.declared f hf
    obtain ⟨used, hused, hfind⟩ := (hboth hspelled).exists_find? hsym
    exact (h.categories.declares_iff hfind).2 (hall name args cat hdeclared used hused)

end Draft

/-! ## Well-formed grammars -/

namespace WrittenGrammar

/-- The declarations of a grammar go together. -/
structure WellFormed (w : WrittenGrammar) : Prop where
  /-- Productions are added only to instances that the same concrete syntax made before. -/
  inOrder : ∀ name cs, .concrete name cs ∈ w.declarations → InOrder 0 cs
  /-- The arguments and the result of every abstract function are of declared categories. -/
  declared : ∀ name args cat, DeclaresFunction w.declarations name args cat →
    ∀ used ∈ args ++ [cat], DeclaresCategory w.declarations used
  /-- Concrete syntaxes have different names. -/
  distinct : (concreteNames w.declarations).Nodup
  /-- What was declared of each concrete syntax fits together. -/
  fits : ∀ c ∈ w.draft.2.concretes, c.Fits w.draft.2.abs

/-- The checks accept exactly the well-formed grammars. -/
theorem accepted_iff (w : WrittenGrammar) : (∃ g, w.build = .ok g) ↔ w.WellFormed := by
  have hreads := w.reads_draft
  have hchecks : (∃ g, w.build = .ok g) ↔ w.draft.2.error = none ∧
      w.draft.2.abs.check w.draft.2.symbols = .ok () ∧
      Draft.checkConcretes w.draft.2.symbols w.draft.2.weighted [] w.draft.2.concretes =
        .ok () := by
    simp only [build, Draft.finish_eq_ok_iff, exists_and_left, exists_eq, and_true]
  have hnone : (([] : List Concrete).map (·.name)).Nodup := List.nodup_nil
  rw [hchecks, Abstract.check_eq_ok_iff, hreads.declared_iff, hreads.error,
    Draft.checkConcretes_eq_ok_iff hnone, List.nil_append]
  simp only [Concrete.fits_weighted]
  constructor
  · rintro ⟨horder, hdeclared, hnames, hfits⟩
    have hnone := hreads.error.2 horder
    exact ⟨horder, hdeclared, (hreads.concretes hnone).nodup_iff.2 hnames, hfits⟩
  · rintro ⟨horder, hdeclared, hdistinct, hfits⟩
    have hnone := hreads.error.2 horder
    exact ⟨horder, hdeclared, (hreads.concretes hnone).nodup_iff.1 hdistinct, hfits⟩

end WrittenGrammar

end Polyglot
