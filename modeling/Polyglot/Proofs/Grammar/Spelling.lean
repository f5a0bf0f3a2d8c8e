import Polyglot.Proofs.Grammar.Words

/-!
# Sequences as they were written

A sequence is kept with handles for its words. Handles and words determine each other, so what was
written can be told from what is kept, and sequences that are kept once were written alike.

- `Constituent.Spelled`, `Sequence.Spelled`: a constituent, or a sequence, is one that was written
  so.
- `Sequence.Spelled.left_unique`, `Sequence.Spelled.right_unique`: what was written and what is
  kept determine each other.
- `ConcreteDraft.spelled_internSequence`: interning the words of a sequence gives one that was
  written so.
-/

namespace Polyglot

variable {symbols symbols' : SymbolStore}

/-! ## Constituents -/

/-- An alternative has the words and the triggers that were written. -/
structure Alternative.Spelled (symbols : SymbolStore) (written : List String × List String)
    (a : Alternative) : Prop where
  words : symbols.Finds written.1 a.tokens
  triggers : a.triggers = written.2

/-- A constituent is one that was written so: the same, with handles for the words. -/
inductive Constituent.Spelled (symbols : SymbolStore) : WrittenConstituent → Constituent → Prop
  | sub (arg field : Nat) : Spelled symbols (.sub arg field) (.sub arg field)
  | lit (arg field : Nat) : Spelled symbols (.lit arg field) (.lit arg field)
  | var (arg index : Nat) : Spelled symbols (.var arg index) (.var arg index)
  | tokens {words : List String} {ws : List Sym} (h : symbols.Finds words ws) :
      Spelled symbols (.tokens words) (.tokens ws)
  | variants {base : List String} {ws : List Sym} (h : symbols.Finds base ws)
      {written : List (List String × List String)} {alternatives : List Alternative}
      (halternatives : List.Forall₂ (Alternative.Spelled symbols) written alternatives) :
      Spelled symbols (.variants base written) (.variants ⟨ws, alternatives⟩)

/-- A sequence is one that was written so. -/
def Sequence.Spelled (symbols : SymbolStore) (written : List WrittenConstituent) (s : Sequence) :
    Prop :=
  List.Forall₂ (Constituent.Spelled symbols) written s

/-! ## More names -/

theorem Alternative.Spelled.mono (h : symbols.Extends symbols')
    {written : List String × List String} {a : Alternative} (ha : a.Spelled symbols written) :
    a.Spelled symbols' written :=
  ⟨h.finds ha.words, ha.triggers⟩

theorem Constituent.Spelled.mono (h : symbols.Extends symbols') {written : WrittenConstituent}
    {x : Constituent} (hx : x.Spelled symbols written) : x.Spelled symbols' written := by
  cases hx with
  | sub arg field => exact .sub arg field
  | lit arg field => exact .lit arg field
  | var arg index => exact .var arg index
  | tokens hwords => exact .tokens (h.finds hwords)
  | variants hbase halternatives =>
    exact .variants (h.finds hbase) (halternatives.imp fun _ _ ha => ha.mono h)

theorem Sequence.Spelled.mono (h : symbols.Extends symbols') {written : List WrittenConstituent}
    {s : Sequence} (hs : Sequence.Spelled symbols written s) :
    Sequence.Spelled symbols' written s :=
  List.Forall₂.imp (fun _ _ hx => hx.mono h) hs

/-! ## What is kept and what was written -/

theorem Alternative.Spelled.left_unique {written written' : List String × List String}
    {a : Alternative} (h : a.Spelled symbols written) (h' : a.Spelled symbols written') :
    written = written' := by
  have hwords : written.1 = written'.1 := h.words.eq_names.symm.trans h'.words.eq_names
  exact Prod.ext hwords (h.triggers.symm.trans h'.triggers)

theorem Alternative.Spelled.right_unique {written : List String × List String}
    {a a' : Alternative} (h : a.Spelled symbols written) (h' : a'.Spelled symbols written) :
    a = a' := by
  cases a
  cases a'
  have htokens := h.words.unique h'.words
  have htriggers := h.triggers.trans h'.triggers.symm
  subst htokens htriggers
  rfl

/-- Two constituents that are kept alike were written alike. -/
theorem Constituent.Spelled.left_unique {written written' : WrittenConstituent}
    {x : Constituent} (h : x.Spelled symbols written) (h' : x.Spelled symbols written') :
    written = written' := by
  cases h with
  | sub arg field => cases h'; rfl
  | lit arg field => cases h'; rfl
  | var arg index => cases h'; rfl
  | tokens hwords =>
    cases h' with
    | tokens hwords' => rw [← hwords.eq_names, ← hwords'.eq_names]
  | variants hbase halternatives =>
    cases h' with
    | variants hbase' halternatives' =>
      have hwritten := List.left_unique_forall₂' (fun _ _ _ ha ha' => ha.left_unique ha')
        halternatives halternatives'
      rw [← hbase.eq_names, ← hbase'.eq_names, hwritten]

/-- Two constituents that were written alike are kept alike. -/
theorem Constituent.Spelled.right_unique {written : WrittenConstituent} {x x' : Constituent}
    (h : x.Spelled symbols written) (h' : x'.Spelled symbols written) : x = x' := by
  cases h with
  | sub arg field => cases h'; rfl
  | lit arg field => cases h'; rfl
  | var arg index => cases h'; rfl
  | tokens hwords =>
    cases h' with
    | tokens hwords' => rw [hwords.unique hwords']
  | variants hbase halternatives =>
    cases h' with
    | variants hbase' halternatives' =>
      have hkept := List.right_unique_forall₂' (fun _ _ _ ha ha' => ha.right_unique ha')
        halternatives halternatives'
      rw [hbase.unique hbase', hkept]

theorem Sequence.Spelled.left_unique {written written' : List WrittenConstituent} {s : Sequence}
    (h : Sequence.Spelled symbols written s) (h' : Sequence.Spelled symbols written' s) :
    written = written' :=
  List.left_unique_forall₂' (fun _ _ _ hx hx' => hx.left_unique hx') h h'

theorem Sequence.Spelled.right_unique {written : List WrittenConstituent} {s s' : Sequence}
    (h : Sequence.Spelled symbols written s) (h' : Sequence.Spelled symbols written s') : s = s' :=
  List.right_unique_forall₂' (fun _ _ _ hx hx' => hx.right_unique hx') h h'

/-! ## Interning -/

namespace ConcreteDraft

theorem spelled_internAlternatives (symbols : SymbolStore)
    (written : List (List String × List String)) :
    List.Forall₂ (Alternative.Spelled (internConstituent.internAlternatives symbols written).2)
      written (internConstituent.internAlternatives symbols written).1 := by
  induction written generalizing symbols with
  | nil => exact .nil
  | cons first rest ih =>
    obtain ⟨words, triggers⟩ := first
    have hextends := (internAlternatives_spec (symbols.internAll words).2 rest).1
    exact .cons ⟨hextends.finds (symbols.finds_internAll words), rfl⟩ (ih _)

theorem spelled_internConstituent (symbols : SymbolStore) (written : WrittenConstituent) :
    (internConstituent symbols written).1.Spelled (internConstituent symbols written).2
      written := by
  cases written with
  | sub arg field => exact .sub arg field
  | lit arg field => exact .lit arg field
  | var arg index => exact .var arg index
  | tokens words => exact .tokens (symbols.finds_internAll words)
  | variants base alternatives =>
    have hextends := (internAlternatives_spec (symbols.internAll base).2 alternatives).1
    exact .variants (hextends.finds (symbols.finds_internAll base))
      (spelled_internAlternatives _ alternatives)

/-- Interning the words of a sequence gives one that was written so. -/
theorem spelled_internSequence (symbols : SymbolStore) (written : List WrittenConstituent) :
    Sequence.Spelled (internSequence symbols written).2 written
      (internSequence symbols written).1 := by
  induction written generalizing symbols with
  | nil => exact .nil
  | cons x xs ih =>
    have hextends := (internSequence_spec (internConstituent symbols x).2 xs).1
    exact .cons ((spelled_internConstituent symbols x).mono hextends) (ih _)

/-- The same for several sequences. -/
theorem spelled_internSequences (symbols : SymbolStore) (written : List (List WrittenConstituent)) :
    List.Forall₂ (Sequence.Spelled (internSequences symbols written).2) written
      (internSequences symbols written).1 := by
  induction written generalizing symbols with
  | nil => exact .nil
  | cons s ss ih =>
    have hextends := (internSequences_spec (internSequence symbols s).2 ss).1
    exact .cons ((spelled_internSequence symbols s).mono hextends) (ih _)

end ConcreteDraft

end Polyglot
