import Polyglot.Proofs.Expr.Written

/-!
# What a whole text is read as

A text is read as an expression, with white space around it and possibly a semicolon at its end. So
the text of a source is read as the source, and whatever else is read is a source that has a text:
the names in it are identifiers, and the numbers are within range.

- `Source.ReadsAs.toOption_read`: what a text is read as, among white space.
- `Source.legible_of_read`: what is read is legible.
-/

namespace Polyglot

namespace Source

/-! ## Reading what was written -/

/-- White space. -/
def Blank (text : List Char) : Prop := ∀ c ∈ text, Text.isBlank c = true

section Blanks

variable {blanks text : List Char}

theorem Blank.skipBlanks_append (h : Blank blanks) (text : List Char) :
    Text.skipBlanks (blanks ++ text) = Text.skipBlanks text :=
  List.dropWhile_append_of_pos h

theorem Blank.skipBlanks_eq (h : Blank blanks) : Text.skipBlanks blanks = [] := by
  rw [← List.append_nil blanks, h.skipBlanks_append]
  rfl

/-- What may come after an expression. -/
inductive Tail : List Char → Prop where
  | blank {blanks : List Char} (h : Blank blanks) : Tail blanks
  | semicolon {blanks blanks' : List Char} (h : Blank blanks) (h' : Blank blanks') :
      Tail (blanks ++ ';' :: blanks')

theorem Blank.apart_append (h : Blank blanks) {rest : List Char} (hrest : Apart rest) :
    Apart (blanks ++ rest) := by
  cases blanks with
  | nil => exact hrest
  | cons c cs => exact apart_cons_of_isBlank (h c List.mem_cons_self) _

theorem Tail.closed (h : Tail text) : Closed text := by
  cases h with
  | blank h =>
    refine ⟨List.append_nil text ▸ h.apart_append apart_nil, ?_⟩
    rw [h.skipBlanks_eq]
    nofun
  | semicolon h h' =>
    refine ⟨h.apart_append (apart_cons_semicolon _), ?_⟩
    rw [h.skipBlanks_append, skipBlanks_cons (by decide) _]
    rintro _ ⟨⟩
    decide +kernel

theorem Tail.skipSemicolon (h : Tail text) : skipSemicolon (Text.skipBlanks text) = [] := by
  cases h with
  | blank h =>
    rw [h.skipBlanks_eq]
    rfl
  | semicolon h h' =>
    rw [h.skipBlanks_append, skipBlanks_cons (by decide) _, Source.skipSemicolon,
      skipBlanks_cons (by decide) _]
    exact h'.skipBlanks_eq

/-- A text is read if an expression is read from it and nothing else is left. -/
theorem toOption_read (text : List Char) :
    (read text).toOption = (outcome (readExpr text)).bind fun p =>
      if Source.skipSemicolon p.2 = [] then some p.1 else none := by
  rw [read]
  cases readExpr text with
  | error f => rfl
  | ok p =>
    obtain ⟨source, rest, hrest⟩ := p
    simp only [outcome_ok, Option.bind_some]
    split
    · rename_i hnil
      rw [if_pos hnil]
      rfl
    · rename_i hne
      rw [if_neg hne]
      rfl

/-- A text that is read as an expression is so among white space, too. -/
theorem ReadsAs.toOption_read {expr : List Char} {result : Option Source} (h : ReadsAs expr result)
    (hblanks : Blank blanks) (htail : Tail text) :
    (read (blanks ++ expr ++ text)).toOption = result := by
  have hskip : Text.skipBlanks (blanks ++ expr ++ text) = Text.skipBlanks (expr ++ text) := by
    rw [List.append_assoc, hblanks.skipBlanks_append]
  rw [Source.toOption_read, outcome_readExpr_congr hskip, h _ htail.closed]
  cases result with
  | none => rfl
  | some source => simp [htail.skipSemicolon]

end Blanks

/-! ## What is read has a text -/

section Legible

variable {text rest : List Char} {source : Source}

/-- What is left satisfies what was said of it. -/
theorem prop_of_outcome {α : Type} {p : List Char → Prop}
    {r : Except Failure (α × { rest : List Char // p rest })} {a : α}
    (h : outcome r = some (a, rest)) : p rest := by
  cases r with
  | error f => cases h
  | ok x =>
    obtain ⟨b, rest', hrest⟩ := x
    obtain ⟨-, rfl⟩ := Prod.mk.inj (Option.some.inj h)
    exact hrest

theorem isIdentifier_ident {c : Char} (h : isIdentStart c = true) (cs : List Char) :
    isIdentifier (ident c cs).1 = true :=
  isIdentifier_iff.2 ⟨c, _, String.toList_ofList, h, fun _ => List.mem_takeWhile_imp⟩

theorem inRange_of_literal {n : Numeral} {value : Literal} (h : n.literal text = .ok value) :
    value.InRange := by
  unfold Numeral.literal at h
  split at h
  · dsimp only at h
    split_ifs at h with hnegative hrange hrange
    · cases h
      exact hrange
    · cases h
      exact hrange
  · cases h
    trivial
  · split at h
    · cases h
    · cases h
      trivial

theorem legible_of_readNumber (h : outcome (readNumber text) = some (source, rest)) :
    source.Legible := by
  unfold readNumber at h
  split at h
  · cases h
  · dsimp only at h
    split at h
    · cases h
    · rename_i hvalue
      obtain ⟨rfl, -⟩ := Prod.mk.inj (Option.some.inj h)
      exact .lit (inRange_of_literal hvalue)

theorem legible_of_readHole (h : outcome (readHole text) = some (source, rest)) :
    source.Legible := by
  unfold readHole at h
  dsimp only at h
  split at h
  · rename_i hindex
    obtain ⟨rfl, -⟩ := Prod.mk.inj (Option.some.inj h)
    exact .hole hindex
  · cases h

/-- All that can be read from a text is legible: an expression, arguments, or an atom that this is
the rest of. -/
structure ReadsLegible (text : List Char) : Prop where
  expr : ∀ source rest, outcome (readExpr text) = some (source, rest) → source.Legible
  args : ∀ args rest, outcome (readArgs text) = some (args, rest) → ∀ arg ∈ args, arg.Legible
  atom : ∀ c source rest, outcome (readAtom c text) = some (source, rest) → source.Legible

theorem length_lt_of_skipBlanks {c : Char} {cs : List Char} (h : Text.skipBlanks text = c :: cs) :
    cs.length < text.length := by
  have := Text.length_skipBlanks_le text
  rwa [h] at this

theorem legible_of_readExpr (ih : ∀ cs : List Char, cs.length < text.length → ReadsLegible cs)
    (h : outcome (readExpr text) = some (source, rest)) : source.Legible := by
  cases hskip : Text.skipBlanks text with
  | nil => rw [outcome_readExpr_nil hskip] at h; cases h
  | cons c cs =>
    have hcs := length_lt_of_skipBlanks hskip
    by_cases hc : isIdentStart c = true
    · rw [outcome_readExpr_app hskip hc, Option.map_eq_some_iff] at h
      obtain ⟨p, hp, heq⟩ := h
      obtain ⟨rfl, -⟩ := Prod.mk.inj heq
      have hident := ih _ (Nat.lt_of_le_of_lt (length_ident_le c cs) hcs)
      exact .app (isIdentifier_ident hc cs) (hident.args _ _ hp)
    · rw [outcome_readExpr_atom hskip (Bool.eq_false_iff.2 hc), Option.bind_eq_some_iff] at h
      obtain ⟨p, hp, heq⟩ := h
      split at heq
      · cases heq
      · obtain ⟨rfl, -⟩ := Prod.mk.inj (Option.some.inj heq)
        exact (ih _ hcs).atom _ _ _ hp

theorem legible_of_readArgs (ih : ∀ cs : List Char, cs.length < text.length → ReadsLegible cs)
    {args : List Source} (h : outcome (readArgs text) = some (args, rest)) :
    ∀ arg ∈ args, arg.Legible := by
  by_cases hstop : ∀ c ∈ (Text.skipBlanks text).head?, isAtomStart c = false
  · rw [outcome_readArgs_stop hstop] at h
    obtain ⟨rfl, -⟩ := Prod.mk.inj (Option.some.inj h)
    nofun
  · push Not at hstop
    obtain ⟨c, hhead, hc⟩ := hstop
    obtain ⟨cs, hskip⟩ := List.head?_eq_some_iff.1 hhead
    have hcs := length_lt_of_skipBlanks hskip
    rw [outcome_readArgs_cons hskip (Bool.eq_true_of_not_eq_false hc),
      Option.bind_eq_some_iff] at h
    obtain ⟨p, hp, h⟩ := h
    obtain ⟨q, hq, heq⟩ := Option.map_eq_some_iff.1 h
    obtain ⟨rfl, -⟩ := Prod.mk.inj heq
    have hrest := ih _ (Nat.lt_of_le_of_lt (prop_of_outcome hp) hcs)
    intro arg harg
    rcases List.mem_cons.1 harg with rfl | harg
    · exact (ih _ hcs).atom _ _ _ hp
    · exact hrest.args _ _ hq _ harg

/-- An atom is legible if what is read inside of its parentheses is. -/
theorem legible_of_readAtom
    (hexpr : ∀ source rest, outcome (readExpr text) = some (source, rest) → source.Legible)
    {c : Char} (h : outcome (readAtom c text) = some (source, rest)) : source.Legible := by
  by_cases hopen : c = '('
  · subst hopen
    rw [outcome_readAtom_open, Option.bind_eq_some_iff] at h
    obtain ⟨p, hp, heq⟩ := h
    split at heq
    · obtain ⟨rfl, -⟩ := Prod.mk.inj (Option.some.inj heq)
      exact hexpr _ _ hp
    · cases heq
  by_cases hquote : c = '"'
  · subst hquote
    obtain ⟨value, rest', hbody⟩ := exists_stringBody_of_readAtom h
    rw [outcome_readAtom_string hbody] at h
    obtain ⟨rfl, -⟩ := Prod.mk.inj (Option.some.inj h)
    exact .lit trivial
  by_cases hmark : c = '?'
  · subst hmark
    rw [outcome_readAtom_hole] at h
    exact legible_of_readHole h
  by_cases hnumber : c = '-' ∨ c.isDigit = true
  · rw [outcome_readAtom_number hnumber] at h
    exact legible_of_readNumber h
  by_cases hident : isIdentStart c = true
  · rw [outcome_readAtom_ident hident] at h
    obtain ⟨rfl, -⟩ := Prod.mk.inj (Option.some.inj h)
    exact .app (isIdentifier_ident hident text) nofun
  · rw [readAtom, if_neg hopen, if_neg hquote, if_neg hmark, if_neg (by simpa using hnumber),
      if_neg hident] at h
    cases h

/-- On the length of the text: an atom in parentheses leaves as much to read as there was. -/
theorem readsLegible (text : List Char) : ReadsLegible text := by
  induction hn : text.length using Nat.strongRecOn generalizing text with
  | ind n ih =>
    have hless : ∀ cs : List Char, cs.length < text.length → ReadsLegible cs :=
      fun cs hcs => ih cs.length (hn ▸ hcs) cs rfl
    have hexpr : ∀ source rest, outcome (readExpr text) = some (source, rest) → source.Legible :=
      fun _ _ => legible_of_readExpr hless
    exact ⟨hexpr, fun _ _ => legible_of_readArgs hless, fun _ _ _ => legible_of_readAtom hexpr⟩

/-- What is read is legible: its text can be read in turn. -/
theorem legible_of_read (h : read text = .ok source) : source.Legible := by
  have hsome : (read text).toOption = some source := by
    rw [h]
    rfl
  rw [toOption_read, Option.bind_eq_some_iff] at hsome
  obtain ⟨p, hp, heq⟩ := hsome
  split at heq
  · cases heq
    exact (readsLegible text).expr _ _ hp
  · cases heq

end Legible

end Source

end Polyglot
