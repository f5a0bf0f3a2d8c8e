import Mathlib
import Polyglot.Expr.Printer
import Polyglot.Expr.Reader

/-!
# Where the parts of a text end

An identifier, a number or a hole is read as far as it goes. So what is written is read back if what
follows cannot belong to it: white space, a closing parenthesis, a semicolon or nothing at all.

- `Source.outcome`: what was read and what is left, without the bound on its length.
- `Source.Apart`: a text that can go on nothing that comes before it.
- `Source.ident_append`, `Source.stringBody_escape`, `Source.outcome_readHole`: an identifier, the
  contents of a string and the number of a hole are read back.
-/

namespace Polyglot

namespace Text

/-- Two tables of characters have nothing in common if no range of one meets a range of the
other. -/
theorem Ranges.contains_eq_false_of_apart {a b : Ranges} {c : Char}
    (h : ∀ r ∈ a, ∀ r' ∈ b, r.2 < r'.1 ∨ r'.2 < r.1) (hc : a.contains c = true) :
    b.contains c = false := by
  obtain ⟨r, hr, hlow, hhigh⟩ := contains_iff.1 hc
  refine Bool.eq_false_iff.2 fun hb => ?_
  obtain ⟨r', hr', hlow', hhigh'⟩ := contains_iff.1 hb
  have := h r hr r' hr'
  omega

theorem isAlphabetic_of_isBlank {c : Char} (h : isBlank c = true) : isAlphabetic c = false :=
  Ranges.contains_eq_false_of_apart (by decide +kernel) h

theorem isNumeric_of_isBlank {c : Char} (h : isBlank c = true) : isNumeric c = false :=
  Ranges.contains_eq_false_of_apart (by decide +kernel) h

end Text

namespace Source

/-! ## Characters -/

/-- Characters that a class tells apart are different. -/
theorem ne_of_class {p : Char → Bool} {c d : Char} (hc : p c = true) (hd : p d = false) :
    c ≠ d := by
  rintro rfl
  rw [hc] at hd
  cases hd

theorem isIdentChar_of_isBlank {c : Char} (h : Text.isBlank c = true) : isIdentChar c = false := by
  simp [isIdentChar, Text.isAlphabetic_of_isBlank h, Text.isNumeric_of_isBlank h,
    ne_of_class h (by decide : Text.isBlank '_' = false),
    ne_of_class h (by decide : Text.isBlank '\'' = false)]

theorem isIdentChar_of_isIdentStart {c : Char} (h : isIdentStart c = true) :
    isIdentChar c = true := by
  rcases Bool.or_eq_true _ _ ▸ h with halphabetic | hlow
  · simp [isIdentChar, halphabetic]
  · simp [isIdentChar, hlow]

theorem toNat_of_isDigit {c : Char} (h : c.isDigit = true) : 0x30 ≤ c.toNat ∧ c.toNat ≤ 0x39 := by
  simp only [Char.isDigit, Bool.and_eq_true, decide_eq_true_eq] at h
  exact h

theorem isIdentChar_of_isDigit {c : Char} (h : c.isDigit = true) : isIdentChar c = true := by
  have hnumeric : Text.isNumeric c = true :=
    Text.Ranges.contains_iff.2 ⟨_, List.mem_cons_self, toNat_of_isDigit h⟩
  simp [isIdentChar, hnumeric]

theorem isIdentStart_of_isDigit {c : Char} (h : c.isDigit = true) : isIdentStart c = false := by
  have hrange : Text.Ranges.contains [(0x30, 0x39)] c = true :=
    Text.Ranges.contains_iff.2 ⟨_, List.mem_cons_self, toNat_of_isDigit h⟩
  have halphabetic : Text.isAlphabetic c = false :=
    Text.Ranges.contains_eq_false_of_apart (by decide +kernel) hrange
  have hne : c ≠ '_' := ne_of_class h (by decide)
  simp [isIdentStart, halphabetic, hne]

theorem isBlank_of_isIdentStart {c : Char} (h : isIdentStart c = true) :
    Text.isBlank c = false := by
  refine Bool.eq_false_iff.2 fun hblank => ?_
  rw [isIdentStart, Text.isAlphabetic_of_isBlank hblank, Bool.false_or, beq_iff_eq] at h
  exact ne_of_class hblank (by decide) h

/-! ## What follows -/

/-- What was read and what is left, if the reading succeeded. -/
def outcome {α : Type} {p : List Char → Prop}
    (r : Except Failure (α × { rest : List Char // p rest })) : Option (α × List Char) :=
  r.toOption.map fun x => (x.1, x.2.val)

section Outcome

variable {α : Type} {p : List Char → Prop}

@[simp] theorem outcome_ok (a : α) (rest : { rest : List Char // p rest }) :
    outcome (.ok (a, rest)) = some (a, rest.val) := rfl

@[simp] theorem outcome_error (f : Failure) :
    outcome (.error f : Except Failure (α × { rest : List Char // p rest })) = none := rfl

end Outcome

/-- Neither an identifier nor a number can go on with what this text begins with. -/
def Apart (rest : List Char) : Prop := ∀ c ∈ rest.head?, isIdentChar c = false ∧ c ≠ '.'

theorem apart_nil : Apart [] := nofun

theorem apart_cons_of_isBlank {c : Char} (h : Text.isBlank c = true) (rest : List Char) :
    Apart (c :: rest) := by
  rintro _ ⟨⟩
  exact ⟨isIdentChar_of_isBlank h, ne_of_class h (by decide)⟩

theorem apart_cons_close (rest : List Char) : Apart (')' :: rest) := by
  rintro _ ⟨⟩
  decide +kernel

theorem apart_cons_semicolon (rest : List Char) : Apart (';' :: rest) := by
  rintro _ ⟨⟩
  decide +kernel

theorem Apart.isDigit_eq_false {rest : List Char} (h : Apart rest) :
    ∀ c ∈ rest.head?, c.isDigit = false := by
  intro c hc
  refine Bool.eq_false_iff.2 fun hdigit => ?_
  have := (h c hc).1
  rw [isIdentChar_of_isDigit hdigit] at this
  cases this

/-- Characters of a class are read as far as they go. -/
theorem span_append {p : Char → Bool} {cs rest : List Char} (h : ∀ c ∈ cs, p c = true)
    (hrest : ∀ c ∈ rest.head?, p c = false) : span p (cs ++ rest) = (cs, rest) := by
  rw [span, List.takeWhile_append_of_pos h, List.dropWhile_append_of_pos h]
  cases rest with
  | nil => simp
  | cons c rest => simp [hrest c rfl]

/-! ## Identifiers, strings and holes -/

/-- Whether a name can be read: it begins and goes on as an identifier does. -/
def isIdentifier (name : String) : Bool :=
  match name.toList with
  | [] => false
  | c :: cs => isIdentStart c && cs.all isIdentChar

theorem isIdentifier_iff {name : String} : isIdentifier name = true ↔
    ∃ c cs, name.toList = c :: cs ∧ isIdentStart c = true ∧ ∀ x ∈ cs, isIdentChar x = true := by
  unfold isIdentifier
  cases name.toList with
  | nil => simp
  | cons c cs => simp

/-- An identifier is read back. -/
theorem ident_append {name : String} {c : Char} {cs rest : List Char}
    (hname : name.toList = c :: cs) (hcs : ∀ x ∈ cs, isIdentChar x = true) (hrest : Apart rest) :
    ident c (cs ++ rest) = (name, rest) := by
  rw [ident, span_append hcs fun x hx => (hrest x hx).1, ← hname, String.ofList_toList]

/-- The contents of a string are read back, whatever they are. -/
theorem stringBody_escape (value rest : List Char) :
    stringBody ((value.map escapeChar).flatten ++ '"' :: rest) = some (value, rest) := by
  induction value with
  | nil => rfl
  | cons c cs ih =>
    rw [List.map_cons, List.flatten_cons, List.append_assoc]
    by_cases hquote : c = '"'
    · subst hquote
      simp [escapeChar, stringBody, ih]
    by_cases hslash : c = '\\'
    · subst hslash
      simp [escapeChar, stringBody, ih]
    by_cases hline : c = '\n'
    · subst hline
      simp [escapeChar, stringBody, ih]
    · rw [escapeChar, if_neg hquote, if_neg hslash, if_neg hline, List.singleton_append,
        stringBody, ih]
      · rfl
      · exact hquote
      · exact fun h => absurd h hslash
      · exact fun _ _ h => absurd h hslash

theorem isDigit_of_mem_toDigits {n : Nat} {c : Char} (h : c ∈ Nat.toDigits 10 n) :
    c.isDigit = true :=
  Nat.isDigit_of_mem_toDigits (by decide) (by decide) h

/-- The number of a hole is read back. -/
theorem outcome_readHole {index : Nat} (hindex : index < 2 ^ 32) {rest : List Char}
    (hrest : Apart rest) :
    outcome (readHole ((toString index).toList ++ rest)) = some (.hole index, rest) := by
  have hspan : span Char.isDigit (Nat.toDigits 10 index ++ rest) = (Nat.toDigits 10 index, rest) :=
    span_append (fun _ => isDigit_of_mem_toDigits) hrest.isDigit_eq_false
  rw [Nat.toString_eq_ofList_toDigits, String.toList_ofList]
  simp only [readHole, hspan, Nat.ofDigitChars_ten_toDigits,
    Nat.pow_eq, if_pos hindex, outcome_ok]

end Source

end Polyglot
