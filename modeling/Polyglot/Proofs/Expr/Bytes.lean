import Mathlib
import Polyglot.Expr.Cursor

/-!
# Bytes and characters

A position in a text is a number of bytes, and what can be said about a text is said of its
characters. The two meet at the boundaries of characters: a list of characters is cut in two, and
the position is the size of the first part.

- `Text.isValid_of_toList`, `Text.slice?_eq`: a text can be cut at the boundaries of its characters,
  and what is cut out are the characters between them.
- `Text.prefixSize_eq`: a search for the end of a class of characters comes to a boundary.
- `Cursor.closingQuote_eq_some`: so does the search for the end of a string literal, whatever is
  escaped.
-/

namespace Polyglot

/-! ## Sizes -/

theorem utf8Size_append (cs cs' : List Char) :
    utf8Size (cs ++ cs') = utf8Size cs + utf8Size cs' := by
  unfold utf8Size
  rw [String.ofList_append, String.utf8ByteSize_append]

theorem utf8Size_cons (c : Char) (cs : List Char) :
    utf8Size (c :: cs) = c.utf8Size + utf8Size cs := by
  unfold utf8Size
  rw [String.ofList_cons, String.utf8ByteSize_append, String.utf8ByteSize_singleton]

theorem utf8ByteSize_eq (text : String) : text.utf8ByteSize = utf8Size text.toList := by
  unfold utf8Size
  rw [String.ofList_toList]

namespace Text

variable {text : String} {l m r : List Char}

/-! ## Boundaries -/

theorem isValid_of_toList (h : text.toList = l ++ r) :
    (⟨utf8Size l⟩ : String.Pos.Raw).IsValid text := by
  refine String.Pos.Raw.isValid_iff_exists_append.2 ⟨.ofList l, .ofList r, ?_, rfl⟩
  rw [← String.ofList_append, ← h, String.ofList_toList]

/-- What is cut out of a text. -/
theorem slice?_eq (h : text.toList = l ++ m ++ r) :
    slice? text ⟨utf8Size l⟩ ⟨utf8Size l + utf8Size m⟩ = some (String.ofList m) := by
  have hb : (⟨utf8Size l⟩ : String.Pos.Raw).IsValid text :=
    isValid_of_toList (h.trans (List.append_assoc l m r))
  have he : (⟨utf8Size l + utf8Size m⟩ : String.Pos.Raw).IsValid text := by
    rw [← utf8Size_append]
    exact isValid_of_toList h
  have hle : (⟨utf8Size l⟩ : String.Pos.Raw) ≤ ⟨utf8Size l + utf8Size m⟩ := Nat.le_add_right _ _
  rw [slice?, dif_pos ⟨hb, he, hle⟩]
  refine congrArg some (String.toByteArray_inj.1 ?_)
  obtain rfl : text = .ofList l ++ .ofList m ++ .ofList r := by
    rw [← String.ofList_append, ← String.ofList_append, ← h, String.ofList_toList]
  rw [String.toByteArray_extract]
  simp only [String.offset_pos, String.toByteArray_append, utf8Size, ← String.size_toByteArray]
  rw [ByteArray.append_assoc]
  have hcut := ByteArray.extract_append_size_add (a := (String.ofList l).toByteArray)
    (b := (String.ofList m).toByteArray ++ (String.ofList r).toByteArray) (i := 0)
    (j := (String.ofList m).toByteArray.size)
  rw [Nat.add_zero] at hcut
  rw [hcut, ByteArray.extract_append_eq_left rfl]

/-! ## Searches -/

theorem find?_indexed (p : Char → Bool) (offset : Nat) (cs : List Char) :
    (((indexed offset cs).find? (!p ·.2)).map Prod.fst).getD (offset + utf8Size cs) =
      offset + utf8Size (cs.takeWhile p) := by
  induction cs generalizing offset with
  | nil => rfl
  | cons c cs ih =>
    rw [indexed, List.find?_cons, List.takeWhile_cons]
    dsimp only
    cases hc : p c with
    | false => rfl
    | true =>
      have ih := ih (offset + c.utf8Size)
      rw [Nat.add_assoc, Nat.add_assoc] at ih
      rw [utf8Size_cons, if_pos rfl, utf8Size_cons]
      exact ih

/-- The characters of a class at the beginning of a text end at a boundary. -/
theorem prefixSize_eq (p : Char → Bool) (text : String) :
    prefixSize p text = utf8Size (text.toList.takeWhile p) := by
  have hfind := find?_indexed p 0 text.toList
  rw [Nat.zero_add, Nat.zero_add, ← utf8ByteSize_eq] at hfind
  exact hfind

end Text

namespace Cursor

/-! ## String literals -/

theorem closingQuote_eq_none (offset : Nat) {cs : List Char} (h : Source.stringBody cs = none) :
    closingQuote (Text.indexed offset cs) = none := by
  fun_induction Source.stringBody cs generalizing offset with
  | case1 => rfl
  | case2 rest => cases h
  | case3 => rfl
  | case4 c rest ih =>
    rw [Text.indexed, Text.indexed]
    unfold closingQuote
    dsimp only
    rw [if_neg (show ¬ '\\' = '"' by decide), if_pos rfl, ih _ (Option.map_eq_none_iff.1 h)]
    rfl
  | case5 c rest hquote hlast hescape ih =>
    have hplain : c ≠ '\\' := by
      rintro rfl
      cases rest with
      | nil => exact hlast rfl rfl
      | cons d rest => exact hescape d rest rfl rfl
    rw [Text.indexed]
    unfold closingQuote
    rw [if_neg hquote, if_neg hplain, ih _ (Option.map_eq_none_iff.1 h)]
    rfl

/-- The end of a string literal is a boundary, whatever is escaped in it. -/
theorem closingQuote_eq_some (offset : Nat) {cs value rest : List Char}
    (h : Source.stringBody cs = some (value, rest)) :
    ∃ taken, cs = taken ++ '"' :: rest ∧
      closingQuote (Text.indexed offset cs) = some (value, offset + utf8Size taken) := by
  fun_induction Source.stringBody cs generalizing offset value with
  | case1 => cases h
  | case2 =>
    cases h
    refine ⟨[], rfl, ?_⟩
    unfold Text.indexed closingQuote
    exact if_pos rfl
  | case3 => cases h
  | case4 c cs ih =>
    obtain ⟨⟨value', rest'⟩, hbody, heq⟩ := Option.map_eq_some_iff.1 h
    cases heq
    obtain ⟨taken, rfl, hclose⟩ := ih (offset + '\\'.utf8Size + c.utf8Size) hbody
    refine ⟨'\\' :: c :: taken, rfl, ?_⟩
    rw [Text.indexed, Text.indexed]
    unfold closingQuote
    dsimp only
    rw [if_neg (show ¬ '\\' = '"' by decide), if_pos rfl, hclose, utf8Size_cons, utf8Size_cons,
      Nat.add_assoc, Nat.add_assoc]
    rfl
  | case5 c cs hquote hlast hescape ih =>
    have hplain : c ≠ '\\' := by
      rintro rfl
      cases cs with
      | nil => exact hlast rfl rfl
      | cons d cs => exact hescape d cs rfl rfl
    obtain ⟨⟨value', rest'⟩, hbody, heq⟩ := Option.map_eq_some_iff.1 h
    cases heq
    obtain ⟨taken, rfl, hclose⟩ := ih (offset + c.utf8Size) hbody
    refine ⟨c :: taken, rfl, ?_⟩
    rw [Text.indexed]
    unfold closingQuote
    rw [if_neg hquote, if_neg hplain, hclose, utf8Size_cons, Nat.add_assoc]
    rfl

end Cursor

end Polyglot
