import Polyglot.Proofs.Expr.Bytes
import Polyglot.Proofs.Expr.Reading

/-!
# Moving over a text

The reader in place moves a position over the bytes of a text in many ways: by one, by the size of
what it skipped, to what a search found, back to where it was. None of these ever leads into a
character or beyond the end, whatever the text, because each of them is a step from one list of
characters that are left of the text to another.

- `Cursor.At`: where a reader is, as the characters that are left.
- `Cursor.Meets`: what comes of a reading, from wherever these characters are left. Each step meets
  what the reader of characters does, and parts of a reading are put together by `Meets.bind`.
- `Cursor.meets_ident`, `Cursor.meets_number`, `Cursor.meets_string`: names and literals.
-/

namespace Polyglot

namespace Cursor

open Source (Failure isIdentStart isIdentChar)

variable {α β : Type} {text : String} {rest rest' : List Char} {s s' : Stores}

/-! ## Where a reader is -/

/-- The position at which `rest` is left of a text. -/
def before (text : String) (rest : List Char) : String.Pos.Raw :=
  ⟨utf8Size text.toList - utf8Size rest⟩

theorem before_eq {taken : List Char} (h : text.toList = taken ++ rest) :
    before text rest = ⟨utf8Size taken⟩ := by
  unfold before
  rw [h, utf8Size_append, Nat.add_sub_cancel]

theorem before_nil (text : String) : before text [] = text.rawEndPos := by
  rw [before_eq (List.append_nil _).symm, ← utf8ByteSize_eq]
  rfl

theorem before_self (text : String) : before text text.toList = 0 := by
  have hall : text.toList = [] ++ text.toList := rfl
  exact before_eq hall

theorem isValid_before (h : rest <:+ text.toList) : (before text rest).IsValid text := by
  obtain ⟨taken, h⟩ := h
  rw [before_eq h.symm]
  exact Text.isValid_of_toList h.symm

/-- A reader has `rest` left of a text and has stored `s`; it has never been within a character. -/
structure At (text : String) (rest : List Char) (s : Stores) (c : Cursor) : Prop where
  suffix : rest <:+ text.toList
  pos : c.pos = before text rest
  stores : c.stores = s
  trail : ∀ p ∈ c.trail, p.IsValid text

theorem At.visited {c : Cursor} (h : At text rest s c) : ∀ p ∈ c.visited, p.IsValid text := by
  intro p hp
  rcases List.mem_cons.1 hp with rfl | hp
  · rw [h.pos]
    exact isValid_before h.suffix
  · exact h.trail p hp

theorem At.moveTo {c : Cursor} (h : At text rest s c) (hsuffix : rest' <:+ text.toList) :
    At text rest' s (c.moveTo (before text rest')) :=
  ⟨hsuffix, rfl, h.stores, h.visited⟩

/-! ## What comes of a reading -/

/-- What a reading of characters comes to: an error or a value, with what is left of the text and
what has been stored. -/
abbrev Outcome (α : Type) := Except (ReadError × List Char × Stores) (α × List Char × Stores)

/-- A reader in place comes to an outcome. -/
inductive Comes (text : String) : Except Stop α × Cursor → Outcome α → Prop where
  | ok {a : α} {rest : List Char} {s : Stores} {c : Cursor} (h : At text rest s c) :
      Comes text (.ok a, c) (.ok (a, rest, s))
  | error {e : ReadError} {rest : List Char} {s : Stores} {c : Cursor}
      (hsuffix : rest <:+ text.toList) (hstores : c.stores = s)
      (hvisited : ∀ p ∈ c.visited, p.IsValid text) :
      Comes text (.error (.failure ⟨(before text rest).byteIdx, e⟩), c) (.error (e, rest, s))

/-- From wherever `rest` is left and `s` is stored, a reading comes to an outcome. -/
def Meets (text : String) (x : Reading α) (rest : List Char) (s : Stores) (r : Outcome α) : Prop :=
  ∀ c, At text rest s c → Comes text (c.run x) r

theorem run_bind (c : Cursor) (x : Reading α) (f : α → Reading β) :
    c.run (x >>= f) = match c.run x with
      | (.ok a, c) => c.run (f a)
      | (.error e, c) => (.error e, c) := by
  show (StateT.run (ExceptT.run (x >>= f)) c : Except Stop β × Cursor) = _
  rw [ExceptT.run_bind, StateT.run_bind]
  unfold run
  rcases StateT.run (ExceptT.run x) c with ⟨e | a, c'⟩
  · rfl
  · rfl

namespace Meets

variable {x : Reading α} {f : α → Reading β}

theorem pure (a : α) : Meets text (pure a) rest s (.ok (a, rest, s)) := fun _ h => .ok h

theorem bind {a : α} {r : Outcome β} (hx : Meets text x rest s (.ok (a, rest', s')))
    (hf : Meets text (f a) rest' s' r) : Meets text (x >>= f) rest s r := by
  intro c hc
  have hcomes := hx c hc
  rw [run_bind]
  generalize c.run x = out at hcomes ⊢
  cases hcomes with
  | ok h => exact hf _ h

/-- A reading that fails ends what it is a part of. -/
theorem bind_error {e : ReadError × List Char × Stores} (hx : Meets text x rest s (.error e)) :
    Meets text (x >>= f) rest s (.error e) := by
  intro c hc
  have hcomes := hx c hc
  rw [run_bind]
  generalize c.run x = out at hcomes ⊢
  cases hcomes with
  | error hsuffix hstores hvisited => exact .error hsuffix hstores hvisited

/-- What is left is left of the text. -/
theorem of_suffix {r : Outcome α} (h : rest <:+ text.toList → Meets text x rest s r) :
    Meets text x rest s r :=
  fun c hc => h hc.suffix c hc

end Meets

/-! ## Moving and looking -/

theorem meets_here : Meets text here rest s (.ok (before text rest, rest, s)) := by
  intro c hc
  rw [← hc.pos]
  exact .ok hc

theorem meets_goTo (h : rest' <:+ text.toList) :
    Meets text (goTo (before text rest')) rest s (.ok ((), rest', s)) :=
  fun _ hc => .ok (hc.moveTo h)

theorem meets_advance {taken : List Char} (h : taken ++ rest' = rest) :
    Meets text (advance (utf8Size taken)) rest s (.ok ((), rest', s)) := by
  subst h
  intro c hc
  have hsuffix : rest' <:+ text.toList := (List.suffix_append taken rest').trans hc.suffix
  have hpos : (⟨c.pos.byteIdx + utf8Size taken⟩ : String.Pos.Raw) = before text rest' := by
    obtain ⟨l, hl⟩ := hc.suffix
    rw [hc.pos, before_eq hl.symm, before_eq (hl.symm.trans (List.append_assoc l taken rest').symm),
      utf8Size_append]
  show Comes text (.ok (), c.moveTo ⟨c.pos.byteIdx + utf8Size taken⟩) _
  rw [hpos]
  exact .ok (hc.moveTo hsuffix)

/-- A character of ASCII is a byte. -/
theorem meets_advance_one {c : Char} (h : c.utf8Size = 1) :
    Meets text (advance 1) (c :: rest) s (.ok ((), rest, s)) := by
  have hadvance : Meets text (advance (utf8Size [c])) (c :: rest) s (.ok ((), rest, s)) :=
    meets_advance rfl
  rwa [utf8Size_cons, h] at hadvance

theorem meets_failAt {e : ReadError} (h : rest' <:+ text.toList) :
    Meets text (failAt (before text rest') e : Reading α) rest s (.error (e, rest', s)) :=
  fun _ hc => .error h hc.stores hc.visited

theorem meets_fail {e : ReadError} :
    Meets text (fail e : Reading α) rest s (.error (e, rest, s)) :=
  .of_suffix fun hsuffix => meets_here.bind (meets_failAt hsuffix)

theorem meets_intern (name : String) : Meets text (intern name) rest s
    (.ok ((s.symbols.intern name).1, rest, { s with symbols := (s.symbols.intern name).2 })) := by
  intro c hc
  obtain rfl := hc.stores
  exact .ok ⟨hc.suffix, hc.pos, rfl, hc.trail⟩

theorem meets_store (add : ExprStore → ExprId × ExprStore) : Meets text (store add) rest s
    (.ok ((add s.exprs).1, rest, { s with exprs := (add s.exprs).2 })) := by
  intro c hc
  obtain rfl := hc.stores
  exact .ok ⟨hc.suffix, hc.pos, rfl, hc.trail⟩

theorem meets_slice_of {t piece : String} {b e : String.Pos.Raw}
    (h : Text.slice? t b e = some piece) :
    Meets text (slice t b e) rest s (.ok (piece, rest, s)) := by
  intro c hc
  unfold slice
  rw [h]
  exact .ok hc

/-- A text can be cut wherever a reader has been. -/
theorem meets_slice {taken after left : List Char} (h : taken ++ after = left)
    (hsuffix : left <:+ text.toList) :
    Meets text (slice text (before text left) (before text after)) rest s
      (.ok (String.ofList taken, rest, s)) := by
  subst h
  obtain ⟨l, hl⟩ := hsuffix
  have hsplit : text.toList = l ++ taken ++ after :=
    hl.symm.trans (List.append_assoc l taken after).symm
  have hcut := Text.slice?_eq hsplit
  rw [← utf8Size_append, ← before_eq hsplit, ← before_eq hl.symm] at hcut
  exact meets_slice_of hcut

theorem meets_rest : Meets text (Cursor.rest text) rest s (.ok (String.ofList rest, rest, s)) := by
  refine .of_suffix fun hsuffix => meets_here.bind ?_
  rw [← before_nil]
  exact meets_slice (List.append_nil rest) hsuffix

theorem meets_peek : Meets text (peek text) rest s (.ok (rest.head?, rest, s)) := by
  refine meets_rest.bind ?_
  rw [String.toList_ofList]
  exact .pure rest.head?

theorem meets_skipBlanks (h : Text.skipBlanks rest = rest') :
    Meets text (skipBlanks text) rest s (.ok ((), rest', s)) := by
  subst h
  refine meets_rest.bind ?_
  have hsplit : rest.takeWhile Text.isBlank ++ Text.skipBlanks rest = rest :=
    List.takeWhile_append_dropWhile
  have hsize : (String.ofList rest).utf8ByteSize -
      utf8Size (Text.skipBlanks (String.ofList rest).toList) =
        utf8Size (rest.takeWhile Text.isBlank) := by
    rw [String.toList_ofList, utf8ByteSize_eq, String.toList_ofList]
    conv_lhs => rw [← hsplit]
    rw [utf8Size_append, hsplit, Nat.add_sub_cancel]
  rw [hsize]
  exact meets_advance hsplit

theorem meets_takeWhile (p : Char → Bool) : Meets text (takeWhile text p) rest s
    (.ok (String.ofList (Source.span p rest).1, (Source.span p rest).2, s)) := by
  have hsplit : rest.takeWhile p ++ rest.dropWhile p = rest := List.takeWhile_append_dropWhile
  have hsize : Text.prefixSize p (String.ofList rest) = utf8Size (rest.takeWhile p) := by
    rw [Text.prefixSize_eq, String.toList_ofList]
  refine meets_rest.bind ?_
  rw [hsize]
  refine (meets_advance hsplit).bind (meets_slice_of ?_)
  have hcut : Text.slice? (String.ofList rest) ⟨utf8Size []⟩
      ⟨utf8Size [] + utf8Size (rest.takeWhile p)⟩ = some (.ofList (rest.takeWhile p)) :=
    Text.slice?_eq (String.toList_ofList.trans hsplit.symm)
  rwa [show utf8Size [] = 0 from rfl, Nat.zero_add] at hcut

theorem meets_skip {c : Char} (h : c.utf8Size = 1) :
    Meets text (skip text c) (c :: rest) s (.ok (true, rest, s)) := by
  refine meets_peek.bind ?_
  rw [if_pos (show (c :: rest).head? = some c from rfl)]
  exact (meets_advance_one h).bind (.pure true)

theorem meets_skip_ne {c : Char} (h : ∀ rest', rest ≠ c :: rest') :
    Meets text (skip text c) rest s (.ok (false, rest, s)) := by
  have hhead : rest.head? ≠ some c := fun hhead =>
    (List.head?_eq_some_iff.1 hhead).elim h
  refine meets_peek.bind ?_
  rw [if_neg hhead]
  exact .pure false

/-! ## Names, holes and literals -/

/-- What becomes of a reading of characters when its value is stored. -/
def Outcome.of {P : List Char → Prop} (keep : Stores → α → β × Stores) (s : Stores) :
    Except Failure (α × { rest : List Char // P rest }) → Outcome β
  | .ok (a, ⟨rest, _⟩) => .ok ((keep s a).1, rest, (keep s a).2)
  | .error f => .error (f.error, f.rest, f.fragments.foldl Stores.internFragment s)

theorem span_cons {p : Char → Bool} {c : Char} (h : p c = true) (cs : List Char) :
    Source.span p (c :: cs) = (c :: (Source.span p cs).1, (Source.span p cs).2) := by
  unfold Source.span
  rw [List.takeWhile_cons_of_pos h, List.dropWhile_cons_of_pos h]

theorem meets_ident {c : Char} (h : isIdentStart c = true) (cs : List Char) :
    Meets text (ident text) (c :: cs) s (.ok ((s.symbols.intern (Source.ident c cs).1).1,
      (Source.ident c cs).2,
      { s with symbols := (s.symbols.intern (Source.ident c cs).1).2 })) := by
  have htake : Meets text (takeWhile text isIdentChar) (c :: cs) s
      (.ok ((Source.ident c cs).1, (Source.ident c cs).2, s)) := by
    have htake : Meets text (takeWhile text isIdentChar) (c :: cs) s
        (.ok (String.ofList (Source.span isIdentChar (c :: cs)).1,
          (Source.span isIdentChar (c :: cs)).2, s)) :=
      meets_takeWhile isIdentChar
    rwa [span_cons (Source.isIdentChar_of_isIdentStart h)] at htake
  exact htake.bind (meets_intern _)

theorem meets_hole (cs : List Char) : Meets text (hole text) ('?' :: cs) s
    (.of Stores.internSource s (Source.readHole cs)) := by
  refine (meets_advance_one (by decide)).bind ((meets_takeWhile Char.isDigit).bind ?_)
  rw [String.toList_ofList, Source.readHole]
  dsimp only
  split
  · exact meets_store _
  · exact meets_fail

theorem meets_leadingMinus : Meets text (skip text '-') rest s
    (.ok ((Source.leadingMinus rest).1, (Source.leadingMinus rest).2, s)) := by
  unfold Source.leadingMinus
  split
  · exact meets_skip (by decide)
  · rename_i hne
    exact meets_skip_ne hne

theorem meets_fraction : Meets text (fraction text) rest s
    (.ok ((Source.numeralFraction rest).1, (Source.numeralFraction rest).2, s)) := by
  unfold Source.numeralFraction
  split
  · rename_i rest
    refine (meets_skip (by decide)).bind ((meets_takeWhile Char.isDigit).bind ?_)
    rw [String.toList_ofList]
    exact .pure _
  · rename_i hne
    exact (meets_skip_ne hne).bind (.pure none)

theorem meets_exponentSign : Meets text (exponentSign text) rest s
    (.ok ((Source.exponentSign rest).1, (Source.exponentSign rest).2, s)) := by
  refine meets_peek.bind ?_
  split
  · rename_i hhead
    obtain ⟨rest', rfl⟩ := List.head?_eq_some_iff.1 hhead
    exact (meets_advance_one (by decide)).bind (.pure false)
  · rename_i hhead
    obtain ⟨rest', rfl⟩ := List.head?_eq_some_iff.1 hhead
    exact (meets_advance_one (by decide)).bind (.pure true)
  · rename_i hplus hminus
    have hsign : Source.exponentSign rest = (false, rest) := by
      unfold Source.exponentSign
      split
      · exact absurd rfl hplus
      · exact absurd rfl hminus
      · rfl
    rw [hsign]
    exact .pure false

theorem meets_exponent : Meets text (exponent text) rest s
    (.ok ((Source.numeralExponent rest).1, (Source.numeralExponent rest).2, s)) := by
  have hmark : ∀ {c : Char} {rest' : List Char}, c.utf8Size = 1 →
      Source.numeralExponent (c :: rest') = (some ((Source.exponentSign rest').1,
        (Source.span Char.isDigit (Source.exponentSign rest').2).1),
        (Source.span Char.isDigit (Source.exponentSign rest').2).2) →
      Meets text (do
        advance 1
        let negative ← exponentSign text
        let digits ← takeWhile text Char.isDigit
        return some (negative, digits.toList)) (c :: rest') s
          (.ok ((Source.numeralExponent (c :: rest')).1,
            (Source.numeralExponent (c :: rest')).2, s)) := by
    intro c rest' hsize heq
    refine (meets_advance_one hsize).bind (meets_exponentSign.bind
      ((meets_takeWhile Char.isDigit).bind ?_))
    rw [String.toList_ofList, heq]
    exact .pure _
  refine meets_peek.bind ?_
  split
  · rename_i hhead
    obtain ⟨rest', rfl⟩ := List.head?_eq_some_iff.1 hhead
    exact hmark (by decide) rfl
  · rename_i hhead
    obtain ⟨rest', rfl⟩ := List.head?_eq_some_iff.1 hhead
    exact hmark (by decide) rfl
  · rename_i hsmall hlarge
    have hnone : Source.numeralExponent rest = (none, rest) := by
      unfold Source.numeralExponent
      split
      · exact absurd rfl hsmall
      · exact absurd rfl hlarge
      · rfl
    rw [hnone]
    exact .pure none

theorem suffix_leadingMinus (cs : List Char) : (Source.leadingMinus cs).2 <:+ cs := by
  unfold Source.leadingMinus
  split
  · exact List.suffix_cons _ _
  · exact List.suffix_rfl

theorem suffix_span (p : Char → Bool) (cs : List Char) : (Source.span p cs).2 <:+ cs :=
  List.dropWhile_suffix p

theorem suffix_numeralFraction (cs : List Char) : (Source.numeralFraction cs).2 <:+ cs := by
  unfold Source.numeralFraction
  split
  · exact (suffix_span _ _).trans (List.suffix_cons _ _)
  · exact List.suffix_rfl

theorem suffix_exponentSign (cs : List Char) : (Source.exponentSign cs).2 <:+ cs := by
  unfold Source.exponentSign
  split
  · exact List.suffix_cons _ _
  · exact List.suffix_cons _ _
  · exact List.suffix_rfl

theorem suffix_numeralExponent (cs : List Char) : (Source.numeralExponent cs).2 <:+ cs := by
  unfold Source.numeralExponent
  split
  · exact (suffix_span _ _).trans ((suffix_exponentSign _).trans (List.suffix_cons _ _))
  · exact (suffix_span _ _).trans ((suffix_exponentSign _).trans (List.suffix_cons _ _))
  · exact List.suffix_rfl

/-- What is left after a number is the end of the text. -/
theorem suffix_numeral (cs : List Char) : (Source.numeral cs).2 <:+ cs :=
  (suffix_numeralExponent _).trans ((suffix_numeralFraction _).trans
    ((suffix_span _ _).trans (suffix_leadingMinus cs)))

theorem meets_number : Meets text (number text) rest s
    (.of Stores.internSource s (Source.readNumber rest)) := by
  refine .of_suffix fun hsuffix => ?_
  refine meets_here.bind (meets_leadingMinus.bind ((meets_takeWhile Char.isDigit).bind ?_))
  rw [String.toList_ofList]
  unfold Source.readNumber
  split
  · rename_i hnone
    have hwhole : (Source.numeral rest).1.whole = [] := hnone
    rw [dif_pos hwhole]
    exact (meets_goTo hsuffix).bind meets_fail
  · rename_i hsome
    have hwhole : ¬ (Source.numeral rest).1.whole = [] := hsome
    rw [dif_neg hwhole]
    refine meets_fraction.bind (meets_exponent.bind (meets_here.bind ?_))
    show Meets text _ (Source.numeral rest).2 s _
    obtain ⟨taken, htaken⟩ := suffix_numeral rest
    have htake : rest.take (rest.length - (Source.numeral rest).2.length) = taken := by
      have hlength := congrArg List.length htaken
      rw [List.length_append] at hlength
      rw [show rest.length - (Source.numeral rest).2.length = taken.length by omega]
      exact (List.prefix_iff_eq_take.1 ⟨_, htaken⟩).symm
    refine (meets_slice htaken hsuffix).bind ?_
    rw [String.toList_ofList]
    dsimp only
    rw [htake]
    show Meets text (storeLiteral (before text rest) ((Source.numeral rest).1.literal taken))
      (Source.numeral rest).2 s _
    cases (Source.numeral rest).1.literal taken with
    | ok value => exact meets_store (·.lit value)
    | error e => exact meets_failAt hsuffix

theorem meets_string {cs value rest : List Char} (h : Source.stringBody cs = some (value, rest)) :
    Meets text (string text) ('"' :: cs) s
      (.ok ((s.exprs.lit (.str (String.ofList value))).1, rest,
        { s with exprs := (s.exprs.lit (.str (String.ofList value))).2 })) := by
  refine meets_here.bind ((meets_advance_one (by decide)).bind (meets_rest.bind ?_))
  obtain ⟨taken, rfl, hclose⟩ := closingQuote_eq_some 0 h
  rw [String.toList_ofList, hclose, Nat.zero_add]
  dsimp only
  have hquoted : utf8Size taken + 1 = utf8Size (taken ++ ['"']) :=
    (utf8Size_append taken ['"']).symm
  rw [hquoted]
  exact (meets_advance (List.append_assoc taken ['"'] rest)).bind (meets_store _)

theorem meets_string_none {cs : List Char} (h : Source.stringBody cs = none) :
    Meets text (string text) ('"' :: cs) s (.error (.unterminatedString, '"' :: cs, s)) := by
  refine .of_suffix fun hsuffix => ?_
  refine meets_here.bind ((meets_advance_one (by decide)).bind (meets_rest.bind ?_))
  rw [String.toList_ofList, closingQuote_eq_none 0 h]
  exact meets_failAt hsuffix

end Cursor

end Polyglot
