import Polyglot.Double.Text
import Polyglot.Expr.Store
import Polyglot.Text.Alphabetic
import Polyglot.Text.Blank
import Polyglot.Text.Numeric

/-!
# Reading expressions

The reader takes what the printer writes, with any white space between the parts and an optional
semicolon at the end. It works in two stages: a text is read into a `Source`, an expression whose
functions are still names, and the source is then stored.

A reading that fails has already stored the parts that were complete by then, and interned the names
of applications that had begun, so a failure carries these as `Fragment`s.

- `Source.read`: the source of a text, or a failure with the text that was left.
- `Stores.read`: reads and stores; errors are placed by their offset in UTF-8 bytes.
-/

namespace Polyglot

/-- An expression as it is written: functions are names. -/
inductive Source where
  | app (name : String) (args : List Source)
  | lit (value : Literal)
  | hole (index : Nat)
  deriving Repr

/-- What a text is found to be wrong with. -/
inductive ReadError where
  | trailingInput
  | notApplicable
  | expectedClose
  | holeOutOfRange
  | unexpectedCharacter
  | unexpectedEnd
  | expectedDigits
  | invalidFloat (text : String)
  | invalidInteger (text : String)
  | unterminatedString
  deriving DecidableEq, Repr

/-- The wording of an error. -/
def ReadError.message : ReadError → String
  | .trailingInput => "unexpected trailing input"
  | .notApplicable => "only functions can be applied"
  | .expectedClose => "expected ')'"
  | .holeOutOfRange => "meta index out of range"
  | .unexpectedCharacter => "unexpected character"
  | .unexpectedEnd => "unexpected end of input"
  | .expectedDigits => "expected digits"
  | .invalidFloat text => "invalid float " ++ text
  | .invalidInteger text => "invalid integer " ++ text
  | .unterminatedString => "unterminated string literal"

namespace Source

/-- A part of an expression that could not be read to its end. -/
inductive Fragment where
  /-- A function whose arguments were being read. -/
  | name (name : String)
  /-- A complete part. -/
  | part (source : Source)
  deriving Repr

/-- A reading that failed: the error, the text from where it was found, and what had been read. -/
structure Failure where
  error : ReadError
  rest : List Char
  fragments : List Fragment := []
  deriving Repr

/-- The same failure, found after more had been read. -/
def Failure.after (fragment : Fragment) (f : Failure) : Failure :=
  { f with fragments := fragment :: f.fragments }

/-- What was read from a nonempty stretch of `text`, and what is left. -/
abbrev Step (text : List Char) (α : Type) :=
  Except Failure (α × { rest : List Char // rest.length < text.length })

/-- Whether an identifier can begin with a character. -/
def isIdentStart (c : Char) : Bool := Text.isAlphabetic c || c == '_'

/-- Whether an identifier can go on with a character. -/
def isIdentChar (c : Char) : Bool :=
  Text.isAlphabetic c || Text.isNumeric c || c == '_' || c == '\''

/-- Whether an atom can begin with a character. -/
def isAtomStart (c : Char) : Bool :=
  c == '(' || c == '"' || c == '?' || c == '-' || c.isDigit || isIdentStart c

/-- The longest beginning of characters of a class, and what is left. -/
def span (p : Char → Bool) (text : List Char) : List Char × List Char :=
  (text.takeWhile p, text.dropWhile p)

theorem length_span_le (p : Char → Bool) (text : List Char) :
    (span p text).2.length ≤ text.length :=
  (List.dropWhile_sublist p).length_le

/-- The contents of a string literal and what is left after the closing quote. A backslash makes the
next character stand for itself, except that `n` stands for a line end. -/
def stringBody : List Char → Option (List Char × List Char)
  | [] => none
  | '"' :: rest => some ([], rest)
  | ['\\'] => none
  | '\\' :: c :: rest =>
    (stringBody rest).map fun (value, rest) => ((if c = 'n' then '\n' else c) :: value, rest)
  | c :: rest => (stringBody rest).map fun (value, rest) => (c :: value, rest)

theorem length_lt_of_stringBody {text value rest : List Char}
    (h : stringBody text = some (value, rest)) : rest.length < text.length := by
  fun_induction stringBody text generalizing value with
  | case1 => cases h
  | case2 => cases h; simp
  | case3 => cases h
  | case4 c r ih =>
    simp only [Option.map_eq_some_iff, Prod.mk.injEq] at h
    obtain ⟨⟨v, r'⟩, hr, -, rfl⟩ := h
    have : r'.length < _ := ih hr
    simp only [List.length_cons]
    omega
  | case5 c r _ _ _ ih =>
    simp only [Option.map_eq_some_iff, Prod.mk.injEq] at h
    obtain ⟨⟨v, r'⟩, hr, -, rfl⟩ := h
    have : r'.length < _ := ih hr
    simp only [List.length_cons]
    omega

/-- The parts of a written number. -/
structure Numeral where
  negative : Bool
  whole : List Char
  /-- The digits after the point, if there is one. -/
  fraction : Option (List Char)
  /-- The sign and the digits after the exponent mark, if there is one. -/
  exponent : Option (Bool × List Char)
  deriving Repr

/-- The digits after a point. -/
def numeralFraction : List Char → Option (List Char) × List Char
  | '.' :: rest =>
    let (digits, rest) := span Char.isDigit rest
    (some digits, rest)
  | text => (none, text)

/-- Whether a minus sign comes first; a plus sign is dropped as well. -/
def exponentSign : List Char → Bool × List Char
  | '+' :: rest => (false, rest)
  | '-' :: rest => (true, rest)
  | text => (false, text)

/-- The sign and the digits after an exponent mark. -/
def numeralExponent : List Char → Option (Bool × List Char) × List Char
  | 'e' :: rest | 'E' :: rest =>
    let (negative, rest) := exponentSign rest
    let (digits, rest) := span Char.isDigit rest
    (some (negative, digits), rest)
  | text => (none, text)

/-- Whether a minus sign comes first. -/
def leadingMinus : List Char → Bool × List Char
  | '-' :: rest => (true, rest)
  | text => (false, text)

/-- The longest beginning of a text that looks like a number, and what is left. -/
def numeral (text : List Char) : Numeral × List Char :=
  let (negative, rest) := leadingMinus text
  let (whole, rest) := span Char.isDigit rest
  let (fraction, rest) := numeralFraction rest
  let (exponent, rest) := numeralExponent rest
  (⟨negative, whole, fraction, exponent⟩, rest)

theorem length_numeralFraction_le (text : List Char) :
    (numeralFraction text).2.length ≤ text.length := by
  unfold numeralFraction
  split
  · rename_i rest
    have : (span Char.isDigit rest).2.length ≤ rest.length := length_span_le ..
    simp only [List.length_cons]
    omega
  · exact Nat.le_refl _

theorem length_exponentSign_le (text : List Char) :
    (exponentSign text).2.length ≤ text.length := by
  unfold exponentSign
  split <;> simp

theorem length_numeralExponent_le (text : List Char) :
    (numeralExponent text).2.length ≤ text.length := by
  have after (rest : List Char) :
      (span Char.isDigit (exponentSign rest).2).2.length ≤ rest.length :=
    Nat.le_trans (length_span_le ..) (length_exponentSign_le rest)
  unfold numeralExponent
  split
  · have := after ‹_›
    simp only [List.length_cons]
    omega
  · have := after ‹_›
    simp only [List.length_cons]
    omega
  · exact Nat.le_refl _

/-- A number with digits before the point takes up some of the text. -/
theorem length_numeral_lt {text : List Char} (h : (numeral text).1.whole ≠ []) :
    (numeral text).2.length < text.length := by
  have hsign : (leadingMinus text).2.length ≤ text.length := by
    unfold leadingMinus
    split <;> simp
  have hspan : (numeral text).1.whole.length +
      (span Char.isDigit (leadingMinus text).2).2.length = (leadingMinus text).2.length := by
    rw [← List.length_append]
    exact congrArg List.length List.takeWhile_append_dropWhile
  have hrest : (numeral text).2.length ≤ (span Char.isDigit (leadingMinus text).2).2.length :=
    Nat.le_trans (length_numeralExponent_le _) (length_numeralFraction_le _)
  have := List.length_pos_iff.2 h
  omega

/-- The literal that a number denotes: a float if it has a point or an exponent, and otherwise an
integer of 64 bits. `text` is the number as it is written. -/
def Numeral.literal (n : Numeral) (text : List Char) : Except ReadError Literal :=
  match n.fraction, n.exponent with
  | none, none =>
    let magnitude : Int := Nat.ofDigitChars 10 n.whole 0
    let value := if n.negative then -magnitude else magnitude
    if -Int.ofNat (Nat.pow 2 63) ≤ value ∧ value < Int.ofNat (Nat.pow 2 63) then .ok (.int value)
    else .error (.invalidInteger (String.ofList text))
  | fraction, none =>
    .ok (.float (Double.ofDecimalText n.negative n.whole (fraction.getD []) 0))
  | fraction, some (negative, digits) =>
    if digits.isEmpty then .error (.invalidFloat (String.ofList text))
    else
      let magnitude : Int := Nat.ofDigitChars 10 digits 0
      .ok (.float (Double.ofDecimalText n.negative n.whole (fraction.getD [])
        (if negative then -magnitude else magnitude)))

/-- Reads a number at the beginning of a text. -/
def readNumber (text : List Char) : Step text Source :=
  if h : (numeral text).1.whole = [] then .error ⟨.expectedDigits, text, []⟩
  else
    let rest := (numeral text).2
    match (numeral text).1.literal (text.take (text.length - rest.length)) with
    | .error error => .error ⟨error, text, []⟩
    | .ok value => .ok (.lit value, ⟨rest, length_numeral_lt h⟩)

/-- Reads what follows the question mark of a hole; no digits stand for 0. -/
def readHole (text : List Char) :
    Except Failure (Source × { rest : List Char // rest.length ≤ text.length }) :=
  let digits := (span Char.isDigit text).1
  let rest := (span Char.isDigit text).2
  let index := Nat.ofDigitChars 10 digits 0
  if index < Nat.pow 2 32 then .ok (.hole index, ⟨rest, length_span_le ..⟩)
  else .error ⟨.holeOutOfRange, rest, []⟩

/-- An identifier that begins with `c`, and what is left. -/
def ident (c : Char) (text : List Char) : String × List Char :=
  (String.ofList (c :: (span isIdentChar text).1), (span isIdentChar text).2)

theorem length_ident_le (c : Char) (text : List Char) : (ident c text).2.length ≤ text.length :=
  length_span_le ..

mutual

/-- Reads an application or a single atom, and the white space around it. -/
def readExpr (text : List Char) : Step text Source :=
  have hskip := Text.length_skipBlanks_le text
  match h : Text.skipBlanks text with
  | [] => .error ⟨.unexpectedEnd, [], []⟩
  | c :: cs =>
    have hcs : cs.length < text.length := by rw [h] at hskip; exact hskip
    if isIdentStart c then
      have hident := length_ident_le c cs
      match readArgs (ident c cs).2 with
      | .error f => .error (f.after (.name (ident c cs).1))
      | .ok (args, ⟨rest, hrest⟩) => .ok (.app (ident c cs).1 args, ⟨rest, by omega⟩)
    else
      match readAtom c cs with
      | .error f => .error f
      | .ok (atom, ⟨rest, hrest⟩) =>
        have hafter := Text.length_skipBlanks_le rest
        if (Text.skipBlanks rest).head?.any isAtomStart then
          .error ⟨.notApplicable, c :: cs, [.part atom]⟩
        else .ok (atom, ⟨Text.skipBlanks rest, by omega⟩)
termination_by (text.length, 2)

/-- Reads as many atoms as there are, and the white space before and after them. -/
def readArgs (text : List Char) :
    Except Failure (List Source × { rest : List Char // rest.length ≤ text.length }) :=
  have hskip := Text.length_skipBlanks_le text
  match h : Text.skipBlanks text with
  | [] => .ok ([], ⟨[], Nat.zero_le _⟩)
  | c :: cs =>
    have hcs : cs.length < text.length := by rw [h] at hskip; exact hskip
    if isAtomStart c then
      match readAtom c cs with
      | .error f => .error f
      | .ok (arg, ⟨rest, hrest⟩) =>
        match readArgs rest with
        | .error f => .error (f.after (.part arg))
        | .ok (args, ⟨rest', hrest'⟩) => .ok (arg :: args, ⟨rest', by omega⟩)
    else .ok ([], ⟨c :: cs, hcs⟩)
termination_by (text.length, 1)

/-- Reads a single atom that begins with `c`: something in parentheses, a literal, a hole or a
function without arguments. -/
def readAtom (c : Char) (cs : List Char) :
    Except Failure (Source × { rest : List Char // rest.length ≤ cs.length }) :=
  if c = '(' then
    match readExpr cs with
    | .error f => .error f
    | .ok (inner, ⟨rest, hrest⟩) =>
      have hskip := Text.length_skipBlanks_le rest
      match h : Text.skipBlanks rest with
      | ')' :: rest' => .ok (inner, ⟨rest', by simp only [h, List.length_cons] at hskip; omega⟩)
      | rest' => .error ⟨.expectedClose, rest', [.part inner]⟩
  else if c = '"' then
    match h : stringBody cs with
    | none => .error ⟨.unterminatedString, c :: cs, []⟩
    | some (value, rest) =>
      .ok (.lit (.str (String.ofList value)), ⟨rest, Nat.le_of_lt (length_lt_of_stringBody h)⟩)
  else if c = '?' then readHole cs
  else if c = '-' || c.isDigit then
    match readNumber (c :: cs) with
    | .error f => .error f
    | .ok (number, ⟨rest, hrest⟩) => .ok (number, ⟨rest, Nat.le_of_lt_succ hrest⟩)
  else if isIdentStart c then
    .ok (.app (ident c cs).1 [], ⟨(ident c cs).2, length_ident_le c cs⟩)
  else .error ⟨.unexpectedCharacter, c :: cs, []⟩
termination_by (cs.length, 3)

end

/-- Drops a semicolon and the white space around it. -/
def skipSemicolon (text : List Char) : List Char :=
  match Text.skipBlanks text with
  | ';' :: rest => Text.skipBlanks rest
  | rest => rest

/-- Reads a whole text. -/
def read (text : List Char) : Except Failure Source :=
  match readExpr text with
  | .error f => .error f
  | .ok (source, ⟨rest, _⟩) =>
    match skipSemicolon rest with
    | [] => .ok source
    | rest => .error ⟨.trailingInput, rest, [.part source]⟩

end Source

namespace Stores

mutual

/-- Interns the names of a source and stores it with all its parts. -/
def internSource (s : Stores) : Source → ExprId × Stores
  | .app name args =>
    let (fn, symbols) := s.symbols.intern name
    let (ids, s) := internSources { s with symbols } args
    let (id, exprs) := s.exprs.app fn ids
    (id, { s with exprs })
  | .lit value =>
    let (id, exprs) := s.exprs.lit value
    (id, { s with exprs })
  | .hole index =>
    let (id, exprs) := s.exprs.hole index
    (id, { s with exprs })

/-- Stores several sources in order. -/
def internSources (s : Stores) : List Source → List ExprId × Stores
  | [] => ([], s)
  | source :: sources =>
    let (id, s) := internSource s source
    let (ids, s) := internSources s sources
    (id :: ids, s)

end

/-- Keeps what had been read when a reading failed. -/
def internFragment (s : Stores) : Source.Fragment → Stores
  | .name name => { s with symbols := (s.symbols.intern name).2 }
  | .part source => (s.internSource source).2

end Stores

/-- An error at a place in a text, as an offset in UTF-8 bytes. -/
structure ReadFailure where
  offset : Nat
  error : ReadError
  deriving DecidableEq, Repr

/-- The wording of a failure, with its place. -/
def ReadFailure.message (f : ReadFailure) : String :=
  "offset " ++ toString f.offset ++ ": " ++ f.error.message

/-- The number of bytes that a text takes up in UTF-8. -/
def utf8Size (text : List Char) : Nat := (String.ofList text).utf8ByteSize

/-- Reads an expression and stores it. A reading that fails leaves what it had stored by then. -/
def Stores.read (s : Stores) (text : String) : Except ReadFailure ExprId × Stores :=
  match Source.read text.toList with
  | .ok source =>
    let (id, s) := s.internSource source
    (.ok id, s)
  | .error f =>
    (.error ⟨utf8Size text.toList - utf8Size f.rest, f.error⟩,
      f.fragments.foldl Stores.internFragment s)

end Polyglot
