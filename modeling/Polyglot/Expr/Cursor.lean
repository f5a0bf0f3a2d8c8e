import Polyglot.Expr.Reader

/-!
# Reading in place

A reader can also go through a text in place. It holds a position in the UTF-8 bytes of the text,
moves it over what it recognizes, and stores each expression as soon as it is complete. Whatever it
looks at is cut out of the text between two positions, and a text can be cut only where a character
begins or the text ends.

- `Text.slice?`: a piece of a text, if it can be cut out.
- `Reading`: what a reader does with its `Cursor`; it stops with a `Stop` if it cannot go on.
- `Cursor.read`: reads a whole text. The result is that of `Stores.read`; here it can be seen where
  the reader has been.
-/

namespace Polyglot

namespace Text

/-- The piece of a text between two positions; none if one of them is not at the boundary of a
character or if they are the wrong way round. -/
def slice? (text : String) (b e : String.Pos.Raw) : Option String :=
  if h : b.IsValid text ∧ e.IsValid text ∧ b ≤ e then
    some (text.extract (text.pos b h.1) (text.pos e h.2.1))
  else none

/-- Characters with the offsets in bytes at which they begin; the first one begins at `offset`. -/
def indexed (offset : Nat) : List Char → List (Nat × Char)
  | [] => []
  | c :: cs => (offset, c) :: indexed (offset + c.utf8Size) cs

/-- The offset of the first character outside a class, or of the end. -/
def prefixSize (p : Char → Bool) (text : String) : Nat :=
  (((indexed 0 text.toList).find? (!p ·.2)).map Prod.fst).getD text.utf8ByteSize

end Text

/-- A reader on its way through a text. -/
structure Cursor where
  pos : String.Pos.Raw := 0
  /-- Where it was before, the latest position first. -/
  trail : List String.Pos.Raw := []
  stores : Stores

namespace Cursor

/-- Why a reader does not go on. -/
inductive Stop where
  /-- The text is not an expression. -/
  | failure (f : ReadFailure)
  /-- The text cannot be cut there. -/
  | slice (b e : String.Pos.Raw)
  /-- Expressions are nested too deeply. -/
  | exhausted
  deriving DecidableEq

/-- Moves to another position. -/
def moveTo (c : Cursor) (pos : String.Pos.Raw) : Cursor :=
  { c with pos, trail := c.pos :: c.trail }

/-- All positions so far. -/
def visited (c : Cursor) : List String.Pos.Raw := c.pos :: c.trail

end Cursor

/-- What a reader does. -/
abbrev Reading : Type → Type := ExceptT Cursor.Stop (StateM Cursor)

namespace Cursor

open Source (isIdentStart isIdentChar isAtomStart Numeral)

/-- What comes of a reading. -/
def run {α : Type} (c : Cursor) (x : Reading α) : Except Stop α × Cursor := (ExceptT.run x).run c

/-! ## Moving and looking -/

/-- The current position. -/
def here : Reading String.Pos.Raw := return (← get).pos

/-- Goes to a position. -/
def goTo (pos : String.Pos.Raw) : Reading Unit := modify (·.moveTo pos)

/-- Goes on by a number of bytes. -/
def advance (bytes : Nat) : Reading Unit := modify fun c => c.moveTo ⟨c.pos.byteIdx + bytes⟩

/-- Fails because of something at a position. -/
def failAt {α : Type} (pos : String.Pos.Raw) (error : ReadError) : Reading α :=
  throw (.failure ⟨pos.byteIdx, error⟩)

/-- Fails where it is. -/
def fail {α : Type} (error : ReadError) : Reading α := do failAt (← here) error

/-- Interns a name. -/
def intern (name : String) : Reading Sym :=
  modifyGet fun c =>
    let (sym, symbols) := c.stores.symbols.intern name
    (sym, { c with stores.symbols := symbols })

/-- Stores an expression. -/
def store (add : ExprStore → ExprId × ExprStore) : Reading ExprId :=
  modifyGet fun c =>
    let (id, exprs) := add c.stores.exprs
    (id, { c with stores.exprs := exprs })

variable (text : String)

/-- Cuts a piece out of the text. -/
def slice (b e : String.Pos.Raw) : Reading String :=
  match Text.slice? text b e with
  | some piece => return piece
  | none => throw (.slice b e)

/-- What is left of the text. -/
def rest : Reading String := do slice text (← here) text.rawEndPos

/-- The next character. -/
def peek : Reading (Option Char) := return (← rest text).toList.head?

/-- Goes on to the next character that is not white space. -/
def skipBlanks : Reading Unit := do
  let rest ← rest text
  advance (rest.utf8ByteSize - utf8Size (Text.skipBlanks rest.toList))

/-- Takes the longest beginning of characters of a class. -/
def takeWhile (p : Char → Bool) : Reading String := do
  let rest ← rest text
  advance (Text.prefixSize p rest)
  slice rest 0 ⟨Text.prefixSize p rest⟩

/-- Goes over a character if it comes next. -/
def skip (c : Char) : Reading Bool := do
  if (← peek text) = some c then
    advance 1
    return true
  else return false

/-! ## Names, holes and literals -/

/-- A name. -/
def ident : Reading Sym := do intern (← takeWhile text isIdentChar)

/-- A hole. -/
def hole : Reading ExprId := do
  advance 1
  let digits ← takeWhile text Char.isDigit
  let index := Nat.ofDigitChars 10 digits.toList 0
  if index < Nat.pow 2 32 then store (·.hole index) else fail .holeOutOfRange

/-- The digits after a point, if there is one. -/
def fraction : Reading (Option (List Char)) := do
  if ← skip text '.' then
    let digits ← takeWhile text Char.isDigit
    return some digits.toList
  else return none

/-- Whether a minus sign comes next; a plus sign is dropped as well. -/
def exponentSign : Reading Bool := do
  match ← peek text with
  | some '+' =>
    advance 1
    return false
  | some '-' =>
    advance 1
    return true
  | _ => return false

/-- The sign and the digits after an exponent mark, if there is one. -/
def exponent : Reading (Option (Bool × List Char)) := do
  match ← peek text with
  | some 'e' | some 'E' =>
    advance 1
    let negative ← exponentSign text
    let digits ← takeWhile text Char.isDigit
    return some (negative, digits.toList)
  | _ => return none

/-- Stores a literal, or fails where it begins. -/
def storeLiteral (start : String.Pos.Raw) : Except ReadError Literal → Reading ExprId
  | .ok value => store (·.lit value)
  | .error error => failAt start error

/-- A number. -/
def number : Reading ExprId := do
  let start ← here
  let negative ← skip text '-'
  let whole ← takeWhile text Char.isDigit
  if whole.toList = [] then
    goTo start
    fail .expectedDigits
  else
    let fraction ← fraction text
    let exponent ← exponent text
    let piece ← slice text start (← here)
    storeLiteral start (Numeral.literal ⟨negative, whole.toList, fraction, exponent⟩ piece.toList)

/-- The contents of a string literal and the offset of the closing quote. -/
def closingQuote : List (Nat × Char) → Option (List Char × Nat)
  | [] => none
  | (i, c) :: chars =>
    if c = '"' then some ([], i)
    else if c = '\\' then
      match chars with
      | [] => none
      | (_, c) :: chars =>
        (closingQuote chars).map fun (value, i) => ((if c = 'n' then '\n' else c) :: value, i)
    else (closingQuote chars).map fun (value, i) => (c :: value, i)

/-- A string literal. -/
def string : Reading ExprId := do
  let start ← here
  advance 1
  let rest ← rest text
  match closingQuote (Text.indexed 0 rest.toList) with
  | some (value, i) =>
    advance (i + 1)
    store (·.lit (.str (String.ofList value)))
  | none => failAt start .unterminatedString

/-! ## Expressions -/

mutual

/-- An application or a single atom, and the white space around it. -/
def expr : Nat → Reading ExprId
  | 0 => throw .exhausted
  | limit + 1 => do
    skipBlanks text
    let start ← here
    if (← peek text).any isIdentStart then
      let fn ← ident text
      let ids ← args limit
      store (·.app fn ids)
    else
      let id ← atom limit
      skipBlanks text
      if (← peek text).any isAtomStart then
        goTo start
        fail .notApplicable
      else return id

/-- As many atoms as there are, and the white space before and after them. -/
def args : Nat → Reading (List ExprId)
  | 0 => throw .exhausted
  | limit + 1 => do
    skipBlanks text
    if (← peek text).any isAtomStart then
      let id ← atom limit
      let ids ← args limit
      return id :: ids
    else return []

/-- A single atom. -/
def atom : Nat → Reading ExprId
  | 0 => throw .exhausted
  | limit + 1 => do
    skipBlanks text
    match ← peek text with
    | none => fail .unexpectedEnd
    | some c =>
      if c = '(' then
        advance 1
        let id ← expr limit
        skipBlanks text
        if ← skip text ')' then return id else fail .expectedClose
      else if c = '"' then string text
      else if c = '?' then hole text
      else if c = '-' || c.isDigit then number text
      else if isIdentStart c then
        let fn ← ident text
        store (·.app fn [])
      else fail .unexpectedCharacter

end

/-- A semicolon and the white space around it. -/
def skipSemicolon : Reading Unit := do
  skipBlanks text
  if ← skip text ';' then skipBlanks text

/-- A whole text; `limit` is how deeply calls may be nested. -/
def read (limit : Nat) : Reading ExprId := do
  let id ← expr text limit
  skipSemicolon text
  if (← here) < text.rawEndPos then fail .trailingInput else return id

end Cursor

end Polyglot
