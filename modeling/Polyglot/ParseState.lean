import Polyglot.Chart.Readings

/-!
# Parse states

A caller holds a parse between two tokens as a `ParseState`. The steps of one line of input are kept
in a single vector that the states of the line share, and each of them sees only its own beginning
of it: feeding the newest state appends to the vector, and feeding a state that was fed before
copies its beginning to a vector of its own.

- `ParseState.parse`, `ParseState.feed`: new states; the vectors are threaded through.
- `Lines.chart`: what a state sees, as a chart of its own.
- `ParseState.category?`, `ParseState.productions?`, `ParseState.tokens`: what a state says about
  the steps that it sees.
-/

namespace Polyglot

/-- The vectors of steps that parse states share. -/
structure Lines where
  vectors : Array (Array Step) := #[]

instance : Inhabited Lines := ⟨{}⟩

/-- A parse between two tokens. -/
structure ParseState where
  concrete : Concrete
  /-- The place of the vector that holds its steps. -/
  line : Nat
  /-- How many steps of the vector it sees. -/
  length : Nat
  /-- The last step that it sees. -/
  last : Step
  deriving DecidableEq, Repr

/-- A category of a chart in brief. -/
structure ChartCategory where
  id : ChartCatId
  /-- Its number. -/
  number : InstanceId
  /-- The category of which a field was completed. -/
  cat : CatRef
  field : Nat
  productionCount : Nat
  deriving DecidableEq, Repr

namespace Lines

/-- All steps of a vector, also those that only later states see. -/
def vector (l : Lines) (line : Nat) : Array Step := (l.vectors[line]?).getD #[]

/-- The steps that a state sees. -/
def steps (l : Lines) (s : ParseState) : Array Step := (l.vector s.line).extract 0 s.length

/-- A new vector, and the state that sees all of it. -/
def begin (l : Lines) (concrete : Concrete) (past : Array Step) (last : Step) :
    ParseState × Lines :=
  (⟨concrete, l.vectors.size, past.size + 1, last⟩, ⟨l.vectors.push (past.push last)⟩)

/-- The state after one more step: the newest state of a vector has the step appended to it, another
one has what it sees copied. -/
def extend (l : Lines) (s : ParseState) (last : Step) : ParseState × Lines :=
  if (l.vector s.line).size = s.length then
    (⟨s.concrete, s.line, s.length + 1, last⟩, ⟨l.vectors.modify s.line (·.push last)⟩)
  else l.begin s.concrete (l.steps s) last

/-- What a state sees, as a chart. -/
def chart (l : Lines) (s : ParseState) : Chart :=
  { concrete := s.concrete
    past := (l.vector s.line).extract 0 (s.length - 1)
    last := s.last }

end Lines

namespace ParseState

/-- The state before any input, for a field of a category. Each step may take `limit` rounds. -/
def parse (limit : Nat) (symbols : SymbolStore) (c : Concrete) (cat : String) (field : Nat)
    (lines : Lines) (counters : Counters) :
    Except Chart.Refusal (ParseState × Lines) × Counters :=
  match Chart.goal symbols c cat field with
  | .error e => (.error (.error e), counters)
  | .ok category =>
    let b := (Building.start c #[] none counters).predictTop category.instances field
    match b.finish limit with
    | (.ok last, counters) => (.ok (lines.begin c #[] last), counters)
    | (.error h, counters) => (.error (.halt h), counters)

/-- The same for the field with a label. -/
def parseLabel (limit : Nat) (symbols : SymbolStore) (c : Concrete) (cat label : String)
    (lines : Lines) (counters : Counters) :
    Except Chart.Refusal (ParseState × Lines) × Counters :=
  match Chart.labelled? symbols c cat label with
  | none => (.error (.error (.unknownCategory (cat ++ "." ++ label))), counters)
  | some field => parse limit symbols c cat field lines counters

/-- The handle of a token and the items that wait for it, if there are any. -/
def waitingItems? (symbols : SymbolStore) (s : ParseState) (token : String) :
    Option (Sym × List Nat) :=
  (symbols.find? token).bind fun sym =>
    match s.last.waitingFor sym with
    | [] => none
    | items => some (sym, items)

/-- The state after one more token, or none if no item waits for it. -/
def feed (limit : Nat) (symbols : SymbolStore) (s : ParseState) (token : String) (lines : Lines)
    (counters : Counters) : Except Building.Halt (Option (ParseState × Lines)) × Counters :=
  match s.waitingItems? symbols token with
  | none => (.ok none, { counters with rejectedTokens := counters.rejectedTokens + 1 })
  | some (sym, items) =>
    let b := (items.filterMap (s.last.items[·]?)).foldl Building.scan
      (Building.start s.concrete (lines.steps s) (some sym) counters)
    match b.finish limit with
    | (.ok last, counters) => (.ok (some (lines.extend s last)), counters)
    | (.error h, counters) => (.error h, counters)

/-! ## What a state says -/

/-- How many tokens have been read. -/
def position (s : ParseState) : Nat := s.length - 1

/-- The categories that span the whole input. -/
def completed (s : ParseState) : List ChartCatId := s.last.completed

/-- Whether the input so far is complete. -/
def isComplete (s : ParseState) : Bool := !s.completed.isEmpty

/-- How many items wait for a token. -/
def waiting (symbols : SymbolStore) (s : ParseState) (token : String) : Nat :=
  ((s.waitingItems? symbols token).map (·.2.length)).getD 0

/-- The tokens that some item waits for, in order. -/
def expectedTokens (symbols : SymbolStore) (s : ParseState) : List String :=
  let tokens := (s.last.transitions.map (·.1)).eraseDups
  (tokens.filterMap symbols.resolve?).mergeSort fun a b => a ≤ b

/-- The tokens read so far. -/
def tokens (symbols : SymbolStore) (lines : Lines) (s : ParseState) : List String :=
  ((lines.steps s).toList.filterMap Step.token).filterMap symbols.resolve?

/-- The step at a position, if the state sees it. -/
def step? (lines : Lines) (s : ParseState) (i : Nat) : Option Step :=
  if s.length ≤ i then none else (lines.vector s.line)[i]?

/-- The category with an id, in brief. -/
def category? (lines : Lines) (s : ParseState) (id : ChartCatId) : Option ChartCategory := do
  let step ← s.step? lines id.step
  let cat ← step.cats[id.idx]?
  return ⟨id, cat.id, cat.cat, cat.field, cat.productions.length⟩

/-- The productions of the category with an id. -/
def productions? (lines : Lines) (s : ParseState) (id : ChartCatId) :
    Option (List ChartProduction) := do
  let step ← s.step? lines id.step
  let cat ← step.cats[id.idx]?
  return cat.productions

/-- The categories of the last step, in the order in which they were created. -/
def categories (lines : Lines) (s : ParseState) : List ChartCategory :=
  (List.range s.last.cats.size).filterMap fun idx => s.category? lines ⟨s.position, idx⟩

end ParseState

end Polyglot
