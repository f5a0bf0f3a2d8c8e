import Polyglot.Chart.Building
import Polyglot.Grammar.Basic

/-!
# Charts

A `Chart` is what is known after some of the input has been read. Feeding a token to a chart makes a
new one, and the old one stays what it is, so that several continuations of one beginning can be
followed side by side.

- `Chart.parse`: the chart before any input, for a field of a category.
- `Chart.feed`: the chart after one more token, or none if nothing waits for the token.
- `Chart.completed`: the categories that make up the whole input.
-/

namespace Polyglot

/-- Why a text cannot be parsed at all. -/
inductive ParseError where
  | unknownLanguage (name : String)
  | unknownCategory (name : String)
  | fieldOutOfRange (cat : String) (field fieldCount : Nat)
  deriving DecidableEq, Repr

/-- The wording of an error. -/
def ParseError.message : ParseError → String
  | .unknownLanguage name => "unknown concrete syntax " ++ name
  | .unknownCategory name => "unknown category " ++ name
  | .fieldOutOfRange cat field fieldCount =>
    "category " ++ cat ++ " has " ++ toString fieldCount ++ " fields, field " ++
      toString field ++ " requested"

/-- What is known after some of the input. -/
structure Chart where
  concrete : Concrete
  /-- The steps before the last one. -/
  past : Array Step
  /-- The step at the end of the input so far. -/
  last : Step
  deriving DecidableEq, Repr

namespace Chart

/-- Why there is no chart to begin with. -/
inductive Refusal where
  | error (e : ParseError)
  | halt (h : Building.Halt)
  deriving DecidableEq, Repr

/-- The concrete category with a name, if a field of it can be parsed. -/
def goal (symbols : SymbolStore) (c : Concrete) (cat : String) (field : Nat) :
    Except ParseError ConcreteCategory :=
  match (symbols.find? cat).bind c.category? with
  | none => .error (.unknownCategory cat)
  | some category =>
    if field < category.fieldCount then .ok category
    else .error (.fieldOutOfRange cat field category.fieldCount)

/-- The field of a category with a label. -/
def labelled? (symbols : SymbolStore) (c : Concrete) (cat label : String) : Option Nat :=
  (symbols.find? cat).bind fun sym => c.fieldIndex? sym label

/-- The chart before any input, for a field of a category. Each step may take `limit` rounds. -/
def parse (limit : Nat) (symbols : SymbolStore) (c : Concrete) (cat : String) (field : Nat)
    (counters : Counters) : Except Refusal Chart × Counters :=
  match goal symbols c cat field with
  | .error e => (.error (.error e), counters)
  | .ok category =>
    let b := (Building.start c #[] none counters).predictTop category.instances field
    match b.finish limit with
    | (.ok last, counters) => (.ok { concrete := c, past := #[], last }, counters)
    | (.error h, counters) => (.error (.halt h), counters)

/-- The steps, one for every position. -/
def steps (c : Chart) : Array Step := c.past.push c.last

/-- How many tokens have been read. -/
def position (c : Chart) : Nat := c.past.size

/-- The handle of a token and the items that wait for it, if there are any. -/
def waitingItems? (symbols : SymbolStore) (c : Chart) (token : String) :
    Option (Sym × List Nat) :=
  (symbols.find? token).bind fun sym =>
    match c.last.waitingFor sym with
    | [] => none
    | items => some (sym, items)

/-- How many items wait for a token. -/
def waiting (symbols : SymbolStore) (c : Chart) (token : String) : Nat :=
  ((c.waitingItems? symbols token).map (·.2.length)).getD 0

/-- The chart after one more token, or none if no item waits for it. -/
def feed (limit : Nat) (symbols : SymbolStore) (c : Chart) (token : String)
    (counters : Counters) : Except Building.Halt (Option Chart) × Counters :=
  match c.waitingItems? symbols token with
  | none => (.ok none, { counters with rejectedTokens := counters.rejectedTokens + 1 })
  | some (sym, items) =>
    let b := (items.filterMap (c.last.items[·]?)).foldl Building.scan
      (Building.start c.concrete c.steps (some sym) counters)
    match b.finish limit with
    | (.ok last, counters) => (.ok (some { c with past := c.steps, last }), counters)
    | (.error h, counters) => (.error h, counters)

/-- The categories that span the whole input. -/
def completed (c : Chart) : List ChartCatId := c.last.completed

/-- Whether the input so far is complete. -/
def isComplete (c : Chart) : Bool := !c.completed.isEmpty

/-- The tokens that some item waits for, in order. -/
def expectedTokens (symbols : SymbolStore) (c : Chart) : List String :=
  let tokens := (c.last.transitions.map (·.1)).eraseDups
  (tokens.filterMap symbols.resolve?).mergeSort fun a b => a ≤ b

/-- The tokens read so far. -/
def tokens (symbols : SymbolStore) (c : Chart) : List String :=
  (c.steps.toList.filterMap Step.token).filterMap symbols.resolve?

/-- The category with an id. -/
def category? (c : Chart) (id : ChartCatId) : Option ChartCat :=
  (c.steps[id.step]?).bind (·.cats[id.idx]?)

/-- The categories of the last step with their ids, in the order in which they were created. -/
def categories (c : Chart) : List (ChartCatId × ChartCat) :=
  c.last.cats.toList.zipIdx.map fun (cat, idx) => (⟨c.position, idx⟩, cat)

end Chart

end Polyglot
