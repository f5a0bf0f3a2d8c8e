import Polyglot.Chart.Readings
import Polyglot.Expr.Printer
import Polyglot.Generation.Linearization
import Polyglot.Text.Blank
import Polyglot.Text.Quoted

/-!
# From one language to another

A line is rendered in another language by parsing it in one concrete syntax and linearizing its
readings in the other. There is one rendition for each reading: a line that begins a sentence
without completing it has none, and the rendition of a reading that the other language cannot
express has no outputs.

- `Grammar.renditions`: the renditions of a line.
-/

namespace Polyglot

/-- What to render, and how much of it. -/
structure RenditionOptions where
  /-- The category of the line; the start category of the grammar if none is given. -/
  category : Option String := none
  fromField : Nat := 0
  toField : Nat := 0
  /-- How many readings are taken. -/
  maxTrees : Nat := 10
  /-- How many derivations of each reading are linearized. -/
  maxConcretizations : Nat := 1
  deriving DecidableEq, Repr

/-- A reading of a line and its texts in the other language. -/
structure Rendition where
  tree : String
  outputs : List String
  deriving DecidableEq, Repr

/-- Why a line cannot be rendered. -/
inductive RenditionError where
  | parse (e : ParseError)
  | linearize (e : LinearizeError)
  | noStartCategory
  | unexpectedToken (token : String) (position : Nat)
  deriving DecidableEq, Repr

namespace RenditionError

/-- The wording of an error. -/
def message : RenditionError → String
  | .parse e => "parse error: " ++ e.message
  | .linearize e => "linearize error: " ++ e.message
  | .noStartCategory => "no start category"
  | .unexpectedToken token position =>
    "unexpected token " ++ Text.quote token ++ " at position " ++ toString position

/-- The wording of the error that this one is about. -/
def cause : RenditionError → Option String
  | .parse e => some e.message
  | .linearize e => some e.message
  | .noStartCategory => none
  | .unexpectedToken .. => none

end RenditionError

namespace Rendition

/-- Why a rendition did not come to its end. -/
inductive Stop where
  | error (e : RenditionError)
  | halt (h : Building.Halt)
  | choice (f : Choice.Fault)
  deriving DecidableEq, Repr

/-- An error of the linearizer ends the rendition. -/
def ofLinearizer {α : Type} (r : Except LinearizeError α) : Except Stop α :=
  r.mapError fun e => .error (.linearize e)

/-- So does a fault of a search. -/
def ofSearch {α : Type} (r : Except Choice.Fault α) : Except Stop α := r.mapError .choice

/-- The chart after all tokens; `position` counts those that were read before. -/
def feedAll (limit : Nat) (symbols : SymbolStore) (position : Nat) (chart : Chart)
    (counters : Counters) : List String → Except Stop (Chart × Counters)
  | [] => .ok (chart, counters)
  | token :: tokens =>
    match chart.feed limit symbols token counters with
    | (.error h, _) => .error (.halt h)
    | (.ok none, _) => .error (.error (.unexpectedToken token position))
    | (.ok (some chart), counters) => feedAll limit symbols (position + 1) chart counters tokens

/-- The texts of an expression at a field, for its first derivations. -/
def texts (l : Linearizer) (symbols : SymbolStore) (e : Expr) (field limit : Nat)
    (counters : Counters) : Except Stop (List String) := do
  let (ds, _) ← ofSearch (Concretizations.take l e limit counters)
  ds.mapM fun d => (ofLinearizer (l.tokens symbols d field)).map unwords

/-- The rendition of a reading. -/
def ofReading (l : Linearizer) (symbols : SymbolStore) (exprs : ExprStore)
    (options : RenditionOptions) (counters : Counters) (id : ExprId) : Except Stop Rendition := do
  let tree := match exprs.text symbols id with
    | .ok text => text
    | .error _ => "<expr " ++ toString id.index ++ ">"
  match exprs.expr? id with
  | none => return ⟨tree, []⟩
  | some e =>
    return ⟨tree, ← texts l symbols e options.toField options.maxConcretizations counters⟩

end Rendition

open Rendition in
/-- The renditions of a line, whose tokens stand between white space, from one language in another.
Each step of the chart may take `limit` rounds. -/
def Grammar.renditions (g : Grammar) (limit : Nat) (symbols : SymbolStore) (source target : String)
    (line : String) (options : RenditionOptions) : Except Stop (List Rendition) := do
  let some category := options.category.or g.startCategory?
    | throw (.error .noStartCategory)
  let some sourceSyntax := g.resolveConcrete? symbols source
    | throw (.error (.parse (.unknownLanguage source)))
  let some targetSyntax := g.resolveConcrete? symbols target
    | throw (.error (.linearize (.unknownLanguage target)))
  let linearizer := Linearizer.ofConcrete g targetSyntax
  match Chart.parse limit symbols sourceSyntax category options.fromField {} with
  | (.error (.error e), _) => throw (.error (.parse e))
  | (.error (.halt h), _) => throw (.halt h)
  | (.ok chart, counters) =>
    let (chart, counters) ← feedAll limit symbols 0 chart counters (Text.words line)
    let (ids, exprs, counters) ← ofSearch (Readings.take chart options.maxTrees {} counters)
    ids.mapM (ofReading linearizer symbols exprs options counters)

end Polyglot
