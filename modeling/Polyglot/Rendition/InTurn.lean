import Polyglot.Rendition

/-!
# Renditions in turn

A line can also be rendered reading by reading. The next reading is taken off the chart only when
the texts of the one before it have been made, and the next derivation is only searched for when the
one before it has been linearized. All readings go to one store, and what is counted goes on being
counted. An error then ends everything before the readings after it are looked for.

- `Grammar.renditionsInTurn`: the renditions of a line.
-/

namespace Polyglot

namespace Rendition

/-- The texts of an expression at a field, for so many of the derivations that are still to come. -/
def textsInTurn (l : Linearizer) (symbols : SymbolStore) (e : Expr) (field : Nat) :
    Nat → Concretizations → Counters → Except Stop (List String × Counters)
  | 0, _, counters => return ([], counters)
  | limit + 1, c, counters => do
    let (d?, c, counters) ← ofSearch (c.next? l e counters)
    match d? with
    | none => return ([], counters)
    | some d =>
      let text ← (ofLinearizer (l.tokens symbols d field)).map unwords
      let (texts, counters) ← textsInTurn l symbols e field limit c counters
      return (text :: texts, counters)

/-- The rendition of a reading, and what has been counted after it. -/
def ofReadingInTurn (l : Linearizer) (symbols : SymbolStore) (options : RenditionOptions)
    (exprs : ExprStore) (counters : Counters) (id : ExprId) :
    Except Stop (Rendition × Counters) := do
  let tree := match exprs.text symbols id with
    | .ok text => text
    | .error _ => "<expr " ++ toString id.index ++ ">"
  match exprs.expr? id with
  | none => return (⟨tree, []⟩, counters)
  | some e =>
    let (outputs, counters) ←
      textsInTurn l symbols e options.toField options.maxConcretizations {} counters
    return (⟨tree, outputs⟩, counters)

/-- The renditions of so many of the readings that are still to come. -/
def readingsInTurn (l : Linearizer) (symbols : SymbolStore) (options : RenditionOptions)
    (chart : Chart) : Nat → Readings → ExprStore → Counters → Except Stop (List Rendition)
  | 0, _, _, _ => return []
  | limit + 1, r, exprs, counters => do
    let (id?, r, exprs, counters) ← ofSearch (r.next? chart exprs counters)
    match id? with
    | none => return []
    | some id =>
      let (rendition, counters) ← ofReadingInTurn l symbols options exprs counters id
      let renditions ← readingsInTurn l symbols options chart limit r exprs counters
      return rendition :: renditions

end Rendition

open Rendition in
/-- The renditions of a line, each of them before the next reading is looked for. -/
def Grammar.renditionsInTurn (g : Grammar) (limit : Nat) (symbols : SymbolStore)
    (source target line : String) (options : RenditionOptions) : Except Stop (List Rendition) := do
  let some category := options.category.or g.startCategory?
    | throw (.error .noStartCategory)
  let some sourceSyntax := g.resolveConcrete? symbols source
    | throw (.error (.parse (.unknownLanguage source)))
  let some targetSyntax := g.resolveConcrete? symbols target
    | throw (.error (.linearize (.unknownLanguage target)))
  match Chart.parse limit symbols sourceSyntax category options.fromField {} with
  | (.error (.error e), _) => throw (.error (.parse e))
  | (.error (.halt h), _) => throw (.halt h)
  | (.ok chart, counters) =>
    let (chart, counters) ← feedAll limit symbols 0 chart counters (Text.words line)
    readingsInTurn (.ofConcrete g targetSyntax) symbols options chart options.maxTrees {} {}
      counters

end Polyglot
