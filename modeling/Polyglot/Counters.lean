import Polyglot.Double.Text

/-!
# Counters of parsing and generation

`Counters` says how much work a session has done: the chart parser counts items and what it does
with them, the enumerations count trees, attempts and failures. `Counters.report` is the summary in
words.
-/

namespace Polyglot

/-- How often each thing has happened. -/
structure Counters where
  /-- Fields of category instances predicted for the first time at a position. -/
  predictions : Nat := 0
  /-- Items that reached the end of their sequence. -/
  completions : Nat := 0
  /-- Items advanced over a token. -/
  scans : Nat := 0
  /-- Waiting items advanced over a completed category. -/
  combinations : Nat := 0
  /-- Items taken from an agenda. -/
  items : Nat := 0
  /-- Chart categories created by completion. -/
  syntheticCategories : Nat := 0
  /-- Tokens that no item was waiting for. -/
  rejectedTokens : Nat := 0
  /-- Trees read off charts. -/
  parseTrees : Nat := 0
  /-- Walks in search of a derivation. -/
  concretizeAttempts : Nat := 0
  /-- Walks that met a dead end. -/
  concretizeFailures : Nat := 0
  /-- Advances to the next walk. -/
  backtracks : Nat := 0
  /-- Derivations found. -/
  concreteTrees : Nat := 0
  deriving DecidableEq, Repr

namespace Counters

instance : Inhabited Counters := ⟨{}⟩

/-- All counters with their names, in the order in which they are listed. -/
def toList (c : Counters) : List (String × Nat) :=
  [("predictions", c.predictions), ("completions", c.completions), ("scans", c.scans),
    ("combinations", c.combinations), ("items", c.items),
    ("synthetic_categories", c.syntheticCategories), ("rejected_tokens", c.rejectedTokens),
    ("parse_trees", c.parseTrees), ("concretize_attempts", c.concretizeAttempts),
    ("concretize_failures", c.concretizeFailures), ("backtracks", c.backtracks),
    ("concrete_trees", c.concreteTrees)]

/-- The share of walks that found a derivation; all of them if there were none. -/
def successRate (c : Counters) : Float :=
  if c.concretizeAttempts = 0 then 1.0
  else
    (c.concretizeAttempts - c.concretizeFailures).toUInt64.toFloat /
      c.concretizeAttempts.toUInt64.toFloat

/-- The share of successful walks in percent, with one place. -/
def successPercent (c : Counters) : String :=
  let (num, den) := Double.ratio (Double.ofFloat (c.successRate * 100.0)).magnitude
  Double.fixedText 1 num den

/-- The summary, a line for each counter. -/
def report (c : Counters) : String :=
  String.join
    [ "=== Chart ===\n"
    , "Items:              ", toString c.items, "\n"
    , "Predictions:        ", toString c.predictions, "\n"
    , "Completions:        ", toString c.completions, "\n"
    , "Scans:              ", toString c.scans, "\n"
    , "Combinations:       ", toString c.combinations, "\n"
    , "Synthetic cats:     ", toString c.syntheticCategories, "\n"
    , "Rejected tokens:    ", toString c.rejectedTokens, "\n"
    , "Parse trees:        ", toString c.parseTrees, "\n"
    , "=== Generation ===\n"
    , "Attempts:           ", toString c.concretizeAttempts, " (",
      toString c.concretizeFailures, " failed, ", c.successPercent, "% success)\n"
    , "Backtracks:         ", toString c.backtracks, "\n"
    , "Concrete trees:     ", toString c.concreteTrees, "\n" ]

/-- The counters on one line, by name. -/
def summary (c : Counters) : String :=
  "Metrics(MetricsReport \x7b " ++
    ", ".intercalate (c.toList.map fun (name, n) => name ++ ": " ++ toString n) ++ " \x7d)"

end Counters

end Polyglot
