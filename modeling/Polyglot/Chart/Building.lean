import Polyglot.Chart.Basic
import Polyglot.Counters

/-!
# Building a step of a chart

A step is built by working off an agenda of items, the last one put there first. An item that needs
a field of a category is stored to wait for it, and predicts it; an item that needs a token is
stored to wait for it; an item that is complete adds its production to the category that completes
its item set, and all that waits for that category goes on.

Prediction and completion may come in any order: an item that begins to wait for a category which is
complete already goes on at once, and a production that is added to a category after fields of it
were predicted is started for each of these.

- `Building.process`: what is done with one item.
- `Building.run`: works off the agenda; `limit` bounds the number of items.
-/

namespace Polyglot

namespace Chart

/-- What goes wrong when items and grammar do not fit together. -/
inductive Fault where
  /-- An item that is fed a token does not wait for one. -/
  | notAtToken
  /-- A production lacks the field that was predicted. -/
  | missingField (field : Nat) (fn : FunId)
  /-- A constituent reads an argument that the production does not have. -/
  | missingArgument (arg : Nat)
  /-- An item that waits for a category does not need one. -/
  | notAtCategory
  /-- A reference leads nowhere. -/
  | danglingReference
  deriving DecidableEq, Repr

/-- The wording of a fault. -/
def Fault.message : Fault → String
  | .notAtToken => "scanned item is not waiting for a token"
  | .missingField field fn =>
    "field " ++ toString field ++ " missing from function FunId(" ++ toString fn.index ++ ")"
  | .missingArgument arg => "symbol refers to missing argument " ++ toString arg
  | .notAtCategory => "waiting item is not at a category symbol"
  | .danglingReference => "dangling reference"

end Chart

open Chart (Fault)

/-- What an item needs next. A coercion reads the predicted field of its only argument. -/
def Concrete.need (c : Concrete) (item : Item) : Except Fault Item.Need :=
  match item.production with
  | .coerce _ => .ok (if item.dot = 0 then .category 0 item.field else .complete)
  | .apply fn _ =>
    match c.sequenceOf? fn item.field with
    | none => .error (.missingField item.field fn)
    | some s =>
      match s[item.dot]? with
      | none => .ok .complete
      | some constituent => .ok (.ofConstituent constituent)

/-- A step in the making. -/
structure Building where
  concrete : Concrete
  /-- The steps before this one. -/
  history : Array Step
  step : Step
  /-- Items to be processed, the next one first. -/
  agenda : List Item := []
  counters : Counters
  /-- The first thing that went wrong. -/
  fault : Option Fault := none

namespace Building

/-- The position of the step. -/
def index (b : Building) : Nat := b.history.size

/-- An empty step after the given ones. -/
def start (concrete : Concrete) (history : Array Step) (token : Option Sym) (counters : Counters) :
    Building :=
  let firstId := (history.back?.map Step.nextId).getD InstanceId.firstSynthetic
  { concrete, history, step := { token, firstId }, counters }

/-- Something went wrong; only the first time counts. -/
def fail (b : Building) (f : Fault) : Building := { b with fault := b.fault.or (some f) }

/-! ## References -/

/-- The step at a position, this one included. -/
def step? (b : Building) (i : Nat) : Option Step :=
  if i = b.index then some b.step else b.history[i]?

/-- The stored item that a reference leads to. -/
def item? (b : Building) (r : ItemRef) : Option Item := (b.step? r.step).bind (·.items[r.idx]?)

/-- The item set that a reference leads to. -/
def itemSet? (b : Building) (r : ItemSetRef) : Option ItemSet :=
  (b.step? r.step).bind (·.itemSets[r.idx]?)

/-- The chart category with an id. -/
def category? (b : Building) (id : ChartCatId) : Option ChartCat :=
  (b.step? id.step).bind (·.cats[id.idx]?)

/-- The number of fields of a category; one that is not known has none. -/
def fieldCount (b : Building) : CatRef → Nat
  | .grammar id => (b.concrete.fieldCount? id).getD 0
  | .chart id => ((b.category? id).map ChartCat.fieldCount).getD 0

/-- The productions of a category; one of which nothing is known has none. -/
def productions (b : Building) : CatRef → List ChartProduction
  | .grammar id => ((b.concrete.productions? id).getD []).map ChartProduction.ofGrammar
  | .chart id => ((b.category? id).map ChartCat.productions).getD []

/-! ## Operations -/

/-- Puts an item on the agenda. -/
def push (b : Building) (item : Item) : Building := { b with agenda := item :: b.agenda }

/-- Stores an item to wait. -/
def store (b : Building) (item : Item) : ItemRef × Building :=
  (⟨b.index, b.step.items.size⟩, { b with step.items := b.step.items.push item })

/-- An item waits for a token. -/
def waitFor (b : Building) (token : Sym) (item : Item) : Building :=
  let (r, b) := b.store item
  { b with step.transitions := b.step.transitions ++ [(token, r.idx)] }

/-- Adds an item set. -/
def addItemSet (b : Building) (set : ItemSet) : ItemSetRef × Building :=
  (⟨b.index, b.step.itemSets.size⟩, { b with step.itemSets := b.step.itemSets.push set })

/-- Starts an item for every production of a category. -/
def expand (b : Building) (set : ItemSetRef) (cat : CatRef) (field : Nat) : Building :=
  let b := { b with counters.predictions := b.counters.predictions + 1 }
  (b.productions cat).foldl (fun b production => b.push { set, production, field }) b

/-- A waiting item goes on with a completed category as its argument. -/
def combine (b : Building) (waiting : ItemRef) (done : ChartCatId) : Building :=
  match b.item? waiting with
  | none => b.fail .danglingReference
  | some item =>
    match b.concrete.need item with
    | .error f => b.fail f
    | .ok (.category arg _) =>
      let b := { b with counters.combinations := b.counters.combinations + 1 }
      b.push { item with production := item.production.bind arg (.chart done) }.advanced
    | .ok _ => b.fail .notAtCategory

/-- An item waits for a field of a category. If the field was predicted before, the item joins its
item set, and goes on at once if that is complete. -/
def awaitCategory (b : Building) (item : Item) (cat : CatRef) (field : Nat) : Building :=
  let (waiting, b) := b.store item
  match b.step.findItemSet? cat field with
  | some i =>
    let join (set : ItemSet) : ItemSet := { set with waiting := set.waiting ++ [waiting] }
    let b := { b with step.itemSets := b.step.itemSets.modify i join }
    match b.step.findCategory? ⟨b.index, i⟩ with
    | some done => b.combine waiting ⟨b.index, done⟩
    | none => b
  | none =>
    let (set, b) := b.addItemSet { cat, field, top := false, waiting := [waiting] }
    b.expand set cat field

/-- An item needs a field of an argument. -/
def predict (b : Building) (item : Item) (arg field : Nat) : Building :=
  match item.production.args[arg]? with
  | none => b.fail (.missingArgument arg)
  | some cat => b.awaitCategory item cat field

/-- An item needs one of several forms. Before the first token, forms with the same tokens are tried
once, and an empty form needs nothing. -/
def awaitVariants (b : Building) (v : Variants) (item : Item) : Building :=
  if 0 < item.word then
    match (v.form? item.form).bind (·[item.word]?) with
    | some token => b.waitFor token item
    | none => b
  else
    v.distinctForms.foldl
      (fun b (tokens, form) =>
        match tokens with
        | token :: _ => b.waitFor token { item with form }
        | [] => b.push item.advanced)
      b

/-- Adds a production to a category of this step, unless it has it already. For the fields of the
category that were predicted here, the production is started. -/
def pack (b : Building) (idx : Nat) (cat : ChartCat) (production : ChartProduction) : Building :=
  if production ∈ cat.productions then b
  else
    let add (cat : ChartCat) : ChartCat :=
      { cat with productions := cat.productions ++ [production] }
    let b := { b with step.cats := b.step.cats.modify idx add }
    (List.range cat.fieldCount).foldl
      (fun b field =>
        match b.step.findItemSet? (.chart ⟨b.index, idx⟩) field with
        | some set => b.push { set := ⟨b.index, set⟩, production, field }
        | none => b)
      b

/-- Adds the category that completes an item set, and lets all that waits for it go on. -/
def addCategory (b : Building) (ref : ItemSetRef) (set : ItemSet) (production : ChartProduction) :
    Building :=
  let done : ChartCatId := ⟨b.index, b.step.cats.size⟩
  let cat : ChartCat :=
    { id := ⟨b.step.nextId⟩
      set := ref
      cat := set.cat
      field := set.field
      fieldCount := b.fieldCount set.cat
      productions := [production] }
  let b := { b with
    step.cats := b.step.cats.push cat
    step.completed := if set.top then b.step.completed ++ [done] else b.step.completed
    counters.syntheticCategories := b.counters.syntheticCategories + 1 }
  set.waiting.foldl (fun b waiting => b.combine waiting done) b

/-- An item is complete. -/
def complete (b : Building) (item : Item) : Building :=
  let b := { b with counters.completions := b.counters.completions + 1 }
  match b.step.findCategory? item.set with
  | some idx =>
    match b.step.cats[idx]? with
    | some cat => b.pack idx cat item.production
    | none => b.fail .danglingReference
  | none =>
    match b.itemSet? item.set with
    | some set => b.addCategory item.set set item.production
    | none => b.fail .danglingReference

/-- Does what an item needs. -/
def process (b : Building) (item : Item) : Building :=
  let b := { b with counters.items := b.counters.items + 1 }
  match b.concrete.need item with
  | .error f => b.fail f
  | .ok .complete => b.complete item
  | .ok (.category arg field) => b.predict item arg field
  | .ok .stall => b
  | .ok (.tokens tokens) =>
    match tokens[item.word]? with
    | some token => b.waitFor token item
    | none => b.push item.advanced
  | .ok (.variants v) => b.awaitVariants v item

/-! ## Where the agenda comes from -/

/-- Predicts a field of instances as the goal of the whole input. -/
def predictTop (b : Building) (ids : List InstanceId) (field : Nat) : Building :=
  ids.foldl
    (fun b id =>
      match b.step.findItemSet? (.grammar id) field with
      | some _ => b
      | none =>
        let (set, b) := b.addItemSet { cat := .grammar id, field, top := true, waiting := [] }
        b.expand set (.grammar id) field)
    b

/-- Moves an item of the step before over the token it waited for. -/
def scan (b : Building) (item : Item) : Building :=
  let move (length : Nat) : Building :=
    let b := { b with counters.scans := b.counters.scans + 1 }
    let item := { item with word := item.word + 1 }
    b.push (if length ≤ item.word then item.advanced else item)
  match b.concrete.need item with
  | .error f => b.fail f
  | .ok (.tokens tokens) => move tokens.length
  | .ok (.variants v) => move ((v.form? item.form).getD []).length
  | .ok _ => b.fail .notAtToken

/-! ## Working off the agenda -/

/-- One round of work; none when there is nothing left to do or something went wrong. -/
def next? (b : Building) : Option Building :=
  match b.fault, b.agenda with
  | none, item :: agenda => some ({ b with agenda }.process item)
  | _, _ => none

/-- Works until there is nothing left to do, in at most `limit` rounds; none if these are not
enough. -/
def run : Nat → Building → Option Building
  | 0, b => if b.next?.isNone then some b else none
  | limit + 1, b =>
    match b.next? with
    | none => some b
    | some b => run limit b

/-- Why a step was not built to its end. -/
inductive Halt where
  | fault (f : Fault)
  /-- The agenda was not empty after as many rounds as were allowed. -/
  | exhausted
  deriving DecidableEq, Repr

/-- The finished step, and the counters. -/
def finish (limit : Nat) (b : Building) : Except Halt Step × Counters :=
  match b.run limit with
  | none => (.error .exhausted, b.counters)
  | some b =>
    match b.fault with
    | some f => (.error (.fault f), b.counters)
    | none => (.ok b.step, b.counters)

end Building

end Polyglot
