import Polyglot.Grammar.Basic

/-!
# What a chart is made of

A chart is a sequence of steps, one for every position in the input. An item is a place in one field
of one production; items that wait for the same field of the same category at the same position form
an item set, and all that completes an item set becomes a single chart category. A chart category
can be an argument like any instance of the grammar, so productions refine what they are applied to
as parsing goes on, and several productions of one chart category are so many readings.
-/

namespace Polyglot

/-! ## References -/

/-- A chart category: the step that completed it, and its place there. -/
structure ChartCatId where
  step : Nat
  idx : Nat
  deriving DecidableEq, Repr

/-- A category as an argument: an instance of the grammar, or a category of the chart. -/
inductive CatRef where
  | grammar (id : InstanceId)
  | chart (id : ChartCatId)
  deriving DecidableEq, Repr

/-- An item set: the step that predicted it, and its place there. -/
structure ItemSetRef where
  step : Nat
  idx : Nat
  deriving DecidableEq, Repr

/-- A stored item: the step that it waits in, and its place there. -/
structure ItemRef where
  step : Nat
  idx : Nat
  deriving DecidableEq, Repr

/-! ## Productions and items -/

/-- A production over arguments from the grammar or the chart. -/
inductive ChartProduction where
  | apply (fn : FunId) (args : List CatRef)
  | coerce (cat : CatRef)
  deriving DecidableEq, Repr

namespace ChartProduction

/-- A production of the grammar, none of whose arguments has been seen yet. -/
def ofGrammar : Production → ChartProduction
  | .apply fn args => .apply fn (args.map CatRef.grammar)
  | .coerce target => .coerce (.grammar target)

/-- The arguments. A coercion has one. -/
def args : ChartProduction → List CatRef
  | .apply _ args => args
  | .coerce cat => [cat]

/-- The same production with one argument replaced. -/
def bind (p : ChartProduction) (arg : Nat) (cat : CatRef) : ChartProduction :=
  match p with
  | .apply fn args => .apply fn (args.set arg cat)
  | .coerce _ => .coerce cat

end ChartProduction

/-- A place in one field of one production. -/
structure Item where
  /-- The item set that the production was predicted for. -/
  set : ItemSetRef
  production : ChartProduction
  field : Nat
  /-- The constituent that comes next. -/
  dot : Nat := 0
  /-- The token of it that comes next. -/
  word : Nat := 0
  /-- The form of it, if it has several. -/
  form : Nat := 0
  deriving DecidableEq, Repr

namespace Item

/-- Past the constituent that came next. -/
def advanced (i : Item) : Item := { i with dot := i.dot + 1, word := 0, form := 0 }

/-- What has to come next for an item to go on. -/
inductive Need where
  /-- Nothing: the field is complete. -/
  | complete
  /-- A field of an argument. -/
  | category (arg field : Nat)
  /-- Something that no parse provides: a literal or a bound variable. -/
  | stall
  | tokens (tokens : List Sym)
  | variants (variants : Variants)
  deriving DecidableEq, Repr

/-- What a constituent needs. -/
def Need.ofConstituent : Constituent → Need
  | .sub arg field => .category arg field
  | .lit .. | .var .. => .stall
  | .tokens ts => .tokens ts
  | .variants v => .variants v

end Item

/-! ## Steps -/

/-- The items that wait for a field of a category predicted at a position. -/
structure ItemSet where
  cat : CatRef
  field : Nat
  /-- Whether completing it completes the whole input. -/
  top : Bool
  waiting : List ItemRef
  deriving DecidableEq, Repr

/-- A category completed by the items of an item set. -/
structure ChartCat where
  /-- Its number. -/
  id : InstanceId
  /-- The item set that it completes. -/
  set : ItemSetRef
  /-- The category that it refines. -/
  cat : CatRef
  /-- The field that was completed. -/
  field : Nat
  fieldCount : Nat
  productions : List ChartProduction
  deriving DecidableEq, Repr

/-- What happened at one position. -/
structure Step where
  /-- The token that led here; none at the start. -/
  token : Option Sym
  /-- The number of the first category of this step. -/
  firstId : Int
  items : Array Item := #[]
  itemSets : Array ItemSet := #[]
  cats : Array ChartCat := #[]
  /-- Items of this step that wait for a token, in the order in which they began to wait. -/
  transitions : List (Sym × Nat) := []
  /-- Categories that span the whole input. -/
  completed : List ChartCatId := []
  deriving DecidableEq, Repr

namespace Step

/-- The number of the next category: numbers go down. -/
def nextId (s : Step) : Int := s.firstId - s.cats.size

/-- The items that wait for a token. -/
def waitingFor (s : Step) (token : Sym) : List Nat :=
  (s.transitions.filter (·.1 = token)).map (·.2)

/-- The place of the item set of a field of a category. -/
def findItemSet? (s : Step) (cat : CatRef) (field : Nat) : Option Nat :=
  s.itemSets.findIdx? fun set => set.cat = cat && set.field = field

/-- The place of the category that completes an item set. -/
def findCategory? (s : Step) (set : ItemSetRef) : Option Nat :=
  s.cats.findIdx? fun cat => cat.set = set

end Step

end Polyglot
