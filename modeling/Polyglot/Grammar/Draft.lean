import Polyglot.Grammar.Declaration
import Polyglot.Grammar.Error

/-!
# Grammars in the making

Declarations are taken in one by one. A `ConcreteDraft` is a concrete syntax so far, a `Draft` a
grammar so far; both intern the names they meet. What cannot be done is remembered and reported when
the grammar is finished, and only the first such error counts.

- `ConcreteDraft.declare`: takes in a declaration and says what it made.
- `Draft.declare`: the same for a whole grammar.
-/

namespace Polyglot

/-- What a declaration made. -/
inductive Made where
  | nothing
  | coercion (id : InstanceId)
  | instances (ids : List InstanceId)
  | sequence (id : SeqId)
  | function (id : FunId)
  deriving DecidableEq, Repr

/-- A concrete syntax so far. -/
structure ConcreteDraft where
  symbols : SymbolStore
  concrete : Concrete
  /-- The first thing that could not be done. -/
  error : Option GrammarError := none

namespace ConcreteDraft

/-- Interns the words of a constituent. -/
def internConstituent (symbols : SymbolStore) : WrittenConstituent → Constituent × SymbolStore
  | .sub arg field => (.sub arg field, symbols)
  | .lit arg field => (.lit arg field, symbols)
  | .var arg index => (.var arg index, symbols)
  | .tokens words =>
    let (tokens, symbols) := symbols.internAll words
    (.tokens tokens, symbols)
  | .variants base alternatives =>
    let (base, symbols) := symbols.internAll base
    let (alternatives, symbols) := internAlternatives symbols alternatives
    (.variants ⟨base, alternatives⟩, symbols)
where
  /-- Interns the words of alternatives, in order. -/
  internAlternatives (symbols : SymbolStore) :
      List (List String × List String) → List Alternative × SymbolStore
    | [] => ([], symbols)
    | (words, triggers) :: rest =>
      let (tokens, symbols) := symbols.internAll words
      let (alternatives, symbols) := internAlternatives symbols rest
      (⟨tokens, triggers⟩ :: alternatives, symbols)

/-- Interns the words of a sequence. -/
def internSequence (symbols : SymbolStore) : List WrittenConstituent → Sequence × SymbolStore
  | [] => ([], symbols)
  | c :: cs =>
    let (c, symbols) := internConstituent symbols c
    let (cs, symbols) := internSequence symbols cs
    (c :: cs, symbols)

/-- Interns the words of several sequences. -/
def internSequences (symbols : SymbolStore) :
    List (List WrittenConstituent) → List Sequence × SymbolStore
  | [] => ([], symbols)
  | s :: ss =>
    let (s, symbols) := internSequence symbols s
    let (ss, symbols) := internSequences symbols ss
    (s :: ss, symbols)

/-- Adds an instance. -/
def addInstance (c : Concrete) (i : Instance) : InstanceId × Concrete :=
  (.ofIndex c.instances.length, { c with instances := c.instances ++ [i] })

/-- Adds a sequence, unless it is there already. -/
def addSequence (c : Concrete) (s : Sequence) : SeqId × Concrete :=
  match c.sequences.findIdx? (· == s) with
  | some i => (⟨i⟩, c)
  | none => (⟨c.sequences.length⟩, { c with sequences := c.sequences ++ [s] })

/-- Adds several sequences in order. -/
def addSequences (c : Concrete) : List Sequence → List SeqId × Concrete
  | [] => ([], c)
  | s :: ss =>
    let (id, c) := addSequence c s
    let (ids, c) := addSequences c ss
    (id :: ids, c)

/-- Adds a concrete function. -/
def addFunction (c : Concrete) (f : ConcreteFunction) : FunId × Concrete :=
  (⟨c.funs.length⟩, { c with funs := c.funs ++ [f] })

/-- Adds instances to a concrete category; it keeps the labels of its first declaration. -/
def addToCategory (c : Concrete) (name : Sym) (ids : List InstanceId) (labels : List String) :
    Concrete :=
  if c.cats.any (·.name = name) then
    { c with
      cats := c.cats.map fun cat =>
        if cat.name = name then { cat with instances := cat.instances ++ ids } else cat }
  else { c with cats := c.cats ++ [⟨name, ids, labels⟩] }

/-- Declares instances of a category. -/
def addCategory (c : Concrete) (name : Sym) (count : Nat) (labels : List String) :
    List InstanceId × Concrete :=
  let ids := (List.range count).map fun i => InstanceId.ofIndex (c.instances.length + i)
  let instances := c.instances ++ List.replicate count ⟨some name, labels.length, none⟩
  (ids, addToCategory { c with instances } name ids labels)

/-- Declares an instance that takes over the productions of others. Its category and its number of
fields are those of the first of them. -/
def addCoercion (c : Concrete) (targets : List InstanceId) : InstanceId × Concrete :=
  let productions := some (targets.map Production.coerce)
  match targets.head?.bind c.instance? with
  | some first => addInstance c ⟨first.cat, first.fieldCount, productions⟩
  | none => addInstance c ⟨none, 0, productions⟩

/-- Remembers that productions were added to an instance that was never created. -/
def undefined (d : ConcreteDraft) (id : InstanceId) : ConcreteDraft :=
  { d with error := d.error.or (some (.undefinedInstance (d.symbols.name d.concrete.name) id)) }

/-- Adds productions to an instance, whose productions are known from then on. -/
def addProductions (d : ConcreteDraft) (id : InstanceId) (ps : List Production) : ConcreteDraft :=
  match id.index? with
  | some i =>
    if i < d.concrete.instances.length then
      { d with
        concrete.instances := d.concrete.instances.modify i fun inst =>
          { inst with productions := some (inst.productions.getD [] ++ ps) } }
    else d.undefined id
  | none => d.undefined id

/-- Takes in a declaration and says what it made. -/
def declare (d : ConcreteDraft) : ConcreteDeclaration → Made × ConcreteDraft
  | .flag name value =>
    (.nothing, { d with concrete.flags := d.concrete.flags.set name value })
  | .category name count labels =>
    let (sym, symbols) := d.symbols.intern name
    let (ids, concrete) := addCategory d.concrete sym count labels
    (.instances ids, { d with symbols, concrete })
  | .coercion targets =>
    let (id, concrete) := addCoercion d.concrete targets
    (.coercion id, { d with concrete })
  | .sequence constituents =>
    let (s, symbols) := internSequence d.symbols constituents
    let (id, concrete) := addSequence d.concrete s
    (.sequence id, { d with symbols, concrete })
  | .function name fields =>
    let (sym, symbols) := d.symbols.intern name
    let (id, concrete) := addFunction d.concrete ⟨sym, fields⟩
    (.function id, { d with symbols, concrete })
  | .functionWith name fields =>
    let (ss, symbols) := internSequences d.symbols fields
    let (ids, concrete) := addSequences d.concrete ss
    let (sym, symbols) := symbols.intern name
    let (id, concrete) := addFunction concrete ⟨sym, ids⟩
    (.function id, { d with symbols, concrete })
  | .apply id fn args => (.nothing, d.addProductions id [.apply fn args])
  | .coerce id target => (.nothing, d.addProductions id [.coerce target])
  | .markKnown id => (.nothing, d.addProductions id [])

/-- Takes in declarations in order. -/
def declareAll (d : ConcreteDraft) : List ConcreteDeclaration → List Made × ConcreteDraft
  | [] => ([], d)
  | c :: cs =>
    let (made, d) := d.declare c
    let (mades, d) := declareAll d cs
    (made :: mades, d)

end ConcreteDraft

/-- A grammar so far. -/
structure Draft where
  symbols : SymbolStore
  abs : Abstract
  /-- The probabilities that were fixed; the last one of a function counts. -/
  probabilities : List (Sym × Double) := []
  concretes : List Concrete := []
  /-- The first thing that could not be done. -/
  error : Option GrammarError := none

namespace Draft

/-- A grammar of which nothing is known but its name. -/
def start (name : String) : Draft :=
  let (sym, symbols) := SymbolStore.intern default name
  { symbols, abs := { name := sym } }

/-- Puts an element in the place of the one that it redeclares, or at the end. -/
def redeclare {α : Type} (same : α → Bool) (a : α) (as : List α) : List α :=
  if as.any same then as.map fun b => if same b then a else b else as ++ [a]

/-- Takes in a declaration. For a concrete syntax it says what each of its declarations made. -/
def declare (d : Draft) : Declaration → List Made × Draft
  | .flag name value => ([], { d with abs.flags := d.abs.flags.set name value })
  | .category name context =>
    let (sym, symbols) := d.symbols.intern name
    let (context, symbols) := symbols.internAll context
    let cats := redeclare (·.name = sym) { name := sym, context } d.abs.cats
    ([], { d with symbols, abs.cats := cats })
  | .function name args cat =>
    let (sym, symbols) := d.symbols.intern name
    let (args, symbols) := symbols.internAll args
    let (cat, symbols) := symbols.intern cat
    let funs := redeclare (·.name = sym) { name := sym, args, cat } d.abs.funs
    ([], { d with symbols, abs.funs := funs })
  | .probability fn p =>
    let (sym, symbols) := d.symbols.intern fn
    ([], { d with symbols, probabilities := (sym, p) :: d.probabilities })
  | .concrete name declarations =>
    let (sym, symbols) := d.symbols.intern name
    let (made, c) :=
      ConcreteDraft.declareAll { symbols, concrete := { name := sym } } declarations
    match c.error with
    | none => (made, { d with symbols := c.symbols, concretes := d.concretes ++ [c.concrete] })
    | some e => (made, { d with symbols := c.symbols, error := d.error.or (some e) })

/-- Takes in declarations in order. -/
def declareAll (d : Draft) : List Declaration → List (List Made) × Draft
  | [] => ([], d)
  | c :: cs =>
    let (made, d) := d.declare c
    let (mades, d) := declareAll d cs
    (made :: mades, d)

end Draft

end Polyglot
