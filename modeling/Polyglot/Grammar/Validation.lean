import Polyglot.Grammar.Draft

/-!
# Finishing a grammar

A draft becomes a grammar if all its parts fit together. The checks go from the outside in and stop
at the first thing that does not fit: what could not be done while declaring, categories of abstract
functions, and then, for one concrete syntax after the other, its name, its categories, its
functions and the productions of its instances.

- `Draft.finish`: the checks, and probabilities spread over the functions of each category.
- `WrittenGrammar.build`: from declarations to a grammar.
-/

namespace Polyglot

/-! ## Checks -/

/-- The functions of the abstract syntax use declared categories only. -/
def Abstract.check (symbols : SymbolStore) (a : Abstract) : Except GrammarError Unit :=
  a.funs.forM fun f =>
    (f.args ++ [f.cat]).forM fun cat =>
      if (a.category? cat).isSome then .ok ()
      else .error (.undeclaredCategory (symbols.name f.name) (symbols.name cat))

namespace Concrete

variable (symbols : SymbolStore) (a : Abstract) (c : Concrete)

/-- The concrete categories are declared. -/
def checkCategories : Except GrammarError Unit :=
  c.cats.forM fun cat =>
    if (a.category? cat.name).isSome then .ok ()
    else .error (.undeclaredCategory (symbols.name c.name) (symbols.name cat.name))

/-- A constituent reads an argument that the function has. -/
def checkArgument (fn : String) (arity : Nat) (s : Constituent) : Except GrammarError Unit :=
  match s.arg? with
  | none => .ok ()
  | some arg => if arg < arity then .ok () else .error (.argOutOfRange fn arg arity)

/-- A concrete function is declared, its sequences exist and read arguments that it has. -/
def checkFunction (f : ConcreteFunction) : Except GrammarError Unit :=
  match a.function? f.name with
  | none => .error (.undeclaredFunction (symbols.name f.name))
  | some decl =>
    f.fields.forM fun seq =>
      match c.sequence? seq with
      | none => .error (.unknownSequence (symbols.name f.name) seq)
      | some s => s.forM (checkArgument (symbols.name f.name) decl.arity)

/-- What the sequences of a concrete function read. -/
def readsOf (f : ConcreteFunction) : List (Nat × Nat) :=
  ((f.fields.filterMap c.sequence?).flatten).filterMap Constituent.read?

/-- A field that is read of an argument is there. -/
def checkRead (fn : String) (args : List InstanceId) (read : Nat × Nat) :
    Except GrammarError Unit :=
  let fieldCount := (args[read.1]?.bind c.fieldCount?).getD 0
  if read.2 < fieldCount then .ok ()
  else .error (.fieldOutOfRange fn read.1 read.2 fieldCount)

/-- A production applies an existing function that has as many fields as the instance, to as many
existing instances as it takes arguments, and these have the fields that it reads; or it coerces an
existing instance with as many fields. -/
def checkProduction (id : InstanceId) (fieldCount : Nat) : Production → Except GrammarError Unit
  | .apply fn args =>
    match c.function? fn with
    | none => .error (.unknownFunction id fn)
    | some f => do
      let name := symbols.name f.name
      let arity := ((a.function? f.name).map AbstractFunction.arity).getD 0
      if f.fields.length ≠ fieldCount then
        throw (.fieldArityMismatch id fieldCount f.fields.length)
      if args.length ≠ arity then throw (.argumentCountMismatch name arity args.length)
      args.forM fun arg => if c.hasInstance arg then .ok () else .error (.unknownInstance id arg)
      (c.readsOf f).forM (c.checkRead name args)
  | .coerce target =>
    match c.fieldCount? target with
    | none => .error (.danglingCoercion id target)
    | some n => if n = fieldCount then .ok () else .error (.fieldArityMismatch id fieldCount n)

/-- The known productions of an instance fit. -/
def checkInstance (entry : Instance × Nat) : Except GrammarError Unit :=
  (entry.1.productions.getD []).forM
    (c.checkProduction symbols a (.ofIndex entry.2) entry.1.fieldCount)

/-- All parts of a concrete syntax fit together. -/
def check : Except GrammarError Unit := do
  c.checkCategories symbols a
  c.funs.forM (c.checkFunction symbols a)
  c.instances.zipIdx.forM (c.checkInstance symbols a)

end Concrete

namespace Draft

/-- Each concrete syntax has a name of its own and fits together. -/
def checkConcretes (symbols : SymbolStore) (a : Abstract) :
    List Concrete → List Concrete → Except GrammarError Unit
  | _, [] => .ok ()
  | earlier, c :: cs =>
    if earlier.any (·.name = c.name) then .error (.duplicateConcrete (symbols.name c.name))
    else do
      c.check symbols a
      checkConcretes symbols a (earlier ++ [c]) cs

/-! ## Probabilities -/

/-- What each function without a fixed probability gets when the others are fixed at `fixed`: they
share what is left of 1, if anything is. -/
def share (fixed : List Double) (free : Nat) : Double :=
  if free = 0 then Double.zero
  else
    let total := (fixed.map Double.toFloat).foldl (· + ·) 0.0
    let left := 1.0 - total
    .ofFloat ((if 0.0 < left then left else 0.0) / free.toFloat)

/-- The probability of a function: the one fixed for it, or the share of its category. -/
def probability (fixed : List (Sym × Double)) (funs : List AbstractFunction)
    (f : AbstractFunction) : Double :=
  match fixed.lookup f.name with
  | some p => p
  | none =>
    let names := (funs.filter (·.cat = f.cat)).map AbstractFunction.name
    let free := names.filter fun n => (fixed.lookup n).isNone
    share (names.filterMap fun n => fixed.lookup n) free.length

/-- The abstract syntax with the probabilities of its functions, which are listed by category. -/
def weighted (d : Draft) : Abstract :=
  let funs := d.abs.funs.map fun f =>
    { f with prob := probability d.probabilities d.abs.funs f }
  let cats := d.abs.cats.map fun c =>
    { c with functions := (funs.filter (·.cat = c.name)).map fun f => (f.name, f.prob) }
  { d.abs with funs, cats }

/-- The grammar of a draft, or the first thing wrong with it. -/
def finish (d : Draft) : Except GrammarError Grammar :=
  match d.error with
  | some e => .error e
  | none => do
    d.abs.check d.symbols
    let abs := d.weighted
    checkConcretes d.symbols abs [] d.concretes
    return { abs, concretes := d.concretes }

end Draft

namespace WrittenGrammar

/-- All declarations taken in, and what each of them made. -/
def draft (w : WrittenGrammar) : List (List Made) × Draft :=
  (Draft.start w.name).declareAll w.declarations

/-- The grammar of its declarations. -/
def build (w : WrittenGrammar) : Except GrammarError Grammar := w.draft.2.finish

end WrittenGrammar

end Polyglot
