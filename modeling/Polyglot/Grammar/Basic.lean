import Polyglot.Double.Basic
import Polyglot.SymbolStore

/-!
# Multilingual grammars

A grammar has one abstract syntax, which says what there is to be said, and any number of concrete
syntaxes, which say how each language says it.

- `Abstract`: categories, and functions from categories to a category.
- `Concrete`: for every category some *instances*, each a set of productions with the same number of
  fields; and for every function some concrete functions, with one sequence of constituents for
  every field.
- `Production`: an instance is produced by a concrete function applied to argument instances, or it
  takes over the productions of another instance.

A field is a string of its own, so a phrase may consist of several separate pieces: a constituent
names the argument and the field of it that goes in its place.
-/

namespace Polyglot

/-! ## Identifiers -/

/-- An instance of a category. Instances of a concrete syntax count up from 0; the negative numbers
down to -4 are built in, and a chart numbers its own categories from there on down. -/
structure InstanceId where
  val : Int
  deriving DecidableEq, Repr

namespace InstanceId

/-- The built-in instance of string literals. -/
def string : InstanceId := ⟨-1⟩

/-- The built-in instance of integer literals. -/
def int : InstanceId := ⟨-2⟩

/-- The built-in instance of float literals. -/
def float : InstanceId := ⟨-3⟩

/-- The built-in instance of bound variables. -/
def var : InstanceId := ⟨-4⟩

/-- The number of the first category of a chart. -/
def firstSynthetic : Int := -5

/-- Whether an instance is one of the built-in ones. -/
def isLiteral (i : InstanceId) : Bool := var.val ≤ i.val && i.val ≤ string.val

/-- The place of an instance among those of a concrete syntax. -/
def index? (i : InstanceId) : Option Nat := if 0 ≤ i.val then some i.val.toNat else none

/-- The instance at a place. -/
def ofIndex (n : Nat) : InstanceId := ⟨n⟩

/-- How an instance is written. -/
def text (i : InstanceId) : String := "C" ++ toString i.val

end InstanceId

/-- A concrete function, by its place. -/
structure FunId where
  index : Nat
  deriving DecidableEq, Repr

/-- A sequence, by its place. -/
structure SeqId where
  index : Nat
  deriving DecidableEq, Repr

/-! ## Sequences -/

/-- Tokens to be used when the next token begins with one of the triggers. -/
structure Alternative where
  tokens : List Sym
  triggers : List String
  deriving DecidableEq, Repr

/-- Tokens that depend on what follows them. -/
structure Variants where
  /-- The form used when no alternative applies. -/
  base : List Sym
  alternatives : List Alternative
  deriving DecidableEq, Repr

namespace Variants

/-- All forms, the base form first. -/
def forms (v : Variants) : List (List Sym) := v.base :: v.alternatives.map Alternative.tokens

/-- The form with a given number; the base form has number 0. -/
def form? (v : Variants) (i : Nat) : Option (List Sym) := v.forms[i]?

/-- The numbered forms among `forms` whose tokens are not among those seen before, each once. -/
def distinct (seen : List (List Sym)) : List (List Sym × Nat) → List (List Sym × Nat)
  | [] => []
  | (tokens, i) :: rest =>
    if tokens ∈ seen then distinct seen rest
    else (tokens, i) :: distinct (tokens :: seen) rest

/-- The forms with their numbers; of several forms with the same tokens only the first. -/
def distinctForms (v : Variants) : List (List Sym × Nat) := distinct [] v.forms.zipIdx

end Variants

/-- An element of a sequence. -/
inductive Constituent where
  /-- A field of an argument. -/
  | sub (arg field : Nat)
  /-- A field of a literal argument. -/
  | lit (arg field : Nat)
  /-- A variable bound by an argument. -/
  | var (arg index : Nat)
  | tokens (tokens : List Sym)
  | variants (variants : Variants)
  deriving DecidableEq, Repr

namespace Constituent

/-- The argument that a constituent reads. -/
def arg? : Constituent → Option Nat
  | .sub arg _ | .lit arg _ | .var arg _ => some arg
  | .tokens _ | .variants _ => none

/-- The argument and the field that a constituent reads. -/
def read? : Constituent → Option (Nat × Nat)
  | .sub arg field | .lit arg field => some (arg, field)
  | .var .. | .tokens _ | .variants _ => none

end Constituent

/-- What a field is made of, in order. -/
abbrev Sequence := List Constituent

/-! ## Abstract syntax -/

/-- Values of flags by name. -/
abbrev Flags := List (String × String)

namespace Flags

/-- The value of a flag. -/
def get? (flags : Flags) (name : String) : Option String := flags.lookup name

/-- Sets a flag; an earlier value is replaced. -/
def set (flags : Flags) (name value : String) : Flags :=
  flags.filter (·.1 != name) ++ [(name, value)]

end Flags

/-- A category of the abstract syntax. -/
structure AbstractCategory where
  name : Sym
  /-- The categories of the hypotheses in the context. -/
  context : List Sym
  /-- The functions that produce this category, with their probabilities. -/
  functions : List (Sym × Double) := []
  deriving DecidableEq, Repr

/-- A function of the abstract syntax: it makes something of category `cat` out of arguments. -/
structure AbstractFunction where
  name : Sym
  args : List Sym
  cat : Sym
  prob : Double := Double.zero
  deriving DecidableEq, Repr

/-- How many arguments a function takes. -/
def AbstractFunction.arity (f : AbstractFunction) : Nat := f.args.length

/-- The abstract syntax of a grammar. Categories and functions are listed in the order in which they
were first declared. -/
structure Abstract where
  name : Sym
  flags : Flags := []
  cats : List AbstractCategory := []
  funs : List AbstractFunction := []
  deriving DecidableEq, Repr

namespace Abstract

/-- The category with a name. -/
def category? (a : Abstract) (name : Sym) : Option AbstractCategory :=
  a.cats.find? (·.name = name)

/-- The function with a name. -/
def function? (a : Abstract) (name : Sym) : Option AbstractFunction :=
  a.funs.find? (·.name = name)

end Abstract

/-! ## Concrete syntax -/

/-- How an instance comes about. -/
inductive Production where
  | apply (fn : FunId) (args : List InstanceId)
  /-- Takes over the productions of another instance. -/
  | coerce (target : InstanceId)
  deriving DecidableEq, Repr

/-- An instance of a category. Its productions may be unknown, which is not the same as none. -/
structure Instance where
  cat : Option Sym
  fieldCount : Nat
  productions : Option (List Production)
  deriving DecidableEq, Repr

/-- What one language makes of an abstract category. -/
structure ConcreteCategory where
  name : Sym
  instances : List InstanceId
  labels : List String
  deriving DecidableEq, Repr

/-- The number of fields: one for every label. -/
def ConcreteCategory.fieldCount (c : ConcreteCategory) : Nat := c.labels.length

/-- What one language makes of an abstract function: a sequence for every field. -/
structure ConcreteFunction where
  name : Sym
  fields : List SeqId
  deriving DecidableEq, Repr

/-- The concrete syntax of one language. Ids are places in its lists. -/
structure Concrete where
  name : Sym
  flags : Flags := []
  cats : List ConcreteCategory := []
  instances : List Instance := []
  funs : List ConcreteFunction := []
  sequences : List Sequence := []
  deriving DecidableEq, Repr

namespace Concrete

/-- The concrete category with a name. -/
def category? (c : Concrete) (name : Sym) : Option ConcreteCategory :=
  c.cats.find? (·.name = name)

/-- The instance with an id; none for built-in ones and those of charts. -/
def instance? (c : Concrete) (id : InstanceId) : Option Instance :=
  id.index?.bind (c.instances[·]?)

/-- The productions of an instance, if they are known. -/
def productions? (c : Concrete) (id : InstanceId) : Option (List Production) :=
  (c.instance? id).bind Instance.productions

/-- The number of fields of an instance. Built-in ones have one. -/
def fieldCount? (c : Concrete) (id : InstanceId) : Option Nat :=
  if id.isLiteral then some 1 else (c.instance? id).map Instance.fieldCount

/-- Whether an id stands for an instance of this syntax or a built-in one. -/
def hasInstance (c : Concrete) (id : InstanceId) : Bool :=
  id.isLiteral || (c.instance? id).isSome

/-- The concrete function with an id. -/
def function? (c : Concrete) (fn : FunId) : Option ConcreteFunction := c.funs[fn.index]?

/-- The sequence with an id. -/
def sequence? (c : Concrete) (seq : SeqId) : Option Sequence := c.sequences[seq.index]?

/-- The sequence that makes up a field of a concrete function. -/
def sequenceOf? (c : Concrete) (fn : FunId) (field : Nat) : Option Sequence := do
  let f ← c.function? fn
  let seq ← f.fields[field]?
  c.sequence? seq

/-- The field with a label. -/
def fieldIndex? (c : Concrete) (cat : Sym) (label : String) : Option Nat := do
  let category ← c.category? cat
  category.labels.findIdx? (· == label)

/-- The language that the syntax says it is for. -/
def language? (c : Concrete) : Option String := c.flags.get? "language"

end Concrete

/-! ## Grammars -/

/-- An abstract syntax and the languages that it is expressed in. -/
structure Grammar where
  abs : Abstract
  concretes : List Concrete := []
  deriving DecidableEq, Repr

namespace Grammar

variable (g : Grammar) (symbols : SymbolStore)

/-- The concrete syntax with a name. -/
def concrete? (name : String) : Option Concrete :=
  (symbols.find? name).bind fun sym => g.concretes.find? (·.name = sym)

/-- The first concrete syntax for a language. -/
def concreteByLanguage? (language : String) : Option Concrete :=
  g.concretes.find? (·.language? = some language)

/-- The concrete syntax with a name or else for a language. -/
def resolveConcrete? (nameOrLanguage : String) : Option Concrete :=
  (g.concrete? symbols nameOrLanguage).or (g.concreteByLanguage? nameOrLanguage)

/-- The category that a text belongs to when nothing else is said. -/
def startCategory? : Option String := g.abs.flags.get? "startcat"

end Grammar

end Polyglot
