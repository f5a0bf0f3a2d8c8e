import Polyglot.Grammar.Basic

/-!
# Declarations

A grammar is given by a list of declarations, with all names and words spelled out. Those of a
concrete syntax come as one declaration of the grammar.
-/

namespace Polyglot

/-- An element of a sequence with its words spelled out. -/
inductive WrittenConstituent where
  | sub (arg field : Nat)
  | lit (arg field : Nat)
  | var (arg index : Nat)
  | tokens (words : List String)
  /-- The words of the base form, and of each alternative together with its triggers. -/
  | variants (base : List String) (alternatives : List (List String × List String))
  deriving DecidableEq, Repr

/-- A declaration of a concrete syntax. -/
inductive ConcreteDeclaration where
  | flag (name value : String)
  /-- So many new instances of a category, with a field for every label. -/
  | category (name : String) (count : Nat) (labels : List String)
  /-- A new instance that takes over the productions of others. -/
  | coercion (targets : List InstanceId)
  | sequence (constituents : List WrittenConstituent)
  /-- A concrete function made of sequences declared before. -/
  | function (name : String) (fields : List SeqId)
  /-- A concrete function together with its sequences. -/
  | functionWith (name : String) (fields : List (List WrittenConstituent))
  | apply (id : InstanceId) (fn : FunId) (args : List InstanceId)
  | coerce (id target : InstanceId)
  /-- The productions of an instance are known, even if there are none. -/
  | markKnown (id : InstanceId)
  deriving DecidableEq, Repr

/-- A declaration of a grammar. -/
inductive Declaration where
  | flag (name value : String)
  | category (name : String) (context : List String)
  | function (name : String) (args : List String) (cat : String)
  /-- The probability of a function; those without one share what is left over. -/
  | probability (fn : String) (p : Double)
  | concrete (name : String) (declarations : List ConcreteDeclaration)
  deriving DecidableEq, Repr

/-- The declarations of a grammar, in order. -/
structure WrittenGrammar where
  name : String
  declarations : List Declaration
  deriving DecidableEq, Repr

end Polyglot
