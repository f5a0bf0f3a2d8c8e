import Polyglot.Grammar.Basic

/-!
# What is wrong with a grammar

The ways in which the declarations of a grammar do not fit together, with their wordings.
-/

namespace Polyglot

/-- A reason not to accept a grammar. Names are spelled out. -/
inductive GrammarError where
  /-- A function or a concrete syntax names a category that was never declared. -/
  | undeclaredCategory (owner cat : String)
  /-- A concrete function has no abstract declaration. -/
  | undeclaredFunction (fn : String)
  /-- A production passes an argument instance that does not exist. -/
  | unknownInstance (id referenced : InstanceId)
  /-- A coercion takes over from an instance that does not exist. -/
  | danglingCoercion (id target : InstanceId)
  /-- The productions of an instance disagree with it on the number of fields. -/
  | fieldArityMismatch (id : InstanceId) (expected found : Nat)
  /-- A production passes another number of arguments than the function takes. -/
  | argumentCountMismatch (fn : String) (expected found : Nat)
  /-- A constituent reads an argument that the function does not have. -/
  | argOutOfRange (fn : String) (arg arity : Nat)
  /-- A constituent reads a field that the argument's instance does not have. -/
  | fieldOutOfRange (fn : String) (arg field fieldCount : Nat)
  /-- A production was added to an instance that was never created. -/
  | undefinedInstance (concrete : String) (id : InstanceId)
  /-- A concrete function names a sequence that does not exist. -/
  | unknownSequence (fn : String) (seq : SeqId)
  /-- A production names a concrete function that does not exist. -/
  | unknownFunction (id : InstanceId) (fn : FunId)
  /-- Two concrete syntaxes have the same name. -/
  | duplicateConcrete (name : String)
  deriving DecidableEq, Repr

/-- The wording of an error. -/
def GrammarError.message : GrammarError → String
  | .undeclaredCategory owner cat => owner ++ " refers to undeclared category " ++ cat
  | .undeclaredFunction fn => "concrete function " ++ fn ++ " has no abstract declaration"
  | .unknownInstance id referenced =>
    "production of " ++ id.text ++ " refers to unknown category instance " ++ referenced.text
  | .danglingCoercion id target =>
    id.text ++ " coerces unknown category instance " ++ target.text
  | .fieldArityMismatch id expected found =>
    id.text ++ " has " ++ toString expected ++ " fields but a production provides " ++
      toString found
  | .argumentCountMismatch fn expected found =>
    fn ++ " takes " ++ toString expected ++ " arguments but a production passes " ++
      toString found
  | .argOutOfRange fn arg arity =>
    fn ++ " refers to argument " ++ toString arg ++ " but has arity " ++ toString arity
  | .fieldOutOfRange fn arg field fieldCount =>
    fn ++ " reads field " ++ toString field ++ " of argument " ++ toString arg ++
      ", which has " ++ toString fieldCount ++ " fields"
  | .undefinedInstance concrete id =>
    concrete ++ " adds a production to undefined category instance " ++ id.text
  | .unknownSequence fn seq => fn ++ " refers to unknown sequence S" ++ toString seq.index
  | .unknownFunction id fn =>
    "production of " ++ id.text ++ " refers to unknown concrete function F" ++ toString fn.index
  | .duplicateConcrete name => "concrete syntax " ++ name ++ " defined twice"

end Polyglot
