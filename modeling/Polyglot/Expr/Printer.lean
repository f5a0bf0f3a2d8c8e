import Polyglot.Double.Text
import Polyglot.Expr.Store

/-!
# Writing expressions

An expression is written as a function followed by its arguments, with parentheses around an
argument that is itself applied or that is a negative number: `f (g a) "s" ?0 (-1)`.
-/

namespace Polyglot

/-- A character of a string literal: quotes, backslashes and line ends are escaped. -/
def escapeChar (c : Char) : List Char :=
  if c = '"' then ['\\', '"']
  else if c = '\\' then ['\\', '\\']
  else if c = '\n' then ['\\', 'n']
  else [c]

namespace Literal

/-- The text of a literal. -/
def text : Literal → String
  | .str s => String.ofList ('"' :: (s.toList.map escapeChar).flatten ++ ['"'])
  | .int n => toString n
  | .float x => x.text

/-- Whether a literal is a number below zero. -/
def isNegative : Literal → Bool
  | .str _ => false
  | .int n => n < 0
  | .float x => x.isNegative

end Literal

/-- Why an expression cannot be written. -/
inductive WriteError where
  | unknownExpr (id : ExprId)
  | unknownFunction (fn : Sym)
  deriving DecidableEq, Repr

/-- The wording of an error. Functions are numbered from 1 in it. -/
def WriteError.message : WriteError → String
  | .unknownExpr id => "Unknown expression id ExprId(" ++ toString id.index ++ ")"
  | .unknownFunction fn =>
    "Unknown symbol for function id Spur(" ++ toString (fn.index + 1) ++ ")"

/-- Text in parentheses, if it needs them. -/
def parenthesize (needed : Bool) (text : List Char) : List Char :=
  if needed then '(' :: text ++ [')'] else text

mutual

/-- The text of an expression; `nested` says that it is an argument. -/
def Expr.write (symbols : SymbolStore) (nested : Bool) : Expr → Except WriteError (List Char)
  | .app fn args =>
    match symbols.resolve? fn with
    | none => .error (.unknownFunction fn)
    | some name => do
      let rest ← Expr.writeArgs symbols args
      return parenthesize (nested && !args.isEmpty) (name.toList ++ rest)
  | .lit value => return parenthesize (nested && value.isNegative) value.text.toList
  | .hole index => return '?' :: (toString index).toList

/-- The texts of arguments, each after a space. -/
def Expr.writeArgs (symbols : SymbolStore) : List Expr → Except WriteError (List Char)
  | [] => return []
  | e :: es => do
    let first ← Expr.write symbols true e
    let rest ← Expr.writeArgs symbols es
    return ' ' :: first ++ rest

end

/-- The text of an expression. -/
def Expr.text (symbols : SymbolStore) (e : Expr) : Except WriteError String :=
  (e.write symbols false).map String.ofList

/-- The text of a stored expression. -/
def ExprStore.text (s : ExprStore) (symbols : SymbolStore) (id : ExprId) :
    Except WriteError String :=
  match s.expr? id with
  | none => .error (.unknownExpr id)
  | some e => e.text symbols

/-- The text of a stored expression of a session. -/
def Stores.text (s : Stores) (id : ExprId) : Except WriteError String := s.exprs.text s.symbols id

end Polyglot
