import Polyglot.Double.Basic
import Polyglot.SymbolStore

/-!
# Abstract expressions

An abstract expression is a tree of function applications, with literals and holes at its leaves; a
hole stands for an argument that is not known. `Expr.canonical` picks one expression out of all
those that differ only in what no expression tells apart, namely the sign of a zero and the bits of
something that is not a number.
-/

namespace Polyglot

/-- A value written out in an expression. -/
inductive Literal where
  | str (value : String)
  | int (value : Int)
  | float (value : Double)
  deriving DecidableEq, Repr

/-- The representative of all literals that count as equal to this one. -/
def Literal.canonical : Literal → Literal
  | .float x => .float x.canonical
  | l => l

/-- An abstract expression. -/
inductive Expr where
  | app (fn : Sym) (args : List Expr)
  | lit (value : Literal)
  | hole (index : Nat)
  deriving Repr

mutual

/-- The representative of all expressions that count as equal to this one. -/
def Expr.canonical : Expr → Expr
  | .app fn args => .app fn (Expr.canonicalAll args)
  | .lit value => .lit value.canonical
  | .hole index => .hole index

/-- The representatives of several expressions. -/
def Expr.canonicalAll : List Expr → List Expr
  | [] => []
  | e :: es => e.canonical :: Expr.canonicalAll es

end

end Polyglot
