import Polyglot.Expr.Basic

/-!
# Shared expressions

An `ExprStore` keeps every expression once: a node names its children by their ids, and a node that
was stored before is not stored again. Ids count up from 0, and a node made from ids of the store
comes after all of them.

- `ExprStore.app`, `ExprStore.lit`, `ExprStore.hole`: the id of a node.
- `ExprStore.internExpr`: the id of a whole expression.
- `ExprStore.expr?`: the expression that an id stands for.
-/

namespace Polyglot

/-- The id of a stored expression. -/
structure ExprId where
  index : Nat
  deriving DecidableEq, Repr

namespace ExprStore

/-- A stored expression; its children are ids. -/
inductive Node where
  | app (fn : Sym) (args : List ExprId)
  | lit (value : Literal)
  | hole (index : Nat)
  deriving DecidableEq, Repr

/-- The representative of all nodes that count as equal to this one. -/
def Node.canonical : Node → Node
  | .lit value => .lit value.canonical
  | n => n

end ExprStore

/-- The expressions stored so far; an expression's id is its place among them. -/
structure ExprStore where
  nodes : Array ExprStore.Node := #[]

namespace ExprStore

instance : Inhabited ExprStore := ⟨{}⟩

/-- The number of stored expressions. -/
def size (s : ExprStore) : Nat := s.nodes.size

/-- The node of an id. Ids of other stores may have none. -/
def resolve? (s : ExprStore) (id : ExprId) : Option Node := s.nodes[id.index]?

/-- The id of a node; one that is not equal to a stored one gets the next id. -/
def intern (s : ExprStore) (node : Node) : ExprId × ExprStore :=
  match s.nodes.findIdx? (·.canonical == node.canonical) with
  | some i => (⟨i⟩, s)
  | none => (⟨s.nodes.size⟩, { s with nodes := s.nodes.push node })

/-- The id of an application. -/
def app (s : ExprStore) (fn : Sym) (args : List ExprId) : ExprId × ExprStore :=
  s.intern (.app fn args)

/-- The id of a literal. -/
def lit (s : ExprStore) (value : Literal) : ExprId × ExprStore := s.intern (.lit value)

/-- The id of a hole. -/
def hole (s : ExprStore) (index : Nat) : ExprId × ExprStore := s.intern (.hole index)

/-- The function and the arguments of an application. -/
def application? (s : ExprStore) (id : ExprId) : Option (Sym × List ExprId) :=
  match s.resolve? id with
  | some (.app fn args) => some (fn, args)
  | _ => none

mutual

/-- The id of an expression, all of whose parts are stored, arguments before the application. -/
def internExpr (s : ExprStore) : Expr → ExprId × ExprStore
  | .app fn args =>
    let (ids, s) := s.internExprs args
    s.app fn ids
  | .lit value => s.lit value
  | .hole index => s.hole index

/-- The ids of several expressions, stored in order. -/
def internExprs (s : ExprStore) : List Expr → List ExprId × ExprStore
  | [] => ([], s)
  | e :: es =>
    let (id, s) := s.internExpr e
    let (ids, s) := s.internExprs es
    (id :: ids, s)

end

/-- The expression that an id stands for. A node whose children do not come before it stands for
none. -/
def expr? (s : ExprStore) (id : ExprId) : Option Expr :=
  match s.resolve? id with
  | none => none
  | some (.lit value) => some (.lit value)
  | some (.hole index) => some (.hole index)
  | some (.app fn args) =>
    (args.mapM fun arg => if arg.index < id.index then s.expr? arg else none).map (.app fn)
termination_by id.index

end ExprStore

/-- The strings and the expressions of a session. -/
structure Stores where
  symbols : SymbolStore := default
  exprs : ExprStore := {}

instance : Inhabited Stores := ⟨{}⟩

end Polyglot
