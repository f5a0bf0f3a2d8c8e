import Polyglot.Counters
import Polyglot.Expr.Basic
import Polyglot.Generation.Index
import Polyglot.Search
import Polyglot.Unvisited

/-!
# Derivations of an expression

A derivation says, for every application in an expression, which production of the concrete syntax
makes it. An argument may be passed as any instance that takes over the productions of its own one,
over any number of steps, so a search goes up from the instance of each argument before it looks for
productions of the function.

- `Index.climb`: the ways up from an instance, without coming to an instance twice.
- `Linearizer.derivations`: all derivations of an expression, as a tree of decisions.
- `Concretizations.next?`: the derivations one by one, each once.
-/

namespace Polyglot

/-- A derivation of an expression. -/
inductive Derivation where
  /-- An application: the instance and the concrete function of the production, and the name of the
  function. -/
  | app (id : InstanceId) (fn : FunId) (name : Sym) (args : List Derivation)
  | lit (id : InstanceId) (value : Literal)
  /-- Stands for an argument that is not known. -/
  | hole (index : Nat)
  deriving Repr

namespace Derivation

/-- The instance of the root; a hole has none. -/
def root? : Derivation → Option InstanceId
  | .app id .. => some id
  | .lit id _ => some id
  | .hole _ => none

/-- The built-in instance of a literal. -/
def literalInstance : Literal → InstanceId
  | .str _ => .string
  | .int _ => .int
  | .float _ => .float

/-- The derivation of a literal. -/
def ofLiteral (value : Literal) : Derivation := .lit (literalInstance value) value

mutual

/-- The representative of all derivations that count as equal to this one. -/
def canonical : Derivation → Derivation
  | .app id fn name args => .app id fn name (canonicalAll args)
  | .lit id value => .lit id value.canonical
  | .hole index => .hole index

/-- The representatives of several derivations. -/
def canonicalAll : List Derivation → List Derivation
  | [] => []
  | d :: ds => d.canonical :: canonicalAll ds

end

mutual

/-- Whether two derivations are the same. -/
def decEq : (a b : Derivation) → Decidable (a = b)
  | .app i f n as, .app j g m bs =>
    match decEqAll as bs with
    | isTrue h => decidable_of_iff (i = j ∧ f = g ∧ n = m) (by simp [h])
    | isFalse h => isFalse (by simp [h])
  | .lit i v, .lit j w => decidable_of_iff (i = j ∧ v = w) (by simp)
  | .hole i, .hole j => decidable_of_iff (i = j) (by simp)
  | .app .., .lit .. => isFalse (by simp)
  | .app .., .hole _ => isFalse (by simp)
  | .lit .., .app .. => isFalse (by simp)
  | .lit .., .hole _ => isFalse (by simp)
  | .hole _, .app .. => isFalse (by simp)
  | .hole _, .lit .. => isFalse (by simp)

/-- Whether two lists of derivations are the same. -/
def decEqAll : (as bs : List Derivation) → Decidable (as = bs)
  | [], [] => isTrue rfl
  | a :: as, b :: bs =>
    match decEq a b with
    | isTrue h => match decEqAll as bs with
      | isTrue hs => isTrue (by rw [h, hs])
      | isFalse hs => isFalse (by simp [hs])
    | isFalse h => isFalse (by simp [h])
  | [], _ :: _ => isFalse (by simp)
  | _ :: _, [] => isFalse (by simp)

end

instance : DecidableEq Derivation := decEq

end Derivation

namespace Index

/-- All instances that take over productions of others. -/
def takers (index : Index) : List InstanceId := (index.coercions.map (·.2)).flatten

theorem mem_takers_of_mem_supers {index : Index} {id g : InstanceId} (h : g ∈ index.supers id) :
    g ∈ index.takers := by
  unfold supers at h
  cases hl : index.coercions.lookup id with
  | none => simp [hl] at h
  | some gs =>
    rw [hl, Option.getD_some] at h
    rw [List.lookup_eq_some_iff] at hl
    obtain ⟨l₁, l₂, hl, -⟩ := hl
    exact List.mem_flatten.2 ⟨gs, List.mem_map.2 ⟨(id, gs), by simp [hl], rfl⟩, h⟩

/-- The ways up from an instance `id` that was come to over `path`: staying comes first. A way that
comes to an instance twice is a dead end. The result is the instance at the top and the number of
steps. -/
def climbFrom (index : Index) (path : List InstanceId) (id : InstanceId) :
    Decision (InstanceId × Nat) :=
  .choose ((index.supers id).length + 1) fun
    | ⟨0, _⟩ => .leaf (id, path.length)
    | ⟨i + 1, hi⟩ =>
      have hi : i < (index.supers id).length := Nat.lt_of_succ_lt_succ hi
      if hg : (index.supers id)[i] ∈ id :: path then .fail
      else
        have := unvisited_cons_lt (mem_takers_of_mem_supers (List.getElem_mem hi)) hg
        index.climbFrom (id :: path) (index.supers id)[i]
termination_by unvisited index.takers (id :: path)

/-- The ways up from an instance. -/
def climb (index : Index) (id : InstanceId) : Decision (InstanceId × Nat) := index.climbFrom [] id

end Index

/-- What is needed to generate from expressions in one language. -/
structure Linearizer where
  abs : Abstract
  concrete : Concrete
  index : Index

namespace Linearizer

/-- The linearizer for a concrete syntax of a grammar. -/
def ofConcrete (g : Grammar) (c : Concrete) : Linearizer := ⟨g.abs, c, .ofConcrete c⟩

/-- How the instance of an argument is passed on: any way up, or unknown. -/
def passed (l : Linearizer) (id? : Option InstanceId) : Decision (Option InstanceId) :=
  match id? with
  | none => .leaf none
  | some id => (l.index.climb id).bind fun (top, _) => .leaf (some top)

mutual

/-- All derivations of an expression. -/
def derivations (l : Linearizer) : Expr → Decision Derivation
  | .hole index => .leaf (.hole index)
  | .lit value => .leaf (.ofLiteral value)
  | .app name args =>
    match l.abs.function? name with
    | none => .fail
    | some decl =>
      if decl.arity ≠ args.length then .fail
      else
        (l.argDerivations args).bind fun (derivations, pattern) =>
          (Decision.ofList (l.index.matching name pattern)).bind fun entry =>
            .leaf (.app entry.id entry.fn name derivations)

/-- All derivations of arguments, together with the instances that they are passed as. -/
def argDerivations (l : Linearizer) :
    List Expr → Decision (List Derivation × List (Option InstanceId))
  | [] => .leaf ([], [])
  | e :: es =>
    (l.derivations e).bind fun d =>
      (l.passed d.root?).bind fun p =>
        (l.argDerivations es).bind fun (ds, ps) => .leaf (d :: ds, p :: ps)

end

end Linearizer

/-- Where an enumeration of derivations stands. -/
structure Concretizations where
  search : Search := {}
  /-- The derivations that it has yielded, up to what counts as equal. -/
  seen : List Derivation := []

namespace Concretizations

/-- Counts a round, and yields a derivation that was not seen before. -/
def accept (d? : Option Derivation) (s : List Derivation × Counters) :
    Option Derivation × List Derivation × Counters :=
  let (seen, counters) := s
  let counters := { counters with
    concretizeAttempts := counters.concretizeAttempts + 1
    backtracks := counters.backtracks + 1 }
  match d? with
  | none =>
    (none, seen, { counters with concretizeFailures := counters.concretizeFailures + 1 })
  | some d =>
    if d.canonical ∈ seen then (none, seen, counters)
    else
      (some d, d.canonical :: seen,
        { counters with concreteTrees := counters.concreteTrees + 1 })

/-- The next derivation of an expression, if there is one. -/
def next? (l : Linearizer) (e : Expr) (c : Concretizations) (counters : Counters) :
    Except Choice.Fault (Option Derivation × Concretizations × Counters) := do
  let (d?, search, seen, counters) ← c.search.next? (l.derivations e) accept (c.seen, counters)
  return (d?, ⟨search, seen⟩, counters)

/-- The first derivations of an expression, up to `limit` of them. -/
def take (l : Linearizer) (e : Expr) (limit : Nat) (counters : Counters) :
    Except Choice.Fault (List Derivation × Counters) := do
  let (ds, _, _, counters) ← Search.take (l.derivations e) accept limit {} ([], counters)
  return (ds, counters)

end Concretizations

end Polyglot
