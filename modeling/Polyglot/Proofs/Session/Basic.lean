import Polyglot.Generation.Derivation
import Polyglot.ParseState

/-!
# Sessions

A program that uses the library goes through a session: it starts parses, feeds tokens to any of the
states that it has got so far, stores expressions, and goes back and forth between enumerations of
the readings of its states and of the derivations of its expressions.

- `Request`, `Answer`: what it can ask next, and what it is told.
- `Session.ask`: one request; `Session.After`: all that it can make of a session.
- `Session.run`: many of them, one after the other; `Session.replies`: what an enumeration says to
  them.
-/

namespace Polyglot

/-- How a parse state came about: from a parse of a field of a category, by these tokens. -/
structure Origin where
  concrete : Concrete
  cat : String
  field : Nat
  tokens : List String := []

/-- What a program can ask next. States and enumerations are named by the numbers that they were
given. -/
inductive Request where
  | parse (c : Concrete) (cat : String) (field : Nat)
  | feed (state : Nat) (token : String)
  | store (node : ExprStore.Node)
  /-- Begins an enumeration of the readings of a state. -/
  | results (state : Nat)
  | nextResult (enumeration : Nat)
  /-- Begins an enumeration of the derivations of a stored expression. -/
  | concretize (l : Linearizer) (id : ExprId)
  | nextDerivation (enumeration : Nat)

/-- Whether it is the next result of an enumeration that is asked for. -/
def Request.continues (enumeration : Nat) : Request → Bool
  | .nextResult n => n == enumeration
  | _ => false

/-- What a program is told. -/
inductive Answer where
  /-- There is no such number. -/
  | unknown
  | refusal (r : Chart.Refusal)
  | halt (h : Building.Halt)
  | state (number : Nat)
  /-- No item waits for the token. -/
  | rejected
  | expr (id : ExprId)
  | enumeration (number : Nat)
  | result (id? : Option ExprId)
  | derivation (d? : Option Derivation)
  /-- A record of decisions was driven against its use. -/
  | broken (f : Choice.Fault)

/-- What a program has got so far. -/
structure Session where
  lines : Lines := {}
  /-- States, and how they came about. -/
  states : Array (Origin × ParseState) := #[]
  exprs : ExprStore := {}
  readings : Array (ParseState × Readings) := #[]
  concretizations : Array (Linearizer × Expr × Concretizations) := #[]
  counters : Counters := {}

namespace Session

variable (limit : Nat) (symbols : SymbolStore)

/-- A new state, and its number. -/
def addState (s : Session) (origin : Origin) (new : ParseState × Lines) : Answer × Session :=
  (.state s.states.size,
    { s with lines := new.2, states := s.states.push (origin, new.1) })

/-- Answers a request. Each step of a chart may take `limit` rounds. -/
def ask (s : Session) : Request → Answer × Session
  | .parse c cat field =>
    match ParseState.parse limit symbols c cat field s.lines s.counters with
    | (.ok new, counters) => { s with counters }.addState ⟨c, cat, field, []⟩ new
    | (.error r, counters) => (.refusal r, { s with counters })
  | .feed n token =>
    match s.states[n]? with
    | none => (.unknown, s)
    | some (origin, state) =>
      match state.feed limit symbols token s.lines s.counters with
      | (.ok (some new), counters) =>
        { s with counters }.addState { origin with tokens := origin.tokens ++ [token] } new
      | (.ok none, counters) => (.rejected, { s with counters })
      | (.error h, counters) => (.halt h, { s with counters })
  | .store node =>
    let (id, exprs) := s.exprs.intern node
    (.expr id, { s with exprs })
  | .results n =>
    match s.states[n]? with
    | none => (.unknown, s)
    | some (_, state) =>
      (.enumeration s.readings.size, { s with readings := s.readings.push (state, {}) })
  | .nextResult n =>
    match s.readings[n]? with
    | none => (.unknown, s)
    | some (state, r) =>
      match r.next? (s.lines.chart state) s.exprs s.counters with
      | .error f => (.broken f, s)
      | .ok (id?, r, exprs, counters) =>
        (.result id?,
          { s with exprs, counters, readings := s.readings.setIfInBounds n (state, r) })
  | .concretize l id =>
    match s.exprs.expr? id with
    | none => (.unknown, s)
    | some e =>
      (.enumeration s.concretizations.size,
        { s with concretizations := s.concretizations.push (l, e, {}) })
  | .nextDerivation n =>
    match s.concretizations[n]? with
    | none => (.unknown, s)
    | some (l, e, c) =>
      match c.next? l e s.counters with
      | .error f => (.broken f, s)
      | .ok (d?, c, counters) =>
        (.derivation d?,
          { s with counters, concretizations := s.concretizations.setIfInBounds n (l, e, c) })

/-- What a request can make of a session. -/
inductive After (s : Session) : Request → Session → Prop where
  /-- Nothing was got by it, and some things may have been counted. -/
  | count (q : Request) (counters : Counters) : After s q { s with counters }
  | parse {c : Concrete} {cat : String} {field : Nat} {new : ParseState × Lines}
      {counters : Counters}
      (h : ParseState.parse limit symbols c cat field s.lines s.counters = (.ok new, counters)) :
      After s (.parse c cat field) ({ s with counters }.addState ⟨c, cat, field, []⟩ new).2
  | feed {n : Nat} {token : String} {origin : Origin} {state : ParseState}
      {new : ParseState × Lines} {counters : Counters}
      (hn : s.states[n]? = some (origin, state))
      (h : state.feed limit symbols token s.lines s.counters = (.ok (some new), counters)) :
      After s (.feed n token) ({ s with counters }.addState
        { origin with tokens := origin.tokens ++ [token] } new).2
  | store (node : ExprStore.Node) :
      After s (.store node) { s with exprs := (s.exprs.intern node).2 }
  | results {n : Nat} {origin : Origin} {state : ParseState}
      (hn : s.states[n]? = some (origin, state)) :
      After s (.results n) { s with readings := s.readings.push (state, {}) }
  | nextResult {n : Nat} {state : ParseState} {r r' : Readings} {id? : Option ExprId}
      {exprs : ExprStore} {counters : Counters} (hn : s.readings[n]? = some (state, r))
      (h : r.next? (s.lines.chart state) s.exprs s.counters = .ok (id?, r', exprs, counters)) :
      After s (.nextResult n)
        { s with exprs, counters, readings := s.readings.setIfInBounds n (state, r') }
  | concretize {l : Linearizer} {id : ExprId} {e : Expr} (he : s.exprs.expr? id = some e) :
      After s (.concretize l id)
        { s with concretizations := s.concretizations.push (l, e, {}) }
  | nextDerivation {n : Nat} {l : Linearizer} {e : Expr} {c c' : Concretizations}
      {d? : Option Derivation} {counters : Counters}
      (hn : s.concretizations[n]? = some (l, e, c))
      (h : c.next? l e s.counters = .ok (d?, c', counters)) :
      After s (.nextDerivation n)
        { s with counters, concretizations := s.concretizations.setIfInBounds n (l, e, c') }

/-- What a program has got after some requests. -/
def run (s : Session) (qs : List Request) : Session :=
  qs.foldl (fun s q => (s.ask limit symbols q).2) s

/-- What an enumeration of readings is asked for and answers, while the program goes on with these
requests. -/
def replies (enumeration : Nat) : Session → List Request → List Answer
  | _, [] => []
  | s, q :: qs =>
    let (answer, s) := s.ask limit symbols q
    if q.continues enumeration then answer :: replies enumeration s qs
    else replies enumeration s qs

variable {limit symbols} (s : Session)

/-- No request makes anything else of a session. -/
theorem after_ask (q : Request) : s.After limit symbols q (s.ask limit symbols q).2 := by
  cases q with
  | parse c cat field =>
    rw [ask]
    split
    · rename_i h
      exact .parse h
    · exact .count ..
  | feed n token =>
    rw [ask]
    split
    · exact .count ..
    · rename_i hn
      split
      · rename_i h
        exact .feed hn h
      · exact .count ..
      · exact .count ..
  | store node => exact .store node
  | results n =>
    rw [ask]
    split
    · exact .count ..
    · rename_i hn
      exact .results hn
  | nextResult n =>
    rw [ask]
    split
    · exact .count ..
    · rename_i hn
      split
      · exact .count ..
      · rename_i h
        exact .nextResult hn h
  | concretize l id =>
    rw [ask]
    split
    · exact .count ..
    · rename_i he
      exact .concretize he
  | nextDerivation n =>
    rw [ask]
    split
    · exact .count ..
    · rename_i hn
      split
      · exact .count ..
      · rename_i h
        exact .nextDerivation hn h

@[simp] theorem run_nil : s.run limit symbols [] = s := rfl

@[simp] theorem run_cons (q : Request) (qs : List Request) :
    s.run limit symbols (q :: qs) = (s.ask limit symbols q).2.run limit symbols qs := rfl

@[simp] theorem run_append (qs qs' : List Request) :
    s.run limit symbols (qs ++ qs') = (s.run limit symbols qs).run limit symbols qs' :=
  List.foldl_append ..

end Session

end Polyglot
