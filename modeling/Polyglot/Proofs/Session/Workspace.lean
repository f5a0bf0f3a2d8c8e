import Polyglot.Expr.Reader
import Polyglot.Generation.Linearization
import Polyglot.Proofs.Session.Basic
import Polyglot.Rendition

/-!
# Workspaces

A program knows a grammar by names: it makes parsers and linearizers for languages, parses lines of
categories, reads and writes expressions, and has derivations linearized and lines rendered. All of
that goes through the symbol store of the grammar, to which more names may be added at any time, by
reading expressions or otherwise. What a program has got from a grammar so far is its `Workspace`.

- `Command`, `Reply`: what a program can do next, and what comes of it.
- `Workspace.perform`: one command; `Workspace.replies`: what comes of many of them.
- `Workspace.perform_parseLabel`: to parse by a label is to parse by a number.
- `Command.interns`: commands that are good for nothing but the names that they intern.
-/

namespace Polyglot

/-- What a program can do with a grammar. Parsers, linearizers, states, enumerations and derivations
go by the numbers that they were given. -/
inductive Command where
  /-- Makes a parser for a language, by its name or code. -/
  | parser (language : String)
  | parse (parser : Nat) (cat : String) (field : Nat)
  | parseLabel (parser : Nat) (cat label : String)
  | feed (state : Nat) (token : String)
  | expectedTokens (state : Nat)
  | waiting (state : Nat) (token : String)
  /-- Looks at all that a state sees. -/
  | chart (state : Nat)
  /-- Begins an enumeration of the readings of a state. -/
  | results (state : Nat)
  | nextResult (enumeration : Nat)
  /-- Reads an expression and stores it. -/
  | read (text : String)
  | app (name : String) (args : List ExprId)
  | lit (value : Literal)
  | hole (index : Nat)
  /-- Writes a stored expression. -/
  | write (id : ExprId)
  /-- Makes a linearizer for a language, by its name or code. -/
  | linearizer (language : String)
  /-- Begins an enumeration of the derivations of a stored expression. -/
  | concretize (linearizer : Nat) (id : ExprId)
  | nextDerivation (enumeration : Nat)
  | linearize (linearizer derivation field : Nat)
  /-- Linearizes the first derivation of a stored expression. -/
  | linearizeExpr (linearizer : Nat) (id : ExprId) (field : Nat)
  | translate (source target line : String) (options : RenditionOptions)
  | intern (name : String)
  /-- Reads an expression into another store, so that nothing but its names is kept here. -/
  | readApart (text : String)

/-- Whether a command is good for nothing but the names that it interns. -/
def Command.interns : Command → Bool
  | .intern _ | .readApart _ => true
  | _ => false

/-- What comes of a command. -/
inductive Reply where
  | answer (a : Answer)
  | parser (number : Nat) (c : Concrete)
  | noParser (e : ParseError)
  | tokens (tokens : List String)
  | count (n : Nat)
  | chart (c : Chart)
  | read (r : Except ReadFailure ExprId)
  | written (r : Except WriteError String)
  | linearizer (number : Nat) (l : Linearizer)
  | noLinearizer (e : LinearizeError)
  | emission (e : Emission)
  | line (r : Except LinearizeError (Option String))
  | renditions (r : Except Rendition.Stop (List Rendition))
  | handle (sym : Sym)

/-- What a program has got from a grammar so far. -/
structure Workspace where
  /-- The symbol store of the grammar, as it is now. -/
  symbols : SymbolStore
  session : Session := {}
  parsers : Array Concrete := #[]
  linearizers : Array Linearizer := #[]
  derivations : Array Derivation := #[]

namespace Workspace

variable (limit : Nat) (g : Grammar) (w : Workspace)

/-- The strings and the expressions. -/
def stores : Stores := ⟨w.symbols, w.session.exprs⟩

/-- The workspace with other strings and expressions. -/
def withStores (stores : Stores) : Workspace :=
  { w with symbols := stores.symbols, session := { w.session with exprs := stores.exprs } }

/-- Keeps a derivation that was yielded. -/
def keep : Answer → Workspace
  | .derivation (some d) => { w with derivations := w.derivations.push d }
  | _ => w

/-- Puts a request to the session. Each step of a chart may take `limit` rounds. -/
def request (q : Request) : Reply × Workspace :=
  let (answer, session) := w.session.ask limit w.symbols q
  (.answer answer, { w with session }.keep answer)

/-- Carries out a command. -/
def perform : Command → Reply × Workspace
  | .parser language =>
    match g.resolveConcrete? w.symbols language with
    | none => (.noParser (.unknownLanguage language), w)
    | some c => (.parser w.parsers.size c, { w with parsers := w.parsers.push c })
  | .parse n cat field =>
    match w.parsers[n]? with
    | none => (.answer .unknown, w)
    | some c => w.request limit (.parse c cat field)
  | .parseLabel n cat label =>
    match w.parsers[n]? with
    | none => (.answer .unknown, w)
    | some c =>
      let (r, counters) := ParseState.parseLabel limit w.symbols c cat label w.session.lines
        w.session.counters
      let session := { w.session with counters }
      match r with
      | .error refusal => (.answer (.refusal refusal), { w with session })
      | .ok new =>
        -- A parse that begins is one of the field that has the label.
        let field := (Chart.labelled? w.symbols c cat label).getD 0
        let (answer, session) := session.addState ⟨c, cat, field, []⟩ new
        (.answer answer, { w with session })
  | .feed n token => w.request limit (.feed n token)
  | .expectedTokens n =>
    match w.session.states[n]? with
    | none => (.answer .unknown, w)
    | some (_, state) => (.tokens (state.expectedTokens w.symbols), w)
  | .waiting n token =>
    match w.session.states[n]? with
    | none => (.answer .unknown, w)
    | some (_, state) => (.count (state.waiting w.symbols token), w)
  | .chart n =>
    match w.session.states[n]? with
    | none => (.answer .unknown, w)
    | some (_, state) => (.chart (w.session.lines.chart state), w)
  | .results n => w.request limit (.results n)
  | .nextResult n => w.request limit (.nextResult n)
  | .read text =>
    let (r, stores) := w.stores.read text
    (.read r, w.withStores stores)
  | .app name args =>
    let (fn, symbols) := w.symbols.intern name
    { w with symbols }.request limit (.store (.app fn args))
  | .lit value => w.request limit (.store (.lit value))
  | .hole index => w.request limit (.store (.hole index))
  | .write id => (.written (w.stores.text id), w)
  | .linearizer language =>
    match g.resolveConcrete? w.symbols language with
    | none => (.noLinearizer (.unknownLanguage language), w)
    | some c =>
      (.linearizer w.linearizers.size (.ofConcrete g c),
        { w with linearizers := w.linearizers.push (.ofConcrete g c) })
  | .concretize n id =>
    match w.linearizers[n]? with
    | none => (.answer .unknown, w)
    | some l => w.request limit (.concretize l id)
  | .nextDerivation n => w.request limit (.nextDerivation n)
  | .linearize n m field =>
    match w.linearizers[n]?, w.derivations[m]? with
    | some l, some d => (.emission (Linearizer.linearize w.symbols l.concrete d field), w)
    | _, _ => (.answer .unknown, w)
  | .linearizeExpr n id field =>
    match w.linearizers[n]?, w.session.exprs.expr? id with
    | some l, some e =>
      match l.text w.symbols e field w.session.counters with
      | .error f => (.answer (.broken f), w)
      | .ok (line, counters) => (.line line, { w with session := { w.session with counters } })
    | _, _ => (.answer .unknown, w)
  | .translate source target line options =>
    (.renditions (g.renditions limit w.symbols source target line options), w)
  | .intern name =>
    let (sym, symbols) := w.symbols.intern name
    (.handle sym, { w with symbols })
  | .readApart text =>
    let (r, stores) := ({ symbols := w.symbols } : Stores).read text
    (.read r, { w with symbols := stores.symbols })

/-- What comes of some commands, one after the other. Nothing is said of those that only intern
names. -/
def replies : Workspace → List Command → List Reply
  | _, [] => []
  | w, q :: qs =>
    let (reply, w) := w.perform limit g q
    if q.interns then replies w qs else reply :: replies w qs

/-- To parse the field with a label is to parse a field by its number, if there is one with this
label. -/
theorem perform_parseLabel (n : Nat) (cat label : String) :
    w.perform limit g (.parseLabel n cat label) =
      match w.parsers[n]? with
      | none => (.answer .unknown, w)
      | some c =>
        match Chart.labelled? w.symbols c cat label with
        | none => (.answer (.refusal (.error (.unknownCategory (cat ++ "." ++ label)))), w)
        | some field => w.request limit (.parse c cat field) := by
  rw [perform]
  cases w.parsers[n]? with
  | none => rfl
  | some c =>
    dsimp only
    rw [ParseState.parseLabel]
    cases Chart.labelled? w.symbols c cat label with
    | none => rfl
    | some field =>
      dsimp only
      rw [request, Session.ask]
      obtain ⟨refusal | new, counters⟩ := ParseState.parse limit w.symbols c cat field
        w.session.lines w.session.counters
      · rfl
      · rfl

end Workspace

end Polyglot
