import Polyglot.Expr.Printer
import Polyglot.Generation.Derivation

/-!
# From derivations to tokens

A derivation is linearized at a field by going through the sequence of its concrete function for
that field; where the sequence names a field of an argument, the argument is linearized at that
field. What comes out is a list of events, from which the tokens are read off; a constituent with
several forms always takes its base form.

- `Linearizer.linearize`: the events, up to the first error if there is one.
- `Emission.tokens`: the tokens of the events.
- `Linearizer.text`: the text of the first derivation of an expression.
-/

namespace Polyglot

/-- Why a derivation cannot be linearized. -/
inductive LinearizeError where
  | unknownLanguage (name : String)
  | fieldOutOfRange (fn : String) (field fieldCount : Nat)
  | argOutOfRange (fn : String) (arg argCount : Nat)
  deriving DecidableEq, Repr

/-- The wording of an error. -/
def LinearizeError.message : LinearizeError → String
  | .unknownLanguage name => "unknown concrete syntax " ++ name
  | .fieldOutOfRange fn field fieldCount =>
    fn ++ " has " ++ toString fieldCount ++ " fields, field " ++ toString field ++ " requested"
  | .argOutOfRange fn arg argCount =>
    fn ++ " refers to argument " ++ toString arg ++ " but has " ++ toString argCount ++
      " arguments"

/-- Something that happens while a derivation is linearized. -/
inductive Event where
  | tokens (words : List String)
  | beginApply (fn : String) (argCount : Nat)
  | endApply (fn : String)
  | literal (value : Literal)
  | hole (index : Nat)
  deriving DecidableEq, Repr

/-- The tokens that an event stands for. A string literal stands for its contents. -/
def Event.words : Event → List String
  | .tokens words => words
  | .beginApply .. => []
  | .endApply _ => []
  | .literal (.str value) => [value]
  | .literal value => [value.text]
  | .hole _ => ["?"]

/-- What a linearization gives: events, and an error if it broke off. -/
structure Emission where
  events : List Event := []
  error : Option LinearizeError := none
  deriving DecidableEq, Repr

namespace Emission

/-- One emission after another; nothing comes after an error. -/
def andThen (a b : Emission) : Emission :=
  match a.error with
  | some _ => a
  | none => ⟨a.events ++ b.events, b.error⟩

/-- Several emissions one after another. -/
def all : List Emission → Emission
  | [] => {}
  | a :: as => a.andThen (all as)

/-- A single event. -/
def event (e : Event) : Emission := ⟨[e], none⟩

/-- Nothing but an error. -/
def fail (e : LinearizeError) : Emission := ⟨[], some e⟩

/-- Tokens in a row; no tokens are no event. -/
def words (ws : List String) : Emission := if ws.isEmpty then {} else event (.tokens ws)

/-- The tokens of all events. -/
def tokens (e : Emission) : List String := (e.events.map Event.words).flatten

/-- The tokens, if there was no error. -/
def result (e : Emission) : Except LinearizeError (List String) :=
  match e.error with
  | some error => .error error
  | none => .ok e.tokens

end Emission

/-- Tokens as text, with single spaces between them. -/
def unwords (tokens : List String) : String := " ".intercalate tokens

/-- What a constituent of a function emits, given what its arguments emit at each field. -/
def Constituent.emit (symbols : SymbolStore) (fn : String) (args : List (Nat → Emission)) :
    Constituent → Emission
  | .sub arg field | .lit arg field =>
    match args[arg]? with
    | some emit => emit field
    | none => .fail (.argOutOfRange fn arg args.length)
  | .var arg _ =>
    match args[arg]? with
    | some _ => .words ["_"]
    | none => .fail (.argOutOfRange fn arg args.length)
  | .tokens ts => .words (ts.map symbols.name)
  | .variants v => .words (v.base.map symbols.name)

namespace Linearizer

mutual

/-- What a derivation emits at a field. -/
def linearize (symbols : SymbolStore) (c : Concrete) : Derivation → Nat → Emission
  | .hole index => fun _ => .event (.hole index)
  | .lit _ value => fun field =>
    if field = 0 then .event (.literal value) else .fail (.fieldOutOfRange value.text field 1)
  | .app _ fn name args => fun field =>
    match c.sequenceOf? fn field with
    | none =>
      .fail (.fieldOutOfRange (symbols.name name) field
        (((c.function? fn).map (·.fields.length)).getD 0))
    | some s =>
      let args := linearizeAll symbols c args
      let body := Emission.all (s.map (Constituent.emit symbols (symbols.name name) args))
      ((Emission.event (.beginApply (symbols.name name) args.length)).andThen body).andThen
        (.event (.endApply (symbols.name name)))

/-- What several derivations emit at each field. -/
def linearizeAll (symbols : SymbolStore) (c : Concrete) : List Derivation → List (Nat → Emission)
  | [] => []
  | d :: ds => linearize symbols c d :: linearizeAll symbols c ds

end

/-- The tokens of a derivation at a field. -/
def tokens (l : Linearizer) (symbols : SymbolStore) (d : Derivation) (field : Nat) :
    Except LinearizeError (List String) :=
  (linearize symbols l.concrete d field).result

/-- The text of the first derivation of an expression, if it has one. -/
def text (l : Linearizer) (symbols : SymbolStore) (e : Expr) (field : Nat) (counters : Counters) :
    Except Choice.Fault (Except LinearizeError (Option String) × Counters) := do
  let (d?, _, counters) ← ({} : Concretizations).next? l e counters
  match d? with
  | none => return (.ok none, counters)
  | some d => return ((l.tokens symbols d field).map fun ws => some (unwords ws), counters)

end Linearizer

end Polyglot
