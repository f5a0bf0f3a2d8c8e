import Polyglot.Generation.Linearization
import Polyglot.Proofs.Grammar.Productions

/-!
# How a derivation can be worded

Linearization gives the words of a derivation at a field, with the base form of everything that has
several forms. Seen as a relation it can be widened to other forms: a derivation is worded by a list
of words if that list can be got by picking one of the allowed forms wherever there is a choice.

- `Derivation.Worded`: the words that a derivation can have at a field.
- `Derivation.worded_base_iff`: with base forms only, these are the tokens of the linearization.
- `Derivation.worded_forms_iff`: so they are if nothing has several forms.
-/

namespace Polyglot

/-! ## Emissions one after another -/

namespace Emission

theorem result_eq_ok_iff {e : Emission} {ws : List String} :
    e.result = .ok ws ↔ e.error = none ∧ ws = e.tokens := by
  unfold result
  cases e.error <;> simp [eq_comm]

theorem result_event (e : Event) : (event e).result = .ok e.words := by
  simp [event, result, tokens]

theorem result_words (ws : List String) : (words ws).result = .ok ws := by
  cases ws <;> simp [words, event, result, tokens, Event.words]

theorem result_fail (e : LinearizeError) : (fail e).result = .error e := rfl

/-- One after the other there are the words of both, if both have any. -/
theorem result_andThen {a b : Emission} {ws : List String} :
    (a.andThen b).result = .ok ws ↔
      ∃ us vs, a.result = .ok us ∧ b.result = .ok vs ∧ ws = us ++ vs := by
  obtain ⟨events, error⟩ := a
  obtain ⟨events', error'⟩ := b
  cases error with
  | some e => simp [andThen, result]
  | none =>
    cases error' with
    | some e => simp [andThen, result]
    | none => simp [andThen, result, tokens, eq_comm]

/-- The same for any number of them. -/
theorem result_all {es : List Emission} {ws : List String} :
    (all es).result = .ok ws ↔
      ∃ pieces, List.Forall₂ (fun e piece => e.result = .ok piece) es pieces ∧
        ws = pieces.flatten := by
  induction es generalizing ws with
  | nil => simp [all, result, tokens, eq_comm]
  | cons e es ih =>
    rw [all, result_andThen]
    constructor
    · rintro ⟨us, vs, hus, hvs, rfl⟩
      obtain ⟨pieces, hpieces, rfl⟩ := ih.1 hvs
      exact ⟨us :: pieces, .cons hus hpieces, rfl⟩
    · rintro ⟨pieces, hpieces, rfl⟩
      cases hpieces with
      | @cons _ us _ pieces hus hrest =>
        exact ⟨us, pieces.flatten, hus, ih.2 ⟨pieces, hrest, rfl⟩, rfl⟩

end Emission

/-! ## Wordings -/

section Worded

variable (forms : Variants → List (List Sym)) (symbols : SymbolStore) (c : Concrete)

/-- The words of a constituent, given those of the arguments at each field. -/
def Constituent.Worded (args : List (Nat → List String → Prop)) (ws : List String) :
    Constituent → Prop
  | .sub arg field | .lit arg field => ∃ worded, args[arg]? = some worded ∧ worded field ws
  | .var arg _ => arg < args.length ∧ ws = ["_"]
  | .tokens ts => ws = ts.map symbols.name
  | .variants v => ∃ ts ∈ forms v, ws = ts.map symbols.name

/-- The words of a sequence are those of its constituents, one after another. -/
def Sequence.Worded (args : List (Nat → List String → Prop)) (s : Sequence) (ws : List String) :
    Prop :=
  ∃ pieces, List.Forall₂ (fun x piece => Constituent.Worded forms symbols args piece x) s pieces ∧
    ws = pieces.flatten

namespace Derivation

mutual

/-- The words that a derivation can have at a field. A hole is worded by a mark. -/
def Worded : Derivation → Nat → List String → Prop
  | .hole _ => fun _ ws => ws = ["?"]
  | .lit _ value => fun field ws => field = 0 ∧ ws = (Event.literal value).words
  | .app _ fn _ args => fun field ws =>
    ∃ s, c.sequenceOf? fn field = some s ∧ Sequence.Worded forms symbols (wordedAll args) s ws

/-- The words that several derivations can have at each field. -/
def wordedAll : List Derivation → List (Nat → List String → Prop)
  | [] => []
  | d :: ds => Worded d :: wordedAll ds

end

theorem wordedAll_eq_map (ds : List Derivation) :
    wordedAll forms symbols c ds = ds.map (Worded forms symbols c) := by
  induction ds with
  | nil => rfl
  | cons d ds ih => rw [wordedAll, ih, List.map_cons]

end Derivation

end Worded

namespace Derivation

variable {symbols : SymbolStore} {c : Concrete}

/-- Induction over a derivation, with all arguments of an application at once. -/
@[elab_as_elim]
theorem induction {P : Derivation → Prop}
    (app : ∀ id fn name args, (∀ d ∈ args, P d) → P (.app id fn name args))
    (lit : ∀ id value, P (.lit id value)) (hole : ∀ index, P (.hole index)) : ∀ d, P d
  | .app id fn name args => app id fn name args fun d _ => induction app lit hole d
  | .lit id value => lit id value
  | .hole index => hole index

theorem linearizeAll_eq_map (ds : List Derivation) :
    Linearizer.linearizeAll symbols c ds = ds.map (Linearizer.linearize symbols c) := by
  induction ds with
  | nil => rfl
  | cons d ds ih => rw [Linearizer.linearizeAll, ih, List.map_cons]

/-- The words that are read of an argument are those of a derivation for it. -/
theorem worded_arg_iff {f : Derivation → Nat → List String → Prop} {args : List Derivation}
    {arg field : Nat} {ws : List String} :
    (∃ worded, (args.map f)[arg]? = some worded ∧ worded field ws) ↔
      ∃ d, args[arg]? = some d ∧ f d field ws := by
  simp only [List.getElem?_map, Option.map_eq_some_iff, exists_exists_and_eq_and]

theorem worded_app {forms : Variants → List (List Sym)} {id : InstanceId} {fn : FunId} {name : Sym}
    {args : List Derivation} {field : Nat} {ws : List String} :
    (app id fn name args).Worded forms symbols c field ws ↔ ∃ s, c.sequenceOf? fn field = some s ∧
      Sequence.Worded forms symbols (args.map (Worded forms symbols c)) s ws := by
  rw [Worded, wordedAll_eq_map]

theorem linearize_app (id : InstanceId) (fn : FunId) (name : Sym) (args : List Derivation)
    (field : Nat) :
    Linearizer.linearize symbols c (.app id fn name args) field =
      match c.sequenceOf? fn field with
      | none =>
        .fail (.fieldOutOfRange (symbols.name name) field
          (((c.function? fn).map (·.fields.length)).getD 0))
      | some s =>
        ((Emission.event (.beginApply (symbols.name name) args.length)).andThen
          (Emission.all (s.map (Constituent.emit symbols (symbols.name name)
            (args.map (Linearizer.linearize symbols c)))))).andThen
          (.event (.endApply (symbols.name name))) := by
  have hlength : (args.map (Linearizer.linearize symbols c)).length = args.length :=
    List.length_map _
  rw [← hlength, ← linearizeAll_eq_map]
  rfl

/-- A constituent is worded with base forms as it is emitted. -/
theorem worded_constituent_iff (fn : String) {args : List Derivation}
    (h : ∀ d ∈ args, ∀ field ws, d.Worded (fun v => [v.base]) symbols c field ws ↔
      (Linearizer.linearize symbols c d field).result = .ok ws) (x : Constituent)
    (ws : List String) :
    Constituent.Worded (fun v => [v.base]) symbols
        (args.map (Worded (fun v => [v.base]) symbols c)) ws x ↔
      (x.emit symbols fn (args.map (Linearizer.linearize symbols c))).result = .ok ws := by
  -- A field and a literal are read of an argument in the same way.
  have hread : ∀ arg field : Nat,
      (∃ d, args[arg]? = some d ∧ d.Worded (fun v => [v.base]) symbols c field ws) ↔
        ∃ d, args[arg]? = some d ∧ (Linearizer.linearize symbols c d field).result = .ok ws :=
    fun arg field => exists_congr fun d => and_congr_right fun hd =>
      h d (List.mem_of_getElem? hd) field ws
  cases x with
  | sub arg field =>
    rw [Constituent.Worded, worded_arg_iff, hread, Constituent.emit, List.getElem?_map]
    cases args[arg]? <;> simp [Emission.result_fail]
  | lit arg field =>
    rw [Constituent.Worded, worded_arg_iff, hread, Constituent.emit, List.getElem?_map]
    cases args[arg]? <;> simp [Emission.result_fail]
  | var arg index =>
    rw [Constituent.Worded, Constituent.emit, List.getElem?_map, List.length_map]
    by_cases harg : arg < args.length
    · simp [harg, Emission.result_words, eq_comm]
    · simp [harg, Emission.result_fail]
  | tokens ts => simp [Constituent.Worded, Constituent.emit, Emission.result_words, eq_comm]
  | variants v => simp [Constituent.Worded, Constituent.emit, Emission.result_words, eq_comm]

/-- The words that a derivation has with base forms are the tokens of its linearization. -/
theorem worded_base_iff {d : Derivation} {field : Nat} {ws : List String} :
    d.Worded (fun v => [v.base]) symbols c field ws ↔
      (Linearizer.linearize symbols c d field).result = .ok ws := by
  induction d using Derivation.induction generalizing field ws with
  | hole index => simp [Worded, Linearizer.linearize, Emission.result_event, Event.words, eq_comm]
  | lit id value =>
    rw [Worded, Linearizer.linearize]
    by_cases hfield : field = 0
    · simp [hfield, Emission.result_event, eq_comm]
    · simp [hfield, Emission.result_fail]
  | app id fn name args ih =>
    rw [worded_app, linearize_app]
    cases hs : c.sequenceOf? fn field with
    | none => simp [Emission.result_fail]
    | some s =>
      -- The marks around an application have no words.
      have hbody : Sequence.Worded (fun v => [v.base]) symbols
            (args.map (Worded (fun v => [v.base]) symbols c)) s ws ↔
          (Emission.all (s.map (Constituent.emit symbols (symbols.name name)
            (args.map (Linearizer.linearize symbols c))))).result = .ok ws := by
        have hpiece := worded_constituent_iff (symbols.name name) fun d hd field ws => ih d hd
        simp only [Sequence.Worded, Emission.result_all, List.forall₂_map_left_iff, hpiece]
      simp [hbody, Emission.result_andThen, Emission.result_event, Event.words]

/-- Constituents that are worded in the same way make up sequences that are. -/
theorem worded_sequence_congr {forms forms' : Variants → List (List Sym)}
    {args args' : List (Nat → List String → Prop)} {s : Sequence}
    (h : ∀ x ∈ s, ∀ piece, Constituent.Worded forms symbols args piece x ↔
      Constituent.Worded forms' symbols args' piece x) {ws : List String} :
    Sequence.Worded forms symbols args s ws ↔ Sequence.Worded forms' symbols args' s ws := by
  refine exists_congr fun pieces => and_congr_left fun _ => ?_
  simp only [List.forall₂_iff_get]
  refine and_congr_right fun _ => forall_congr' fun i => forall_congr' fun hi =>
    forall_congr' fun hi' => ?_
  exact h _ (List.get_mem s ⟨i, hi⟩) _

/-- Where nothing has several forms there is one way to word a derivation, that of its
linearization. -/
theorem worded_forms_iff (hplain : ∀ s ∈ c.sequences, ∀ v, .variants v ∉ s) {d : Derivation}
    {field : Nat} {ws : List String} :
    d.Worded Variants.forms symbols c field ws ↔
      (Linearizer.linearize symbols c d field).result = .ok ws := by
  rw [← worded_base_iff]
  induction d using Derivation.induction generalizing field ws with
  | hole index => rfl
  | lit id value => rfl
  | app id fn name args ih =>
    simp only [worded_app]
    refine exists_congr fun s => and_congr_right fun hs => worded_sequence_congr ?_
    intro x hx piece
    have hread : ∀ arg field : Nat,
        (∃ d, args[arg]? = some d ∧ d.Worded Variants.forms symbols c field piece) ↔
          ∃ d, args[arg]? = some d ∧ d.Worded (fun v => [v.base]) symbols c field piece :=
      fun arg field => exists_congr fun d => and_congr_right fun hd =>
        ih d (List.mem_of_getElem? hd)
    cases x with
    | sub arg field => simp only [Constituent.Worded, worded_arg_iff, hread]
    | lit arg field => simp only [Constituent.Worded, worded_arg_iff, hread]
    | var arg index => simp only [Constituent.Worded, List.length_map]
    | tokens ts => rfl
    | variants v => exact absurd hx (hplain s (Concrete.mem_sequences_of_sequenceOf? hs) v)

end Derivation

end Polyglot
