import Polyglot.Proofs.Chart.InRange
import Polyglot.Proofs.Session.Results

/-!
# Nothing goes wrong in a session

A program may start parses of fields that there are, feed its states in any order, and go back and
forth between its enumerations, all of it with numbers and ids that it was given. Then no step of a
chart runs into a fault, no reference in it leads nowhere, and no record of decisions is driven
against its use.

- `Request.Proper`: what a program may ask for, given what it has got so far.
- `Answer.Orderly`: an answer that is not about something that went wrong.
- `Session.Secure`: what every proper request keeps; `Secure.run`.
- `Session.orderly`: proper requests have orderly answers, and all that is built for them is in
  range.
-/

namespace Polyglot

/-- The states of an origin come of a parse of a field that all instances have, in a language of the
grammar. -/
structure Origin.Proper (g : Grammar) (symbols : SymbolStore) (o : Origin) : Prop where
  concrete : o.concrete ∈ g.concretes
  fields : ∀ category, Chart.goal symbols o.concrete o.cat o.field = .ok category →
    ∀ id ∈ category.instances, ∃ n, o.concrete.fieldCount? id = some n ∧ o.field < n

/-- What a program may ask for: parses of fields that there are, expressions made from stored ones,
derivations in languages of the grammar, and the rest with numbers that it was given. -/
def Request.Proper (g : Grammar) (symbols : SymbolStore) (s : Session) : Request → Prop
  | .parse c cat field => Origin.Proper g symbols ⟨c, cat, field, []⟩
  | .feed n _ | .results n => n < s.states.size
  | .store node => ∀ arg ∈ node.args, arg.index < s.exprs.size
  | .concretize l id => (∃ c ∈ g.concretes, l = .ofConcrete g c) ∧ id.index < s.exprs.size
  | .nextResult n => n < s.readings.size
  | .nextDerivation n => n < s.concretizations.size

/-- An answer that is not about something that went wrong. That the rounds which were allowed are
not enough is nothing wrong. -/
structure Answer.Orderly (a : Answer) : Prop where
  known : a ≠ .unknown
  unbroken : ∀ f, a ≠ .broken f
  faultless : ∀ f, a ≠ .halt (.fault f) ∧ a ≠ .refusal (.halt (.fault f))

/-- What is stored of readings keeps the order of the store. -/
theorem Readings.ordered_next? {chart : Chart} {r r' : Readings} {exprs exprs' : ExprStore}
    {counters counters' : Counters} {id? : Option ExprId}
    (h : r.next? chart exprs counters = .ok (id?, r', exprs', counters')) (hs : exprs.Ordered) :
    exprs'.Ordered := by
  unfold Readings.next? at h
  obtain ⟨⟨id?, search, state⟩, hnext, h⟩ := bind_eq_ok.1 h
  cases h
  refine (Search.next?_invariant (P := fun state : State => state.exprs.Ordered)
    (Q := fun _ _ => True) (fun v state _ hstate => ?_) r.search hs hnext).1
  exact ⟨(accept_extends hstate v).1, fun _ _ => trivial, fun _ _ => trivial⟩

namespace Chart

variable {c : Concrete} {v : Nat → Sym} {ids : List InstanceId} {goal : Nat}

/-- A step that was begun in order is finished, or the rounds are not enough. -/
theorem ne_fault_of_runs (hwf : c.WellFormed) {b : Building} (h : b.Runs c v ids goal)
    (limit : Nat) (f : Fault) : (b.finish limit).1 ≠ .error (.fault f) := by
  intro hfault
  rcases built_of_finish hwf h limit with hfinish | ⟨last, hfinish, -⟩
  · cases hfault.symm.trans hfinish
  · cases hfault.symm.trans hfinish

end Chart

/-- The chart of some tokens is built from these tokens, whatever comes after them. -/
theorem Origin.Proper.built {limit : Nat} {symbols : SymbolStore} {w : WrittenGrammar} {g : Grammar}
    (hbuild : w.build = .ok g) {o : Origin}
    (ho : o.Proper g symbols) {chart : Chart} (hchart : o.chart? limit symbols = some chart)
    {v : Nat → Sym} (hv : ∀ (i : Nat) (token : String) (sym : Sym), o.tokens[i]? = some token →
      symbols.find? token = some sym → sym = v i) :
    ∃ ids, Chart.Built o.concrete v ids o.field chart ∧ chart.position = o.tokens.length := by
  have hwf := Concrete.wellFormed_of_build hbuild ho.concrete
  obtain ⟨chart₀, hparse, hfeed⟩ := Chart.ofTokens?_eq_some_iff.1 hchart
  cases hgoal : Chart.goal symbols o.concrete o.cat o.field with
  | error e => simpa [Chart.parse, hgoal] using hparse {}
  | ok category =>
    obtain ⟨hbuilt, hzero⟩ :=
      Chart.built_of_parse hwf hgoal (ho.fields category hgoal) (Prod.ext (hparse {}) rfl) v
    refine ⟨category.instances, ?_⟩
    obtain hexhausted | ⟨chart', hchart', hbuilt', hposition⟩ | ⟨hnone, -⟩ :=
      Chart.feedAll_spec hwf limit symbols o.tokens {} hbuilt fun i token sym hi hsym => by
        rw [hzero, Nat.zero_add]
        exact hv i token sym hi hsym
    · cases (hfeed {}).symm.trans hexhausted
    · cases (hfeed {}).symm.trans hchart'
      exact ⟨hbuilt', by rw [hposition, hzero, Nat.zero_add]⟩
    · cases (hfeed {}).symm.trans hnone

namespace Building

variable {c : Concrete} {v : Nat → Sym} {ids : List InstanceId} {goal : Nat} {b b' : Building}

/-- A step in the making gets to another one in some rounds of work. -/
def Reaches (b b' : Building) : Prop :=
  Relation.ReflTransGen (fun b b' => b.next? = some b') b b'

theorem Runs.reaches (hwf : c.WellFormed) (h : b.Runs c v ids goal) (hreach : b.Reaches b') :
    b'.Runs c v ids goal := by
  induction hreach with
  | refl => exact h
  | tail _ hnext ih => exact (ih.next? hwf hnext).1

end Building

namespace Session

variable {limit : Nat} {symbols : SymbolStore} {s : Session} {g : Grammar}

/-- A program asks for nothing that it may not. -/
def Proper (limit : Nat) (symbols : SymbolStore) (g : Grammar) : Session → List Request → Prop
  | _, [] => True
  | s, q :: qs => q.Proper g symbols s ∧ Proper limit symbols g (s.ask limit symbols q).2 qs

/-- The step that is built to answer a request, at its beginning. -/
def begins? (symbols : SymbolStore) (s : Session) : Request → Option Building
  | .parse c cat field =>
    match Chart.goal symbols c cat field with
    | .error _ => none
    | .ok category =>
      some ((Building.start c #[] none s.counters).predictTop category.instances field)
  | .feed n token =>
    match s.states[n]? with
    | none => none
    | some (_, state) =>
      match state.waitingItems? symbols token with
      | none => none
      | some (sym, items) =>
        some ((items.filterMap (state.last.items[·]?)).foldl Building.scan
          (.start state.concrete (s.lines.steps state) (some sym) s.counters))
  | _ => none

/-- A request for which a step is begun is answered by what comes of that step. -/
theorem answer_of_begins (limit : Nat) {q : Request} {b : Building}
    (hb : s.begins? symbols q = some b) :
    (∃ last, (b.finish limit).1 = .ok last ∧
        (s.ask limit symbols q).1 = .state s.states.size) ∨
      ∃ h, (b.finish limit).1 = .error h ∧ ((s.ask limit symbols q).1 = .halt h ∨
        (s.ask limit symbols q).1 = .refusal (.halt h)) := by
  cases q with
  | parse c cat field =>
    simp only [begins?] at hb
    cases hgoal : Chart.goal symbols c cat field with
    | error e => simp [hgoal] at hb
    | ok category =>
      simp only [hgoal, Option.some.injEq] at hb
      simp only [ask, ParseState.parse, hgoal, hb]
      obtain ⟨h | last, counters⟩ := b.finish limit
      · exact .inr ⟨h, rfl, .inr rfl⟩
      · exact .inl ⟨last, rfl, rfl⟩
  | feed n token =>
    simp only [begins?] at hb
    cases hn : s.states[n]? with
    | none => simp [hn] at hb
    | some entry =>
      simp only [hn] at hb
      cases hwaiting : entry.2.waitingItems? symbols token with
      | none => simp [hwaiting] at hb
      | some waiting =>
        simp only [hwaiting, Option.some.injEq] at hb
        simp only [ask, hn, ParseState.feed, hwaiting, hb]
        obtain ⟨h | last, counters⟩ := b.finish limit
        · exact .inr ⟨h, rfl, .inl rfl⟩
        · exact .inl ⟨last, rfl, rfl⟩
  | store _ | results _ | nextResult _ | concretize _ _ | nextDerivation _ => cases hb

/-- For any other request nothing is halted. -/
theorem answer_of_not_begins {q : Request} (hb : s.begins? symbols q = none)
    (h : Building.Halt) :
    (s.ask limit symbols q).1 ≠ .halt h ∧ (s.ask limit symbols q).1 ≠ .refusal (.halt h) := by
  cases q with
  | parse c cat field =>
    simp only [begins?] at hb
    cases hgoal : Chart.goal symbols c cat field with
    | error e => simp [ask, ParseState.parse, hgoal]
    | ok category => simp [hgoal] at hb
  | feed n token =>
    simp only [begins?] at hb
    cases hn : s.states[n]? with
    | none => simp [ask, hn]
    | some entry =>
      simp only [hn] at hb
      cases hwaiting : entry.2.waitingItems? symbols token with
      | none => simp [ask, hn, ParseState.feed, hwaiting]
      | some waiting => simp [hwaiting] at hb
  | store node => simp [ask]
  | results n =>
    rw [ask]
    split <;> simp
  | nextResult n =>
    rw [ask]
    split
    · simp
    · split <;> simp
  | concretize l id =>
    rw [ask]
    split <;> simp
  | nextDerivation n =>
    rw [ask]
    split
    · simp
    · split <;> simp

/-! ## What proper requests keep -/

/-- A session is intact, its expressions are in order, and its states come of parses of fields that
there are. -/
structure Secure (limit : Nat) (symbols : SymbolStore) (g : Grammar) (s : Session) : Prop where
  intact : s.Intact limit symbols
  exprs : s.exprs.Ordered
  origins : ∀ (n : Nat) (o : Origin) (state : ParseState), s.states[n]? = some (o, state) →
    o.Proper g symbols

/-- A new state comes of a parse, or of a state that there was. -/
theorem After.origin {s' : Session} {q : Request} (h : s.After limit symbols q s') {n : Nat}
    {o : Origin} {state : ParseState} (hn : s'.states[n]? = some (o, state)) :
    s.states[n]? = some (o, state) ∨
      (∃ c cat field, q = .parse c cat field ∧ o = ⟨c, cat, field, []⟩) ∨
      ∃ m token o' state', q = .feed m token ∧ s.states[m]? = some (o', state') ∧
        o = { o' with tokens := o'.tokens ++ [token] } := by
  cases h with
  | count | store | results | nextResult | concretize | nextDerivation => exact .inl hn
  | @parse c cat field =>
    simp only [addState, Array.getElem?_push] at hn
    split at hn
    · cases hn
      exact .inr (.inl ⟨c, cat, field, rfl, rfl⟩)
    · exact .inl hn
  | @feed m token o' state' _ _ hm =>
    simp only [addState, Array.getElem?_push] at hn
    split at hn
    · cases hn
      exact .inr (.inr ⟨m, token, o', state', rfl, hm, rfl⟩)
    · exact .inl hn

theorem After.ordered {s' : Session} {q : Request} (h : s.After limit symbols q s')
    (hs : s.exprs.Ordered) (hq : q.Proper g symbols s) : s'.exprs.Ordered := by
  cases h with
  | count | parse | feed | results | concretize | nextDerivation => exact hs
  | store node => exact hs.intern hq
  | nextResult _ hnext => exact Readings.ordered_next? hnext hs

/-- A proper request leaves a session secure. -/
theorem Secure.ask (h : s.Secure limit symbols g) {q : Request} (hq : q.Proper g symbols s) :
    (s.ask limit symbols q).2.Secure limit symbols g := by
  have hafter : s.After limit symbols q _ := s.after_ask q
  refine ⟨(h.intact.ask q).1, hafter.ordered h.exprs hq, fun n o state hn => ?_⟩
  rcases hafter.origin hn with hn | ⟨c, cat, field, rfl, rfl⟩ | ⟨m, token, o', state', rfl, hm, rfl⟩
  · exact h.origins n o state hn
  · exact hq
  · obtain ⟨hconcrete, hfields⟩ := h.origins m o' state' hm
    exact ⟨hconcrete, hfields⟩

/-- So do any number of them. -/
theorem Secure.run (h : s.Secure limit symbols g) {qs qs' : List Request}
    (hqs : Proper limit symbols g s (qs ++ qs')) :
    (s.run limit symbols qs).Secure limit symbols g ∧
      Proper limit symbols g (s.run limit symbols qs) qs' := by
  induction qs generalizing s with
  | nil => exact ⟨h, hqs⟩
  | cons q qs ih =>
    obtain ⟨hq, hrest⟩ := hqs
    exact ih (h.ask hq) hrest

/-- What is built for a proper request begins in order. -/
theorem Secure.begins {w : WrittenGrammar} (hbuild : w.build = .ok g)
    (h : s.Secure limit symbols g) {q : Request} (hq : q.Proper g symbols s) {b : Building}
    (hb : s.begins? symbols q = some b) :
    ∃ c v ids goal, c.WellFormed ∧ b.Runs c v ids goal := by
  cases q with
  | parse c cat field =>
    obtain ⟨hconcrete, hfields⟩ := hq
    have hwf := Concrete.wellFormed_of_build hbuild hconcrete
    simp only [begins?] at hb
    split at hb
    · cases hb
    · rename_i category hgoal
      cases hb
      exact ⟨c, fun _ => ⟨0⟩, _, field, hwf,
        (Chart.runs_predictTop hwf (hfields category hgoal) _ s.counters).1⟩
  | feed n token =>
    simp only [begins?] at hb
    split at hb
    · cases hb
    · rename_i o state hn
      split at hb
      · cases hb
      · rename_i sym items hwaiting
        cases hb
        obtain ⟨hholds, hchart⟩ := h.intact.states n o state hn
        have hproper := h.origins n o state hn
        have hwf := Concrete.wellFormed_of_build hbuild hproper.concrete
        have hitems : (s.lines.chart state).waitingItems? symbols token = some (sym, items) :=
          hwaiting
        obtain ⟨hfind, rfl⟩ := Chart.waitingItems?_eq_some hitems
        -- The input is what was read, and then the token.
        let v := symbols.inputOf (o.tokens ++ [token])
        obtain ⟨ids, hbuilt, hposition⟩ := Origin.Proper.built (v := v) hbuild hproper hchart
          fun i token' sym hi hsym => by
            have hlt := (List.getElem?_eq_some_iff.1 hi).1
            exact SymbolStore.eq_inputOf ((List.getElem?_append_left hlt).trans hi) hsym
        have hsym : sym = v (s.lines.chart state).position := by
          rw [hposition]
          exact SymbolStore.eq_inputOf List.getElem?_concat_length hfind
        refine ⟨o.concrete, v, ids, o.field, hwf, ?_⟩
        have hconcrete : state.concrete = o.concrete := hbuilt.concrete
        rw [hholds.steps, hconcrete]
        exact (hbuilt.runs_scan hsym s.counters rfl).1
  | store node => cases hb
  | results n => cases hb
  | nextResult n => cases hb
  | concretize l id => cases hb
  | nextDerivation n => cases hb

/-- A proper request is known, and no record of decisions is driven against its use for it. -/
theorem Secure.known (h : s.Secure limit symbols g) {q : Request} (hq : q.Proper g symbols s) :
    (s.ask limit symbols q).1 ≠ .unknown ∧ ∀ f, (s.ask limit symbols q).1 ≠ .broken f := by
  cases q with
  | parse c cat field =>
    rw [Session.ask]
    split <;> simp [addState]
  | feed n token =>
    rw [Session.ask, Array.getElem?_eq_getElem hq]
    dsimp only
    split <;> simp [addState]
  | store node => simp [Session.ask]
  | results n =>
    rw [Session.ask, Array.getElem?_eq_getElem hq]
    simp
  | nextResult n =>
    have hn := Array.getElem?_eq_getElem hq
    obtain ⟨-, owed, howes⟩ := h.intact.readings n _ _ hn
    obtain ⟨id?, r', exprs, counters, hask, -⟩ :=
      ask_nextResult limit symbols hn howes
    simp [hask]
  | concretize l id =>
    obtain ⟨e, he⟩ := ExprStore.exists_expr? h.exprs hq.2
    rw [Session.ask, he]
    simp
  | nextDerivation n =>
    obtain ⟨⟨l, e, c⟩, hn⟩ : ∃ x, s.concretizations[n]? = some x :=
      ⟨_, Array.getElem?_eq_getElem hq⟩
    obtain ⟨d?, c', counters, hnext, -⟩ := h.intact.next?_derivation hn
    simp [Session.ask, hn, hnext]

/-- **Nothing goes wrong.** For every grammar that is accepted, in any session of proper requests,
the answer to a further one is not about a fault, neither of an item nor of a record of decisions;
and if a step is built for it then, whenever an item is taken from the agenda, nothing went wrong so
far and all references are in range. -/
theorem orderly {w : WrittenGrammar} (hbuild : w.build = .ok g) {exprs : ExprStore}
    (hordered : exprs.Ordered) {before : List Request} {q : Request}
    (hproper : Proper limit symbols g { exprs } (before ++ [q])) :
    ((Session.run limit symbols { exprs } before).ask limit symbols q).1.Orderly ∧
      ∀ b b', (Session.run limit symbols { exprs } before).begins? symbols q = some b →
        b.Reaches b' → b'.InRange := by
  have hstart : Secure limit symbols g { exprs } :=
    ⟨intact_start limit symbols exprs {}, hordered, by simp⟩
  obtain ⟨hsecure, hq, -⟩ := hstart.run hproper
  obtain ⟨hknown, hunbroken⟩ := hsecure.known hq
  refine ⟨⟨hknown, hunbroken, fun f => ?_⟩, fun b b' hb hreach => ?_⟩
  · cases hb : (Session.run limit symbols { exprs } before).begins? symbols q with
    | none => exact answer_of_not_begins hb _
    | some b =>
      obtain ⟨c, v, ids, goal, hwf, hruns⟩ := hsecure.begins hbuild hq hb
      have hfault := Chart.ne_fault_of_runs hwf hruns limit f
      rcases answer_of_begins limit hb with ⟨last, -, hanswer⟩ | ⟨h, hfinish, hanswer⟩
      · simp [hanswer]
      · have hne : h ≠ .fault f := fun heq => hfault (heq ▸ hfinish)
        rcases hanswer with hanswer | hanswer <;> simp [hanswer, hne]
  · obtain ⟨c, v, ids, goal, hwf, hruns⟩ := hsecure.begins hbuild hq hb
    exact (hruns.reaches hwf hreach).inRange hwf

/-- The last token of three begins a step and is read, and then a reading is told. -/
theorem orderly_giveItUp :
    ∃ g, particleVerbs.build = .ok g ∧ ExprStore.Ordered {} ∧
      Proper 9 particleSymbols g { exprs := {} }
        (threeTokens.dropLast ++ [.feed 2 "up"]) ∧
      ((Session.run 9 particleSymbols { exprs := {} } threeTokens.dropLast).ask 9
        particleSymbols (.feed 2 "up")).1.Orderly ∧
      ((Session.run 9 particleSymbols { exprs := {} } threeTokens.dropLast).ask 9
        particleSymbols (.feed 2 "up")).2.states.size = 4 ∧
      (∃ b, (Session.run 9 particleSymbols { exprs := {} } threeTokens.dropLast).begins?
          particleSymbols (.feed 2 "up") = some b ∧
        ∀ b', b.Reaches b' → b'.InRange) ∧
      Proper 9 particleSymbols g { exprs := {} }
        ((threeTokens ++ [.results 3]) ++ [.nextResult 0]) ∧
      ((Session.run 9 particleSymbols { exprs := {} } (threeTokens ++ [.results 3])).ask 9
        particleSymbols (.nextResult 0)).1.Orderly := by
  obtain ⟨g, hbuild, hconcretes⟩ := build_particleVerbs
  have hparse : Origin.Proper g particleSymbols ⟨english, "Action", 0, []⟩ := by
    refine ⟨hconcretes ▸ List.mem_cons_self, fun category hgoal => ?_⟩
    cases goal_english.symm.trans hgoal
    exact fields_english
  have hfed : Proper 9 particleSymbols g { exprs := {} }
      (threeTokens.dropLast ++ [.feed 2 "up"]) := by
    refine ⟨hparse, ?_, ?_, ?_, trivial⟩ <;> dsimp only [Request.Proper] <;> decide +kernel
  have htold : Proper 9 particleSymbols g { exprs := {} }
      ((threeTokens ++ [.results 3]) ++ [.nextResult 0]) := by
    refine ⟨hparse, ?_, ?_, ?_, ?_, ?_, trivial⟩ <;> dsimp only [Request.Proper] <;> decide +kernel
  have hbegins : ((Session.run 9 particleSymbols { exprs := {} } threeTokens.dropLast).begins?
      particleSymbols (.feed 2 "up")).isSome := by
    decide +kernel
  obtain ⟨b, hb⟩ := Option.isSome_iff_exists.1 hbegins
  obtain ⟨hanswer, hrange⟩ := orderly hbuild ExprStore.ordered_empty hfed
  obtain ⟨hanswer', -⟩ := orderly hbuild ExprStore.ordered_empty htold
  exact ⟨g, hbuild, ExprStore.ordered_empty, hfed, hanswer, by decide +kernel,
    ⟨b, hb, fun b' => hrange b b' hb⟩, htold, hanswer'⟩

end Session

end Polyglot
