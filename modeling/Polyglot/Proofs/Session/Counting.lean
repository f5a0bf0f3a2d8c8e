import Polyglot.Proofs.Chart.Counting
import Polyglot.Proofs.Session.Results

/-!
# The counters tell what happened

All parses and enumerations of a session share one set of counters, and requests come in any order:
states are fed again and again, enumerations are left half-way and taken up later. In the end the
counters can be checked against what the program has got and what it was told. Every step that was
built is the last one of a state, so the states know the item sets, the categories and the items
that were combined; the answers know the rest.

- `Session.log`: the requests of a session and their answers.
- `Readings.next?_counts`, `Concretizations.next?_counts`: what an enumeration counts.
- `Session.Accounts`: the counters are what there is; `Session.Accounts.ask`: every request keeps
  them so.
- `Session.counters_exact`: so they are after any requests.
-/

namespace Polyglot

/-! ## What enumerations count -/

/-- A reading that is yielded is counted, and nothing else is. -/
theorem Readings.next?_counts {chart : Chart} {r r' : Readings} {exprs exprs' : ExprStore}
    {counters counters' : Counters} {id? : Option ExprId}
    (h : r.next? chart exprs counters = .ok (id?, r', exprs', counters')) :
    counters' = { counters with
      parseTrees := counters.parseTrees + if id?.isSome then 1 else 0 } := by
  obtain ⟨⟨b?, search, state⟩, hnext, heq⟩ := bind_eq_ok.1 h
  cases heq
  refine Search.next?_outcome (P := fun state : State => state.counters = counters)
    (Q := fun b? (state : State) => state.counters = { counters with
      parseTrees := counters.parseTrees + if b?.isSome then 1 else 0 })
    (fun state hstate => hstate) (fun v state hstate => ?_) r.search rfl hnext
  subst hstate
  unfold accept
  rcases v with _ | parts | e
  · exact ⟨fun _ => rfl, nofun⟩
  · exact ⟨fun _ => rfl, nofun⟩
  · dsimp only
    split
    · exact ⟨fun _ => rfl, nofun⟩
    · exact ⟨nofun, fun _ _ => rfl⟩

/-- What the search for a derivation counts: as many advances as walks, and every walk comes to a
dead end, to a derivation, or to one that was there before. -/
theorem Concretizations.next?_counts {l : Linearizer} {e : Expr} {c c' : Concretizations}
    {counters counters' : Counters} {d? : Option Derivation}
    (h : c.next? l e counters = .ok (d?, c', counters')) :
    ∃ walks failures, failures + (if d?.isSome then 1 else 0) ≤ walks ∧
      counters' = { counters with
        concretizeAttempts := counters.concretizeAttempts + walks
        concretizeFailures := counters.concretizeFailures + failures
        backtracks := counters.backtracks + walks
        concreteTrees := counters.concreteTrees + if d?.isSome then 1 else 0 } := by
  obtain ⟨⟨b?, search, seen, counters₁⟩, hnext, heq⟩ := bind_eq_ok.1 h
  cases heq
  refine Search.next?_outcome
    (P := fun state : List Derivation × Counters => ∃ walks failures, failures ≤ walks ∧
      state.2 = { counters with
        concretizeAttempts := counters.concretizeAttempts + walks
        concretizeFailures := counters.concretizeFailures + failures
        backtracks := counters.backtracks + walks })
    (Q := fun b? (state : List Derivation × Counters) => ∃ walks failures,
      failures + (if b?.isSome then 1 else 0) ≤ walks ∧ state.2 = { counters with
        concretizeAttempts := counters.concretizeAttempts + walks
        concretizeFailures := counters.concretizeFailures + failures
        backtracks := counters.backtracks + walks
        concreteTrees := counters.concreteTrees + if b?.isSome then 1 else 0 })
    (fun state hstate => hstate) (fun v state hstate => ?_) c.search
    ⟨0, 0, Nat.le_refl 0, rfl⟩ hnext
  obtain ⟨seen', counters₂⟩ := state
  obtain ⟨walks, failures, hle, heq⟩ := hstate
  subst heq
  unfold accept
  cases v with
  | none => exact ⟨fun _ => ⟨walks + 1, failures + 1, Nat.succ_le_succ hle, rfl⟩, nofun⟩
  | some d =>
    dsimp only
    split
    · exact ⟨fun _ => ⟨walks + 1, failures, Nat.le_succ_of_le hle, rfl⟩, nofun⟩
    · exact ⟨nofun, fun _ _ => ⟨walks + 1, failures, Nat.succ_le_succ hle, rfl⟩⟩

/-! ## Requests and answers -/

namespace Answer

/-- The step that a request began was built to its end. -/
def Finished : Answer → Prop
  | .halt _ | .refusal (.halt _) => False
  | _ => True

instance (a : Answer) : Decidable a.Finished := by
  unfold Finished
  split <;> infer_instance

/-- A new state was got. -/
def isState : Answer → Bool
  | .state _ => true
  | _ => false

/-- No item waited for a token. -/
def isRejected : Answer → Bool
  | .rejected => true
  | _ => false

/-- A reading was yielded. -/
def isReading : Answer → Bool
  | .result (some _) => true
  | _ => false

/-- A derivation was yielded. -/
def isDerivation : Answer → Bool
  | .derivation (some _) => true
  | _ => false

end Answer

namespace Session

/-- What a program asked and was told, and what it had got before. -/
structure Entry where
  before : Session
  request : Request
  answer : Answer

/-- How many items a request moved over a token: those that waited for it, if a state came of it. -/
def Entry.scanned (symbols : SymbolStore) (e : Entry) : Nat :=
  match e.request, e.answer with
  | .feed n token, .state _ =>
    ((e.before.states[n]?).map fun (_, state) => state.waiting symbols token).getD 0
  | _, _ => 0

/-- Requests with their answers. -/
def log (limit : Nat) (symbols : SymbolStore) : Session → List Request → List Entry
  | _, [] => []
  | s, q :: qs =>
    ⟨s, q, (s.ask limit symbols q).1⟩ :: log limit symbols (s.ask limit symbols q).2 qs

variable {limit : Nat} {symbols : SymbolStore} {s s' : Session} {entries : List Entry}

/-- The counters are what the states show and what the program was told. -/
structure Accounts (symbols : SymbolStore) (entries : List Entry) (s : Session) : Prop where
  /-- Every step that was built is the last one of a state. -/
  states : s.states.size = entries.countP (·.answer.isState)
  predictions : s.counters.predictions =
    (s.states.toList.map fun (_, state) => state.last.itemSets.size).sum
  syntheticCategories : s.counters.syntheticCategories =
    (s.states.toList.map fun (_, state) => state.last.cats.size).sum
  /-- Each item that waits for a category was combined with it once. -/
  combinations : s.counters.combinations =
    (s.states.toList.map fun (_, state) => state.last.awaited (s.lines.steps state)).sum
  scans : s.counters.scans = (entries.map (Entry.scanned symbols)).sum
  rejectedTokens : s.counters.rejectedTokens = entries.countP (·.answer.isRejected)
  parseTrees : s.counters.parseTrees = entries.countP (·.answer.isReading)
  concreteTrees : s.counters.concreteTrees = entries.countP (·.answer.isDerivation)
  backtracks : s.counters.backtracks = s.counters.concretizeAttempts
  /-- Every walk that is not a dead end and yields nothing was there before. -/
  attempts : s.counters.concretizeFailures + s.counters.concreteTrees ≤
    s.counters.concretizeAttempts

theorem accounts_start (symbols : SymbolStore) (exprs : ExprStore) :
    Accounts symbols [] { exprs } where
  states := rfl
  predictions := rfl
  syntheticCategories := rfl
  combinations := rfl
  scans := rfl
  rejectedTokens := rfl
  parseTrees := rfl
  concreteTrees := rfl
  backtracks := rfl
  attempts := Nat.le_refl 0

/-! ## Requests that get no state -/

theorem Entry.scanned_eq_zero {e : Entry} (h : e.answer.isState = false) :
    e.scanned symbols = 0 := by
  obtain ⟨before, request, answer⟩ := e
  cases answer with
  | state number => cases (show true = false from h)
  | _ => cases request <;> rfl

theorem countP_concat {p : Entry → Bool} (e : Entry) :
    (entries ++ [e]).countP p = entries.countP p + if p e then 1 else 0 := by
  rw [List.countP_append, List.countP_singleton]

/-- A request that gets no state counts what it is answered, and the walks that it takes. -/
theorem Accounts.count (h : s.Accounts symbols entries) {e : Entry}
    (hanswer : e.answer.isState = false) (hstates : s'.states = s.states)
    (hlines : s'.lines = s.lines) (walks failures : Nat)
    (hwalks : failures + (if e.answer.isDerivation then 1 else 0) ≤ walks)
    (hcounters : s'.counters = { s.counters with
      rejectedTokens := s.counters.rejectedTokens + if e.answer.isRejected then 1 else 0
      parseTrees := s.counters.parseTrees + if e.answer.isReading then 1 else 0
      concretizeAttempts := s.counters.concretizeAttempts + walks
      concretizeFailures := s.counters.concretizeFailures + failures
      backtracks := s.counters.backtracks + walks
      concreteTrees := s.counters.concreteTrees + if e.answer.isDerivation then 1 else 0 }) :
    s'.Accounts symbols (entries ++ [e]) where
  states := by rw [hstates, h.states, countP_concat, hanswer]; rfl
  predictions := by rw [hstates, hcounters]; exact h.predictions
  syntheticCategories := by rw [hstates, hcounters]; exact h.syntheticCategories
  combinations := by rw [hstates, hlines, hcounters]; exact h.combinations
  scans := by
    rw [hcounters, List.map_append, List.sum_append, List.map_singleton, List.sum_singleton,
      Entry.scanned_eq_zero hanswer]
    exact h.scans
  rejectedTokens := by rw [hcounters, countP_concat, ← h.rejectedTokens]
  parseTrees := by rw [hcounters, countP_concat, ← h.parseTrees]
  concreteTrees := by rw [hcounters, countP_concat, ← h.concreteTrees]
  backtracks := by rw [hcounters]; exact congrArg (· + walks) h.backtracks
  attempts := by
    have hattempts := h.attempts
    rw [hcounters]
    dsimp only
    omega

/-- A request that gets nothing counts nothing. -/
theorem Accounts.idle (h : s.Accounts symbols entries) {e : Entry} (hstates : s'.states = s.states)
    (hlines : s'.lines = s.lines) (hcounters : s'.counters = s.counters)
    (hstate : e.answer.isState = false) (hrejected : e.answer.isRejected = false)
    (hreading : e.answer.isReading = false) (hderivation : e.answer.isDerivation = false) :
    s'.Accounts symbols (entries ++ [e]) := by
  refine h.count hstate hstates hlines 0 0 ?_ ?_
  · rw [hderivation]
    exact Nat.le_refl 0
  · rw [hcounters, hrejected, hreading, hderivation]
    rfl

/-! ## Requests that get a state -/

/-- A new state accounts for what was counted while its last step was built. -/
theorem Accounts.addState (h : s.Accounts symbols entries)
    (hholds : ∀ (n : Nat) (o : Origin) (state : ParseState), s.states[n]? = some (o, state) →
      s.lines.Holds state) {new : ParseState × Lines} (hkeeps : s.lines.Keeps new.2)
    {o : Origin} {counters : Counters} {e : Entry} (hanswer : e.answer = .state s.states.size)
    (hcounters : counters.tally = s.counters.built new.1.last.itemSets.size
      new.1.last.cats.size (new.1.last.awaited (new.2.steps new.1)) (e.scanned symbols)) :
    (Session.addState { s with counters } o new).2.Accounts symbols (entries ++ [e]) := by
  have hsteps : s.states.toList.map (fun (_, state) => state.last.awaited (new.2.steps state)) =
      s.states.toList.map fun (_, state) => state.last.awaited (s.lines.steps state) := by
    refine List.map_congr_left fun x hx => ?_
    obtain ⟨n, hn⟩ := List.mem_iff_getElem?.1 hx
    have hstate := hholds n x.1 x.2 (Array.getElem?_toList.symm.trans hn)
    dsimp only
    rw [hstate.steps, (hkeeps.holds hstate).steps, hkeeps.chart hstate]
  have hpush : ∀ f : Origin × ParseState → Nat,
      ((s.states.push (o, new.1)).toList.map f).sum =
        (s.states.toList.map f).sum + f (o, new.1) := by
    intro f
    rw [Array.toList_push, List.map_append, List.sum_append, List.map_singleton,
      List.sum_singleton]
  constructor
  case states =>
    show (s.states.push (o, new.1)).size = _
    rw [Array.size_push, h.states, countP_concat, hanswer]
    rfl
  case predictions =>
    show _ = ((s.states.push (o, new.1)).toList.map _).sum
    rw [hpush, ← h.predictions]
    exact congrArg Counters.predictions hcounters
  case syntheticCategories =>
    show _ = ((s.states.push (o, new.1)).toList.map _).sum
    rw [hpush, ← h.syntheticCategories]
    exact congrArg Counters.syntheticCategories hcounters
  case combinations =>
    show _ = ((s.states.push (o, new.1)).toList.map _).sum
    rw [hpush]
    refine Eq.trans ?_ (congrArg (· + _) (congrArg List.sum hsteps.symm))
    rw [← h.combinations]
    exact congrArg Counters.combinations hcounters
  case scans =>
    rw [List.map_append, List.sum_append, ← h.scans, List.map_singleton, List.sum_singleton]
    exact congrArg Counters.scans hcounters
  case rejectedTokens =>
    have hrejectedTokens := congrArg Counters.rejectedTokens hcounters
    rw [countP_concat, ← h.rejectedTokens, hanswer]
    exact hrejectedTokens
  case parseTrees =>
    have hparseTrees := congrArg Counters.parseTrees hcounters
    rw [countP_concat, ← h.parseTrees, hanswer]
    exact hparseTrees
  case concreteTrees =>
    have hconcreteTrees := congrArg Counters.concreteTrees hcounters
    rw [countP_concat, ← h.concreteTrees, hanswer]
    exact hconcreteTrees
  case backtracks =>
    have hattempts := congrArg Counters.concretizeAttempts hcounters
    exact (congrArg Counters.backtracks hcounters).trans (h.backtracks.trans hattempts.symm)
  case attempts =>
    have hattempts := congrArg Counters.concretizeAttempts hcounters
    have hfailures := congrArg Counters.concretizeFailures hcounters
    have htrees := congrArg Counters.concreteTrees hcounters
    have hle := h.attempts
    show counters.concretizeFailures + counters.concreteTrees ≤ counters.concretizeAttempts
    simp only [Counters.tally, Counters.built] at hattempts hfailures htrees
    omega

/-! ## Any request -/

/-- The last steps of all states store the items that wait for tokens. -/
def Stored (s : Session) : Prop :=
  ∀ (n : Nat) (o : Origin) (state : ParseState), s.states[n]? = some (o, state) →
    state.last.Stored

theorem Stored.addState (h : s.Stored) {counters : Counters} {o : Origin}
    {new : ParseState × Lines} (hnew : new.1.last.Stored) :
    (Session.addState { s with counters } o new).2.Stored := by
  intro n o' state hn
  replace hn : (s.states.push (o, new.1))[n]? = some (o', state) := hn
  rw [Array.getElem?_push] at hn
  split at hn
  · cases hn
    exact hnew
  · exact h n o' state hn

/-- A parse accounts for its first step. -/
theorem Accounts.parse (h : s.Accounts symbols entries) (hintact : s.Intact limit symbols)
    (hstored : s.Stored) {c : Concrete} {cat : String} {field : Nat}
    (hfinished : (s.ask limit symbols (.parse c cat field)).1.Finished) :
    (s.ask limit symbols (.parse c cat field)).2.Accounts symbols
        (entries ++ [⟨s, .parse c cat field, (s.ask limit symbols (.parse c cat field)).1⟩]) ∧
      (s.ask limit symbols (.parse c cat field)).2.Stored := by
  rw [ask, ParseState.parse_eq] at hfinished ⊢
  cases hparse : Chart.parse limit symbols c cat field s.counters with
  | mk outcome counters =>
    rw [hparse] at hfinished
    rcases outcome with (e | halt) | chart
    · obtain rfl := Chart.parse_refuses hparse
      exact ⟨h.idle rfl rfl rfl rfl rfl rfl rfl, hstored⟩
    · exact absurd hfinished id
    · obtain ⟨hcounts, hlast⟩ := Chart.parse_counts hparse
      have hchart := ParseState.chart_eq_of_parse limit symbols (congrArg Prod.fst hparse)
      refine ⟨h.addState (fun n o state hn => (hintact.states n o state hn).1)
        (s.lines.keeps_begin c #[] chart.last) rfl ?_, hstored.addState hlast⟩
      have hsteps : (s.lines.begin c #[] chart.last).2.steps
          (s.lines.begin c #[] chart.last).1 = chart.steps := by
        rw [(s.lines.holds_begin c #[] chart.last).steps, Lines.chart_begin, ← hchart]
      rw [hsteps]
      exact hcounts

/-- A token that is fed accounts for the step after it, or for its rejection. -/
theorem Accounts.feed (h : s.Accounts symbols entries) (hintact : s.Intact limit symbols)
    (hstored : s.Stored) {n : Nat} {token : String}
    (hfinished : (s.ask limit symbols (.feed n token)).1.Finished) :
    (s.ask limit symbols (.feed n token)).2.Accounts symbols
        (entries ++ [⟨s, .feed n token, (s.ask limit symbols (.feed n token)).1⟩]) ∧
      (s.ask limit symbols (.feed n token)).2.Stored := by
  rw [ask] at hfinished ⊢
  cases hn : s.states[n]? with
  | none => exact ⟨h.idle rfl rfl rfl rfl rfl rfl rfl, hstored⟩
  | some entry =>
    obtain ⟨o, state⟩ := entry
    obtain ⟨hholds, -⟩ := hintact.states n o state hn
    rw [hn] at hfinished
    dsimp only at hfinished ⊢
    rw [ParseState.feed_eq limit symbols hholds] at hfinished ⊢
    cases hfeed : (s.lines.chart state).feed limit symbols token s.counters with
    | mk outcome counters =>
      rw [hfeed] at hfinished
      rcases outcome with halt | _ | chart
      · exact absurd hfinished id
      · obtain rfl := Chart.feed_rejects hfeed
        exact ⟨h.count rfl rfl rfl 0 0 (Nat.le_refl 0) rfl, hstored⟩
      · obtain ⟨hcounts, hlast⟩ := Chart.feed_counts (hstored n o state hn) hfeed
        have hchart := ParseState.chart_eq_of_feed limit symbols (congrArg Prod.fst hfeed)
        have hnew : (s.lines.extend state chart.last).1.last = chart.last :=
          congrArg Chart.last (hholds.chart_extend chart.last)
        have hsteps : (s.lines.extend state chart.last).2.steps
            (s.lines.extend state chart.last).1 = chart.steps := by
          rw [(hholds.holds_extend chart.last).steps, hholds.chart_extend]
          exact congrArg Chart.steps hchart.symm
        have hscanned : Entry.scanned symbols ⟨s, .feed n token, .state s.states.size⟩ =
            (s.lines.chart state).waiting symbols token := by
          show ((s.states[n]?).map _).getD 0 = _
          rw [hn]
          rfl
        have hcounters : counters.tally = s.counters.built
            (s.lines.extend state chart.last).1.last.itemSets.size
            (s.lines.extend state chart.last).1.last.cats.size
            ((s.lines.extend state chart.last).1.last.awaited
              ((s.lines.extend state chart.last).2.steps (s.lines.extend state chart.last).1))
            (Entry.scanned symbols ⟨s, .feed n token, .state s.states.size⟩) := by
          rw [hnew, hsteps, hscanned]
          exact hcounts
        have hkeeps := s.lines.keeps_extend state chart.last
        have hstates := fun n o state hn => (hintact.states n o state hn).1
        exact ⟨h.addState hstates hkeeps rfl hcounters, hstored.addState (hnew.symm ▸ hlast)⟩

/-- **Every request** keeps the counters what there is, if the step that it begins is built. -/
theorem Accounts.ask (h : s.Accounts symbols entries) (hintact : s.Intact limit symbols)
    (hstored : s.Stored) (q : Request) (hfinished : (s.ask limit symbols q).1.Finished) :
    (s.ask limit symbols q).2.Accounts symbols (entries ++ [⟨s, q, (s.ask limit symbols q).1⟩]) ∧
      (s.ask limit symbols q).2.Stored := by
  cases q with
  | parse c cat field => exact h.parse hintact hstored hfinished
  | feed n token => exact h.feed hintact hstored hfinished
  | store node => exact ⟨h.idle rfl rfl rfl rfl rfl rfl rfl, hstored⟩
  | results n =>
    rw [Session.ask]
    cases s.states[n]? with
    | none => exact ⟨h.idle rfl rfl rfl rfl rfl rfl rfl, hstored⟩
    | some entry => exact ⟨h.idle rfl rfl rfl rfl rfl rfl rfl, hstored⟩
  | nextResult n =>
    rw [Session.ask]
    cases s.readings[n]? with
    | none => exact ⟨h.idle rfl rfl rfl rfl rfl rfl rfl, hstored⟩
    | some entry =>
      obtain ⟨state, r⟩ := entry
      dsimp only
      cases hnext : r.next? (s.lines.chart state) s.exprs s.counters with
      | error f => exact ⟨h.idle rfl rfl rfl rfl rfl rfl rfl, hstored⟩
      | ok outcome =>
        obtain ⟨id?, r', exprs, counters⟩ := outcome
        obtain rfl := Readings.next?_counts hnext
        refine ⟨h.count rfl rfl rfl 0 0 (Nat.le_refl 0) ?_, hstored⟩
        cases id? with
        | none => rfl
        | some id => rfl
  | concretize l id =>
    rw [Session.ask]
    cases s.exprs.expr? id with
    | none => exact ⟨h.idle rfl rfl rfl rfl rfl rfl rfl, hstored⟩
    | some e => exact ⟨h.idle rfl rfl rfl rfl rfl rfl rfl, hstored⟩
  | nextDerivation n =>
    rw [Session.ask]
    cases s.concretizations[n]? with
    | none => exact ⟨h.idle rfl rfl rfl rfl rfl rfl rfl, hstored⟩
    | some entry =>
      obtain ⟨l, e, c⟩ := entry
      dsimp only
      cases hnext : c.next? l e s.counters with
      | error f => exact ⟨h.idle rfl rfl rfl rfl rfl rfl rfl, hstored⟩
      | ok outcome =>
        obtain ⟨d?, c', counters⟩ := outcome
        obtain ⟨walks, failures, hle, rfl⟩ := Concretizations.next?_counts hnext
        cases d? with
        | none => exact ⟨h.count rfl rfl rfl walks failures hle rfl, hstored⟩
        | some d => exact ⟨h.count rfl rfl rfl walks failures hle rfl, hstored⟩

/-! ## Any number of requests -/

theorem Accounts.run (h : s.Accounts symbols entries) (hintact : s.Intact limit symbols)
    (hstored : s.Stored) {qs : List Request}
    (hfinished : ∀ e ∈ s.log limit symbols qs, e.answer.Finished) :
    (s.run limit symbols qs).Accounts symbols (entries ++ s.log limit symbols qs) := by
  induction qs generalizing s entries with
  | nil => exact (List.append_nil entries).symm ▸ h
  | cons q qs ih =>
    obtain ⟨hask, hstored'⟩ := h.ask hintact hstored q (hfinished _ List.mem_cons_self)
    have hrun := ih hask (hintact.ask q).1 hstored' fun e he =>
      hfinished e (List.mem_cons_of_mem _ he)
    rwa [List.append_assoc, List.singleton_append] at hrun

/-- **The counters tell what happened**, over any requests: each of them is what the states show or
what the program was told, as long as every step that was begun came to its end. -/
theorem counters_exact (limit : Nat) (symbols : SymbolStore) (exprs : ExprStore)
    (qs : List Request)
    (hfinished : ∀ e ∈ log limit symbols { exprs } qs, e.answer.Finished) :
    (run limit symbols { exprs } qs).Accounts symbols (log limit symbols { exprs } qs) := by
  have hstart := accounts_start symbols exprs
  have hintact := intact_start limit symbols exprs {}
  have hstored : Stored { exprs } := by
    intro n o state hn
    simp at hn
  exact hstart.run hintact hstored hfinished

/-- The functions of the verbs with particles. -/
def particleFunctions : Abstract where
  name := ⟨0⟩
  funs := [{ name := ⟨3⟩, args := [], cat := ⟨2⟩ }, { name := ⟨4⟩, args := [⟨2⟩], cat := ⟨1⟩ }]

/-- A token that is rejected, and a search for derivations that is left half-way. -/
def halfWay : List Request :=
  threeTokens ++ [.feed 0 "up", .results 3, .nextResult 0,
    .concretize (.ofConcrete ⟨particleFunctions, [english]⟩ english) ⟨1⟩, .nextDerivation 0,
    .nextResult 0]

theorem counters_exact_halfWay :
    (∀ e ∈ log 9 particleSymbols { exprs := {} } halfWay, e.answer.Finished) ∧
      (run 9 particleSymbols { exprs := {} } halfWay).Accounts particleSymbols
        (log 9 particleSymbols { exprs := {} } halfWay) := by
  have hfinished : ∀ e ∈ log 9 particleSymbols { exprs := {} } halfWay, e.answer.Finished := by
    decide +kernel
  exact ⟨hfinished, counters_exact 9 particleSymbols {} halfWay hfinished⟩

end Session

end Polyglot
