import Polyglot.Proofs.Session.Run

/-!
# Results come in the same order every time

An enumeration of the readings of a state tells the trees that it owes one by one, each where it is
due, however often the program does something else in between. What it owes at its beginning depends
on the chart that the state sees and on nothing else. So each enumeration of a state tells the same.

- `Answer.Tells`: an answer names a tree by its id, or says that there are no more.
- `Session.Yields`: all enumerations of a state tell the same trees.
- `Session.results_exact`: these are the acyclic unfoldings of what the state has completed, in
  depth-first order.
-/

namespace Polyglot

/-- An answer names a tree by an id that stands for it, or says that there are no more. -/
def Answer.Tells (exprs : ExprStore) (a : Answer) (e? : Option Expr) : Prop :=
  ∃ id?, a = .result id? ∧ Option.Rel exprs.Denotes id? e?

theorem Answer.Tells.extends {exprs exprs' : ExprStore} {a : Answer} {e? : Option Expr}
    (h : a.Tells exprs e?) (hextends : exprs.Extends exprs') : a.Tells exprs' e? := by
  obtain ⟨id?, rfl, hrel⟩ := h
  refine ⟨id?, rfl, ?_⟩
  cases hrel with
  | none => exact .none
  | some hdenotes => exact .some (hdenotes.extends hextends)

namespace Session

variable {limit : Nat} {symbols : SymbolStore} {s : Session}

/-- Whenever the results of a state are asked for from now on, these trees are told one by one, and
after them that there are no more. -/
def Yields (limit : Nat) (symbols : SymbolStore) (s : Session) (n : Nat) (trees : List Expr) :
    Prop :=
  ∀ between after, ∃ k s', (s.run limit symbols between).ask limit symbols (.results n) =
      (.enumeration k, s') ∧
    ∀ (i : Nat) (a : Answer), (s'.replies limit symbols k after)[i]? = some a →
      a.Tells (s'.run limit symbols after).exprs trees[i]?

theorem ask_results {n : Nat} {o : Origin} {state : ParseState}
    (hn : s.states[n]? = some (o, state)) : s.ask limit symbols (.results n) =
      (.enumeration s.readings.size, { s with readings := s.readings.push (state, {}) }) := by
  simp only [ask, hn]

/-- **An enumeration of readings pays what it owes**, one tree a call, and can be asked again. -/
theorem ask_nextResult (limit : Nat) (symbols : SymbolStore) {k : Nat} {state : ParseState}
    {r : Readings}
    (hk : s.readings[k]? = some (state, r)) {owed : List Expr}
    (howes : r.Owes (s.lines.chart state) s.exprs owed) :
    ∃ id? r' exprs counters, s.ask limit symbols (.nextResult k) =
        (.result id?, { s with
          exprs, counters, readings := s.readings.setIfInBounds k (state, r') }) ∧
      s.exprs.Extends exprs ∧ Option.Rel exprs.Denotes id? owed.head? ∧
      r'.Owes (s.lines.chart state) exprs owed.tail := by
  obtain ⟨id?, r', exprs, counters, hnext, hextends, hyields, howes'⟩ := howes.next? s.counters
  refine ⟨id?, r', exprs, counters, ?_, hextends, hyields, howes'⟩
  simp only [ask, hk, hnext]

/-- Only a request for its next result moves an enumeration. -/
theorem After.readings {s' : Session} {q : Request} (h : s.After limit symbols q s') {k : Nat}
    {x : ParseState × Readings} (hk : s.readings[k]? = some x) (hq : q.continues k = false) :
    s'.readings[k]? = some x := by
  cases h with
  | count | parse | feed | store | concretize | nextDerivation => exact hk
  | results hn =>
    have hlt := (Array.getElem?_eq_some_iff.1 hk).1
    rw [Array.getElem?_push_lt hlt, ← Array.getElem?_eq_getElem hlt]
    exact hk
  | @nextResult k' =>
    have hne : k' ≠ k := by simpa [Request.continues] using hq
    rw [Array.getElem?_setIfInBounds_ne hne]
    exact hk

/-- What an enumeration owes is what it tells, whatever is asked for in between. -/
theorem tells_of_owes (h : s.Intact limit symbols) {k : Nat} {state : ParseState} {r : Readings}
    (hk : s.readings[k]? = some (state, r)) {owed : List Expr}
    (howes : r.Owes (s.lines.chart state) s.exprs owed) (after : List Request) {i : Nat}
    {a : Answer} (ha : (s.replies limit symbols k after)[i]? = some a) :
    a.Tells (s.run limit symbols after).exprs owed[i]? := by
  induction after generalizing s r owed i with
  | nil => simp [replies] at ha
  | cons q after ih =>
    obtain ⟨hask, hgrows⟩ := h.ask q
    have hholds := (h.readings k state r hk).1
    have hchart := hgrows.lines.chart hholds
    rw [run_cons]
    cases hq : q.continues k with
    | false =>
      have hreplies : s.replies limit symbols k (q :: after) =
          (s.ask limit symbols q).2.replies limit symbols k after := by
        rw [replies]
        simp [hq]
      rw [hreplies] at ha
      refine ih hask ((s.after_ask q).readings hk hq) ?_ ha
      rw [hchart]
      exact howes.extends hgrows.exprs
    | true =>
      obtain rfl : q = .nextResult k := by
        cases q <;> simp_all [Request.continues]
      obtain ⟨id?, r', exprs, counters, heq, hextends, hyields, howes'⟩ :=
        ask_nextResult limit symbols hk howes
      have hreplies : s.replies limit symbols k (.nextResult k :: after) =
          .result id? :: (s.ask limit symbols (.nextResult k)).2.replies limit symbols k after := by
        rw [replies, heq]
        simp [Request.continues]
      rw [hreplies] at ha
      cases i with
      | zero =>
        obtain rfl : .result id? = a := by simpa using ha
        have htells : (Answer.result id?).Tells exprs owed[0]? := by
          refine ⟨id?, rfl, ?_⟩
          rwa [← List.head?_eq_getElem?]
        have hlater := (hask.run after).2.exprs
        rw [heq] at hlater ⊢
        exact htells.extends hlater
      | succ i =>
        rw [← List.getElem?_tail]
        have hlt := (Array.getElem?_eq_some_iff.1 hk).1
        refine ih hask (r := r') ?_ ?_ (by simpa using ha)
        · rw [heq]
          simp [hlt]
        · rw [heq]
          exact howes'

/-- All enumerations of a state tell what is found in the chart that it sees. -/
theorem Intact.yields (h : s.Intact limit symbols) {n : Nat} {o : Origin} {state : ParseState}
    (hn : s.states[n]? = some (o, state)) :
    s.Yields limit symbols n (Readings.found (s.lines.chart state)) := by
  intro between after
  obtain ⟨hrun, hgrows⟩ := h.run between
  obtain ⟨hasked, -⟩ := hrun.ask (.results n)
  have hn' := hgrows.states n _ hn
  refine ⟨_, _, ask_results hn', fun i a ha => ?_⟩
  rw [ask_results hn'] at hasked
  refine tells_of_owes hasked (Array.getElem?_push_size ..) ?_ after ha
  show Readings.Owes ((s.run limit symbols between).lines.chart state) _ _ _
  rw [hgrows.lines.chart (h.states n o state hn).1]
  exact Readings.owes_start _ _

/-- **Results are the acyclic unfoldings of what a state has completed**, and come in the same order
every time: in any session, from any expressions on, however it came to the state and whatever it
goes on to do. Each distinct tree comes once, where a depth-first search through the completed
categories and their productions first gets to it, and then none comes any more. Where some decision
has more alternatives than a record of decisions can hold, what comes is among these trees, each
once, and in the same order every time. -/
theorem results_exact (limit : Nat) (symbols : SymbolStore) (exprs : ExprStore)
    (before : List Request) {n : Nat} {o : Origin} {state : ParseState}
    (hstate : (Session.run limit symbols { exprs } before).states[n]? = some (o, state)) :
    ∃ chart trees, (Session.run limit symbols { exprs } before).lines.chart state = chart ∧
      trees.Nodup ∧
      (∀ e ∈ trees, ∃ id ∈ chart.completed, chart.Unfolding [] (.chart id) e) ∧
      (chart.Within Choice.maxAlternatives → trees = chart.trees.eraseDups ∧
        ∀ id ∈ chart.completed, ∀ e, chart.Unfolding [] (.chart id) e → e ∈ trees) ∧
      (Session.run limit symbols { exprs } before).Yields limit symbols n trees := by
  have hintact := ((intact_start limit symbols exprs {}).run before).1
  refine ⟨_, _, rfl, Readings.nodup_found _, fun e => Readings.unfolding_of_mem_found,
    fun hwithin => ⟨Readings.found_eq_trees hwithin, fun id hid e he => ?_⟩, hintact.yields hstate⟩
  rw [Readings.found_eq_trees hwithin, List.mem_eraseDups, Chart.mem_trees_iff]
  exact ⟨id, hid, he⟩

/-- Requests that lead to a state after three tokens. -/
def threeTokens : List Request :=
  [.parse english "Action" 0, .feed 0 "give", .feed 1 "it", .feed 2 "up"]

theorem isSome_threeTokens :
    ((Session.run 9 particleSymbols { exprs := {} } threeTokens).states[3]?).isSome := by
  decide +kernel

theorem results_exact_giveItUp :
    ∃ o state, (Session.run 9 particleSymbols { exprs := {} } threeTokens).states[3]? =
        some (o, state) ∧
      ∃ chart trees,
        (Session.run 9 particleSymbols { exprs := {} } threeTokens).lines.chart state = chart ∧
        trees.Nodup ∧
        (∀ e ∈ trees, ∃ id ∈ chart.completed, chart.Unfolding [] (.chart id) e) ∧
        (chart.Within Choice.maxAlternatives → trees = chart.trees.eraseDups ∧
          ∀ id ∈ chart.completed, ∀ e, chart.Unfolding [] (.chart id) e → e ∈ trees) ∧
        (Session.run 9 particleSymbols { exprs := {} } threeTokens).Yields 9 particleSymbols 3
          trees := by
  obtain ⟨⟨o, state⟩, hstate⟩ := Option.isSome_iff_exists.1 isSome_threeTokens
  exact ⟨o, state, hstate, results_exact 9 particleSymbols {} threeTokens hstate⟩

end Session

end Polyglot
