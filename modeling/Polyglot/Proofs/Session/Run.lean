import Polyglot.Proofs.Chart.Answers
import Polyglot.Proofs.Chart.Exactness
import Polyglot.Proofs.Chart.Growth
import Polyglot.Proofs.Session.Basic
import Polyglot.Proofs.Session.Lines

/-!
# What a program has got stays what it is

Requests only add to what a program has got: vectors grow, expressions are stored, and there are
more states and enumerations. So a state sees the same chart for ever, and that chart is the one of
its own tokens, whatever else was parsed and fed before, in between or since.

- `Origin.chart?`: the chart of some tokens by themselves.
- `Session.Intact`, `Session.Grows`: what every request keeps, `Session.Intact.ask`, and so any
  number of them, `Session.Intact.run`.
-/

namespace Polyglot

/-! ## The chart of some tokens -/

namespace Chart

variable {limit : Nat} {symbols : SymbolStore}

/-- What was counted before does not matter to what comes of some tokens. -/
theorem feedAll_counters (chart : Chart) (tokens : List String) (counters counters' : Counters) :
    (chart.feedAll limit symbols tokens counters').1 =
      (chart.feedAll limit symbols tokens counters).1 := by
  induction tokens generalizing chart counters counters' with
  | nil => rfl
  | cons token tokens ih =>
    have hfeed := feed_counters limit symbols chart token counters counters'
    rw [feedAll, feedAll]
    cases h : chart.feed limit symbols token counters with
    | mk r k =>
      cases h' : chart.feed limit symbols token counters' with
      | mk r' k' =>
        rw [h, h'] at hfeed
        obtain rfl : r' = r := hfeed
        rcases r' with f | _ | next
        · rfl
        · rfl
        · exact ih next k k'

/-- One token more. -/
theorem feedAll_snoc {chart chart' : Chart} {tokens : List String} {token : String}
    {counters : Counters} :
    (chart.feedAll limit symbols (tokens ++ [token]) counters).1 = .ok (some chart') ↔
      ∃ chart₁, (chart.feedAll limit symbols tokens counters).1 = .ok (some chart₁) ∧
        ∀ counters, (chart₁.feed limit symbols token counters).1 = .ok (some chart') := by
  induction tokens generalizing chart counters with
  | nil =>
    rw [List.nil_append, feedAll, feedAll]
    constructor
    · intro h
      refine ⟨chart, rfl, fun counters' => ?_⟩
      rw [feed_counters limit symbols chart token counters counters']
      split at h
      · rename_i hfeed
        rw [hfeed]
        cases h
        rfl
      · cases h
      · cases h
    · rintro ⟨chart₁, hchart, hfeed⟩
      cases hchart
      have := hfeed counters
      split
      · rename_i heq
        rw [heq] at this
        cases this
        rfl
      · rename_i heq
        rw [heq] at this
        cases this
      · rename_i heq
        rw [heq] at this
        cases this
  | cons first tokens ih =>
    rw [List.cons_append, feedAll, feedAll]
    split
    · exact ih
    · simp
    · simp

variable {c : Concrete} {cat : String} {field : Nat}

theorem ofTokens?_eq_some_iff {tokens : List String} {chart : Chart} :
    ofTokens? limit symbols c cat field tokens = some chart ↔
      ∃ chart₀, (∀ counters, (parse limit symbols c cat field counters).1 = .ok chart₀) ∧
        ∀ counters, (chart₀.feedAll limit symbols tokens counters).1 = .ok (some chart) := by
  constructor
  · intro h
    obtain ⟨chart₀, counters₀, hparse, hfeed⟩ := exists_of_ofTokens? h
    refine ⟨chart₀, fun counters => ?_, fun counters => ?_⟩
    · rw [parse_counters limit symbols c cat field {} counters, hparse]
    · rw [feedAll_counters chart₀ tokens counters₀ counters, hfeed]
  · rintro ⟨chart₀, hparse, hfeed⟩
    have hstart := hparse {}
    unfold ofTokens?
    cases h : parse limit symbols c cat field {} with
    | mk r counters =>
      rw [h] at hstart
      obtain rfl : r = .ok chart₀ := hstart
      simp only [hfeed counters]

theorem ofTokens?_nil {chart : Chart} :
    ofTokens? limit symbols c cat field [] = some chart ↔
      ∀ counters, (parse limit symbols c cat field counters).1 = .ok chart := by
  rw [ofTokens?_eq_some_iff]
  constructor
  · rintro ⟨chart₀, hparse, hfeed⟩
    cases hfeed {}
    exact hparse
  · exact fun h => ⟨chart, h, fun _ => rfl⟩

theorem ofTokens?_snoc {tokens : List String} {token : String} {chart' : Chart} :
    ofTokens? limit symbols c cat field (tokens ++ [token]) = some chart' ↔
      ∃ chart, ofTokens? limit symbols c cat field tokens = some chart ∧
        ∀ counters, (chart.feed limit symbols token counters).1 = .ok (some chart') := by
  simp only [ofTokens?_eq_some_iff]
  constructor
  · rintro ⟨chart₀, hparse, hfeed⟩
    obtain ⟨chart, hchart, htoken⟩ := feedAll_snoc.1 (hfeed {})
    refine ⟨chart, ⟨chart₀, hparse, fun counters => ?_⟩, htoken⟩
    rw [feedAll_counters chart₀ tokens {} counters, hchart]
  · rintro ⟨chart, ⟨chart₀, hparse, hfeed⟩, htoken⟩
    exact ⟨chart₀, hparse, fun counters => feedAll_snoc.2 ⟨chart, hfeed counters, htoken⟩⟩

/-- No token led to the beginning. -/
theorem tokens_of_parse {counters : Counters} {chart : Chart}
    (h : (parse limit symbols c cat field counters).1 = .ok chart) : chart.tokens symbols = [] := by
  unfold parse at h
  split at h
  · cases h
  · dsimp only at h
    split at h
    · rename_i last _ hfinish
      cases h
      have htoken := Building.token_of_finish (congrArg Prod.fst hfinish)
      rw [(Building.grows_predictTop ..).token] at htoken
      simp [tokens, steps, htoken, Building.start]
    · cases h

/-- The token that was fed led to the last step. -/
theorem tokens_of_feed {chart chart' : Chart} {token : String} {counters : Counters}
    (h : (chart.feed limit symbols token counters).1 = .ok (some chart')) :
    chart'.tokens symbols = chart.tokens symbols ++ [token] := by
  unfold feed at h
  split at h
  · cases h
  · rename_i sym items hwaiting
    dsimp only at h
    split at h
    · rename_i last _ hfinish
      cases h
      have htoken : last.token = some sym := by
        rw [Building.token_of_finish (congrArg Prod.fst hfinish),
          (Building.grows_foldl (fun b item => b.grows_scan item) _ _).token]
        rfl
      have hsym : symbols.find? token = some sym := by
        obtain ⟨sym', hfind, hitems⟩ := Option.bind_eq_some_iff.1 hwaiting
        split at hitems
        · cases hitems
        · cases hitems
          exact hfind
      have hresolve := SymbolStore.find?_eq_some_iff.1 hsym
      show ((chart.steps.push last).toList.filterMap Step.token).filterMap symbols.resolve? = _
      rw [Array.toList_push, List.filterMap_append, List.filterMap_append]
      simp [tokens, htoken, hresolve]
    · cases h

/-- The tokens of a chart are those that were fed to it. -/
theorem tokens_of_ofTokens? {tokens : List String} {chart : Chart}
    (h : ofTokens? limit symbols c cat field tokens = some chart) :
    chart.tokens symbols = tokens := by
  induction tokens using List.reverseRecOn generalizing chart with
  | nil => exact tokens_of_parse (ofTokens?_nil.1 h {})
  | append_singleton tokens token ih =>
    obtain ⟨chart₁, h₁, hfeed⟩ := ofTokens?_snoc.1 h
    rw [tokens_of_feed (hfeed {}), ih h₁]

end Chart

/-- The chart of the tokens that a state came about by. -/
def Origin.chart? (limit : Nat) (symbols : SymbolStore) (o : Origin) : Option Chart :=
  Chart.ofTokens? limit symbols o.concrete o.cat o.field o.tokens

/-! ## What requests keep -/

/-- An entry of an array in which one was replaced is the new one or was there before. -/
theorem eq_or_of_getElem?_setIfInBounds {α : Type} {xs : Array α} {i j : Nat} {a b : α}
    (h : (xs.setIfInBounds i a)[j]? = some b) : b = a ∨ xs[j]? = some b := by
  rw [Array.getElem?_setIfInBounds] at h
  split at h
  · split at h
    · exact .inl (Option.some.inj h).symm
    · cases h
  · exact .inr h

namespace Session

variable {limit : Nat} {symbols : SymbolStore} {s s' s'' : Session}

/-- States see the charts of the tokens that they came about by, and enumerations stand where they
can go on. -/
structure Intact (limit : Nat) (symbols : SymbolStore) (s : Session) : Prop where
  states : ∀ (n : Nat) (o : Origin) (state : ParseState), s.states[n]? = some (o, state) →
    s.lines.Holds state ∧ o.chart? limit symbols = some (s.lines.chart state)
  readings : ∀ (n : Nat) (state : ParseState) (r : Readings), s.readings[n]? = some (state, r) →
    s.lines.Holds state ∧ ∃ owed, r.Owes (s.lines.chart state) s.exprs owed
  concretizations : ∀ (n : Nat) (l : Linearizer) (e : Expr) (c : Concretizations),
    s.concretizations[n]? = some (l, e, c) → Search.Stands (l.derivations e).cut c.search

/-- What was got before is still there. Enumerations may have gone on. -/
structure Grows (s s' : Session) : Prop where
  lines : s.lines.Keeps s'.lines
  exprs : s.exprs.Extends s'.exprs
  states : ∀ (n : Nat) (x : Origin × ParseState), s.states[n]? = some x → s'.states[n]? = some x

theorem Grows.refl (s : Session) : Grows s s := ⟨.refl _, .refl _, fun _ _ h => h⟩

theorem Grows.trans (h : Grows s s') (h' : Grows s' s'') : Grows s s'' :=
  ⟨h.lines.trans h'.lines, h.exprs.trans h'.exprs, fun n x hn => h'.states n x (h.states n x hn)⟩

/-- A session that has got nothing yet, but for expressions, is intact. -/
theorem intact_start (limit : Nat) (symbols : SymbolStore) (exprs : ExprStore)
    (counters : Counters) :
    Intact limit symbols { exprs, counters } := ⟨by simp, by simp, by simp⟩

/-- What is got more leaves a session intact if it is so by itself. -/
theorem Intact.grow (h : s.Intact limit symbols) (hgrows : Grows s s')
    (hstates : ∀ (n : Nat) (o : Origin) (state : ParseState), s'.states[n]? = some (o, state) →
      s.states[n]? = some (o, state) ∨
        s'.lines.Holds state ∧ o.chart? limit symbols = some (s'.lines.chart state))
    (hreadings : ∀ (n : Nat) (state : ParseState) (r : Readings),
      s'.readings[n]? = some (state, r) → s.readings[n]? = some (state, r) ∨
        s'.lines.Holds state ∧ ∃ owed, r.Owes (s'.lines.chart state) s'.exprs owed)
    (hconcretizations : ∀ (n : Nat) (l : Linearizer) (e : Expr) (c : Concretizations),
      s'.concretizations[n]? = some (l, e, c) → s.concretizations[n]? = some (l, e, c) ∨
        Search.Stands (l.derivations e).cut c.search) : s'.Intact limit symbols where
  states n o state hn := by
    rcases hstates n o state hn with hn | hnew
    · obtain ⟨hholds, hchart⟩ := h.states n o state hn
      exact ⟨hgrows.lines.holds hholds, by rw [hgrows.lines.chart hholds, hchart]⟩
    · exact hnew
  readings n state r hn := by
    rcases hreadings n state r hn with hn | hnew
    · obtain ⟨hholds, owed, howes⟩ := h.readings n state r hn
      refine ⟨hgrows.lines.holds hholds, owed, ?_⟩
      rw [hgrows.lines.chart hholds]
      exact howes.extends hgrows.exprs
    · exact hnew
  concretizations n l e c hn := by
    rcases hconcretizations n l e c hn with hn | hnew
    · exact h.concretizations n l e c hn
    · exact hnew

/-- Counting does not matter. -/
theorem Intact.count (h : s.Intact limit symbols) (counters : Counters) :
    ({ s with counters } : Session).Intact limit symbols ∧ Grows s { s with counters } :=
  ⟨⟨h.states, h.readings, h.concretizations⟩, .refl _, .refl _, fun _ _ h => h⟩

/-- A new state is one that sees the chart of the tokens that it came about by. -/
theorem Intact.addState (h : s.Intact limit symbols) (counters : Counters) {o : Origin}
    {new : ParseState × Lines} (hkeeps : s.lines.Keeps new.2) (hholds : new.2.Holds new.1)
    (hchart : o.chart? limit symbols = some (new.2.chart new.1)) :
    (addState { s with counters } o new).2.Intact limit symbols ∧
      Grows s (addState { s with counters } o new).2 := by
  have hgrows : Grows s (Session.addState { s with counters } o new).2 := by
    refine ⟨hkeeps, .refl _, fun n x hn => ?_⟩
    show (s.states.push _)[n]? = some x
    rw [Array.getElem?_push_lt (Array.getElem?_eq_some_iff.1 hn).1,
      ← Array.getElem?_eq_getElem (Array.getElem?_eq_some_iff.1 hn).1]
    exact hn
  refine ⟨h.grow hgrows (fun n o' state hn => ?_) (fun _ _ _ hn => .inl hn)
    (fun _ _ _ _ hn => .inl hn), hgrows⟩
  replace hn : (s.states.push (o, new.1))[n]? = some (o', state) := hn
  rw [Array.getElem?_push] at hn
  split at hn
  · cases hn
    exact .inr ⟨hholds, hchart⟩
  · exact .inl hn

/-! ## One request -/

theorem Intact.parse (h : s.Intact limit symbols) {c : Concrete} {cat : String} {field : Nat}
    {new : ParseState × Lines} {counters : Counters}
    (hnew : ParseState.parse limit symbols c cat field s.lines s.counters = (.ok new, counters)) :
    (Session.addState { s with counters } ⟨c, cat, field, []⟩ new).2.Intact limit symbols ∧
      Grows s (Session.addState { s with counters } ⟨c, cat, field, []⟩ new).2 := by
  rw [ParseState.parse_eq] at hnew
  cases hparse : Chart.parse limit symbols c cat field s.counters with
  | mk r counters' =>
    cases r with
    | error r => simp [hparse, Except.map] at hnew
    | ok chart =>
      rw [hparse] at hnew
      cases hnew
      have hchart := ParseState.chart_eq_of_parse limit symbols (congrArg Prod.fst hparse)
      refine h.addState _ (s.lines.keeps_begin c #[] chart.last)
        (s.lines.holds_begin c #[] chart.last) ?_
      rw [Lines.chart_begin, ← hchart]
      refine Chart.ofTokens?_nil.2 fun counters => ?_
      rw [Chart.parse_counters limit symbols c cat field s.counters counters, hparse]

theorem Intact.feed (h : s.Intact limit symbols) {n : Nat} {token : String} {o : Origin}
    {state : ParseState} {new : ParseState × Lines} {counters : Counters}
    (hn : s.states[n]? = some (o, state))
    (hnew : state.feed limit symbols token s.lines s.counters = (.ok (some new), counters)) :
    (Session.addState { s with counters } { o with tokens := o.tokens ++ [token] } new).2.Intact
        limit symbols ∧
      Grows s (Session.addState { s with counters }
        { o with tokens := o.tokens ++ [token] } new).2 := by
  obtain ⟨hholds, hchart⟩ := h.states n o state hn
  rw [ParseState.feed_eq limit symbols hholds] at hnew
  cases hfeed : (s.lines.chart state).feed limit symbols token s.counters with
  | mk r counters' =>
    rw [hfeed] at hnew
    rcases r with f | _ | chart
    · cases hnew
    · cases hnew
    · cases hnew
      have hnext := ParseState.chart_eq_of_feed limit symbols (congrArg Prod.fst hfeed)
      refine h.addState _ (s.lines.keeps_extend state chart.last)
        (hholds.holds_extend chart.last) ?_
      rw [hholds.chart_extend]
      refine Chart.ofTokens?_snoc.2 ⟨_, hchart, fun counters => ?_⟩
      rw [Chart.feed_counters limit symbols _ token s.counters counters, hfeed]
      exact congrArg _ (congrArg _ hnext)

theorem Intact.store (h : s.Intact limit symbols) (node : ExprStore.Node) :
    ({ s with exprs := (s.exprs.intern node).2 } : Session).Intact limit symbols ∧
      Grows s { s with exprs := (s.exprs.intern node).2 } := by
  have hgrows : Grows s { s with exprs := (s.exprs.intern node).2 } :=
    ⟨.refl _, ExprStore.extends_intern _ _, fun _ _ h => h⟩
  exact ⟨h.grow hgrows (fun _ _ _ hn => .inl hn) (fun _ _ _ hn => .inl hn)
    fun _ _ _ _ hn => .inl hn, hgrows⟩

/-- A new enumeration of readings owes all that is found in the chart. -/
theorem Intact.results (h : s.Intact limit symbols) {n : Nat} {o : Origin} {state : ParseState}
    (hn : s.states[n]? = some (o, state)) :
    ({ s with readings := s.readings.push (state, {}) } : Session).Intact limit symbols ∧
      Grows s { s with readings := s.readings.push (state, {}) } := by
  have hgrows : Grows s { s with readings := s.readings.push (state, {}) } :=
    ⟨.refl _, .refl _, fun _ _ h => h⟩
  refine ⟨h.grow hgrows (fun _ _ _ hn => .inl hn) (fun k state' r hk => ?_)
    (fun _ _ _ _ hn => .inl hn), hgrows⟩
  rw [Array.getElem?_push] at hk
  split at hk
  · cases hk
    exact .inr ⟨(h.states n o state hn).1, _, Readings.owes_start _ _⟩
  · exact .inl hk

/-- An enumeration of readings goes on to owe what it has not yielded. -/
theorem Intact.nextResult (h : s.Intact limit symbols) {k : Nat} {state : ParseState}
    {r r' : Readings} {id? : Option ExprId} {exprs : ExprStore} {counters : Counters}
    (hk : s.readings[k]? = some (state, r))
    (hnext : r.next? (s.lines.chart state) s.exprs s.counters =
      .ok (id?, r', exprs, counters)) :
    ({ s with exprs, counters, readings := s.readings.setIfInBounds k (state, r') } :
        Session).Intact limit symbols ∧
      Grows s { s with
        exprs, counters, readings := s.readings.setIfInBounds k (state, r') } := by
  obtain ⟨hholds, owed, howes⟩ := h.readings k state r hk
  obtain ⟨_, _, _, _, hpaid, hextends, -, howes'⟩ := howes.next? s.counters
  cases hnext.symm.trans hpaid
  have hgrows : Grows s { s with
      exprs, counters, readings := s.readings.setIfInBounds k (state, r') } :=
    ⟨.refl _, hextends, fun _ _ h => h⟩
  refine ⟨h.grow hgrows (fun _ _ _ hn => .inl hn) (fun k' state' r'' hk' => ?_)
    (fun _ _ _ _ hn => .inl hn), hgrows⟩
  rcases eq_or_of_getElem?_setIfInBounds hk' with heq | hold
  · cases heq
    exact .inr ⟨hholds, _, howes'⟩
  · exact .inl hold

theorem Intact.concretize (h : s.Intact limit symbols) (l : Linearizer) (e : Expr) :
    ({ s with concretizations := s.concretizations.push (l, e, {}) } : Session).Intact
        limit symbols ∧
      Grows s { s with concretizations := s.concretizations.push (l, e, {}) } := by
  have hgrows : Grows s { s with concretizations := s.concretizations.push (l, e, {}) } :=
    ⟨.refl _, .refl _, fun _ _ h => h⟩
  refine ⟨h.grow hgrows (fun _ _ _ hn => .inl hn) (fun _ _ _ hn => .inl hn)
    (fun k l' e' c hk => ?_), hgrows⟩
  rw [Array.getElem?_push] at hk
  split at hk
  · cases hk
    exact .inr (Search.stands_start _)
  · exact .inl hk

/-- An enumeration of derivations can be asked again and again. -/
theorem Intact.next?_derivation (h : s.Intact limit symbols) {k : Nat} {l : Linearizer} {e : Expr}
    {c : Concretizations} (hk : s.concretizations[k]? = some (l, e, c)) :
    ∃ d? c' counters, c.next? l e s.counters = .ok (d?, c', counters) ∧
      Search.Stands (l.derivations e).cut c'.search := by
  obtain ⟨search, state, hnext, hstands, -⟩ := Search.next?_eq (Decision.narrow_cut _)
    Concretizations.accept c.search (h.concretizations k l e c hk) (c.seen, s.counters)
  rw [Search.next?_cut] at hnext
  generalize (c.search.accepted _ Concretizations.accept _).head? = d? at hnext
  refine ⟨d?, ⟨search, state.1⟩, state.2, ?_, hstands⟩
  simp only [Concretizations.next?, hnext]
  rfl

theorem Intact.nextDerivation (h : s.Intact limit symbols) {k : Nat} {l : Linearizer} {e : Expr}
    {c c' : Concretizations} {d? : Option Derivation} {counters : Counters}
    (hk : s.concretizations[k]? = some (l, e, c))
    (hnext : c.next? l e s.counters = .ok (d?, c', counters)) :
    ({ s with counters, concretizations := s.concretizations.setIfInBounds k (l, e, c') } :
        Session).Intact limit symbols ∧
      Grows s { s with
        counters, concretizations := s.concretizations.setIfInBounds k (l, e, c') } := by
  obtain ⟨_, _, _, hagain, hstands⟩ := h.next?_derivation hk
  cases hnext.symm.trans hagain
  have hgrows : Grows s { s with
      counters, concretizations := s.concretizations.setIfInBounds k (l, e, c') } :=
    ⟨.refl _, .refl _, fun _ _ h => h⟩
  refine ⟨h.grow hgrows (fun _ _ _ hn => .inl hn) (fun _ _ _ hn => .inl hn)
    (fun k' l' e' c'' hk' => ?_), hgrows⟩
  rcases eq_or_of_getElem?_setIfInBounds hk' with heq | hold
  · cases heq
    exact .inr hstands
  · exact .inl hold

/-- **Every request leaves a session intact**, and adds to what there is. -/
theorem Intact.ask (h : s.Intact limit symbols) (q : Request) :
    (s.ask limit symbols q).2.Intact limit symbols ∧ Grows s (s.ask limit symbols q).2 := by
  have hafter : s.After limit symbols q _ := s.after_ask q
  generalize (s.ask limit symbols q).2 = s' at hafter ⊢
  cases hafter with
  | count _ counters => exact h.count counters
  | parse hnew => exact h.parse hnew
  | feed hn hnew => exact h.feed hn hnew
  | store node => exact h.store node
  | results hn => exact h.results hn
  | nextResult hk hnext => exact h.nextResult hk hnext
  | concretize _ => exact h.concretize _ _
  | nextDerivation hk hnext => exact h.nextDerivation hk hnext

/-! ## Any number of requests -/

/-- **So do any requests**, in any order. -/
theorem Intact.run (h : s.Intact limit symbols) (qs : List Request) :
    (s.run limit symbols qs).Intact limit symbols ∧ Grows s (s.run limit symbols qs) := by
  induction qs generalizing s with
  | nil => exact ⟨h, .refl s⟩
  | cons q qs ih =>
    obtain ⟨hask, hgrows⟩ := h.ask q
    obtain ⟨hrun, hgrows'⟩ := ih hask
    exact ⟨hrun, hgrows.trans hgrows'⟩

end Session

end Polyglot
