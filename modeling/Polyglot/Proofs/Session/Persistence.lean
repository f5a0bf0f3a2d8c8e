import Polyglot.Proofs.Session.Results

/-!
# States last

States share the steps of their line, and a program may feed any of them again at any time. A state
answers all the same as if its tokens had been fed to a parse of its own, and goes on to answer like
that: what is appended for one state is not seen by another. In a state that was fed from it, the
categories that it saw are still the same.

- `Origin.requests`: a parse of its own for some tokens.
- `Session.exists_fresh`: it gets to a state that sees the same chart.
- `Chart.category?_of_prefix`: more tokens leave the categories before them as they are.
- `Session.states_persist`: a state never changes, and is what a fresh parse gives.
-/

namespace Polyglot

/-- A parse of its own for some tokens: each is fed to the state of the one before. -/
def Origin.requests (o : Origin) : List Request :=
  .parse o.concrete o.cat o.field :: o.tokens.mapIdx fun i token => .feed i token

theorem Origin.requests_snoc (c : Concrete) (cat : String) (field : Nat) (tokens : List String)
    (token : String) : requests ⟨c, cat, field, tokens ++ [token]⟩ =
      requests ⟨c, cat, field, tokens⟩ ++ [.feed tokens.length token] := by
  simp [requests, List.mapIdx_append]

namespace Chart

variable {limit : Nat} {symbols : SymbolStore} {c : Concrete} {cat : String} {field : Nat}

/-- A token leaves the steps before it as they are. -/
theorem category?_of_feed {chart chart' : Chart} {token : String} {counters : Counters}
    (h : (chart.feed limit symbols token counters).1 = .ok (some chart')) {id : ChartCatId}
    {entry : ChartCat} (hid : chart.category? id = some entry) :
    chart'.category? id = some entry := by
  have hpast : chart'.past = chart.steps := by
    rw [ParseState.chart_eq_of_feed limit symbols h]
  obtain ⟨step, hstep, hentry⟩ := Option.bind_eq_some_iff.1 hid
  refine Option.bind_eq_some_iff.2 ⟨step, ?_, hentry⟩
  have hlt := (Array.getElem?_eq_some_iff.1 hstep).1
  rw [steps, hpast, Array.getElem?_push_lt hlt, ← Array.getElem?_eq_getElem hlt]
  exact hstep

/-- So do any more tokens. -/
theorem category?_of_prefix {tokens tokens' : List String} (hbegins : tokens <+: tokens')
    {chart chart' : Chart} (h : ofTokens? limit symbols c cat field tokens = some chart)
    (h' : ofTokens? limit symbols c cat field tokens' = some chart') {id : ChartCatId}
    {entry : ChartCat} (hid : chart.category? id = some entry) :
    chart'.category? id = some entry := by
  obtain ⟨more, rfl⟩ := hbegins
  induction more using List.reverseRecOn generalizing chart' with
  | nil =>
    rw [List.append_nil, h] at h'
    cases h'
    exact hid
  | append_singleton more token ih =>
    rw [← List.append_assoc] at h'
    obtain ⟨chart₁, h₁, hfeed⟩ := ofTokens?_snoc.1 h'
    exact category?_of_feed (hfeed {}) (ih h₁)

end Chart

namespace Session

variable {limit : Nat} {symbols : SymbolStore} {s : Session}

theorem ask_parse {c : Concrete} {cat : String} {field : Nat} {chart : Chart}
    (h : (Chart.parse limit symbols c cat field s.counters).1 = .ok chart) :
    ∃ counters, s.ask limit symbols (.parse c cat field) =
      addState { s with counters } ⟨c, cat, field, []⟩ (s.lines.begin c #[] chart.last) := by
  refine ⟨(Chart.parse limit symbols c cat field s.counters).2, ?_⟩
  rw [ask, ParseState.parse_eq, h]
  rfl

theorem ask_feed {n : Nat} {o : Origin} {state : ParseState} {token : String} {chart : Chart}
    (hn : s.states[n]? = some (o, state)) (hholds : s.lines.Holds state)
    (h : ((s.lines.chart state).feed limit symbols token s.counters).1 = .ok (some chart)) :
    ∃ counters, s.ask limit symbols (.feed n token) =
      addState { s with counters } { o with tokens := o.tokens ++ [token] }
        (s.lines.extend state chart.last) := by
  refine ⟨((s.lines.chart state).feed limit symbols token s.counters).2, ?_⟩
  simp only [ask, hn]
  rw [ParseState.feed_eq limit symbols hholds, h]
  rfl

/-- A parse of its own gets to a state for the tokens, unless one of them is refused. -/
theorem exists_fresh (exprs : ExprStore) (counters : Counters) {o : Origin} {chart : Chart}
    (hchart : o.chart? limit symbols = some chart) :
    ∃ state, (Session.run limit symbols { exprs, counters } o.requests).states.size =
        o.tokens.length + 1 ∧
      (Session.run limit symbols { exprs, counters } o.requests).states[o.tokens.length]? =
        some (o, state) := by
  obtain ⟨c, cat, field, tokens⟩ := o
  induction tokens using List.reverseRecOn generalizing chart with
  | nil =>
    have hparse := Chart.ofTokens?_nil.1 hchart counters
    obtain ⟨counters', hask⟩ := ask_parse (s := { exprs, counters }) hparse
    have hrequests : Origin.requests ⟨c, cat, field, []⟩ = [.parse c cat field] := rfl
    rw [hrequests, run_cons, run_nil, hask]
    exact ⟨_, rfl, rfl⟩
  | append_singleton tokens token ih =>
    obtain ⟨chart₁, hchart₁, hfeed⟩ := Chart.ofTokens?_snoc.1 hchart
    obtain ⟨state, hsize, hstate⟩ := ih hchart₁
    obtain ⟨hholds, hsees⟩ :=
      ((intact_start limit symbols exprs counters).run _).1.states _ _ state hstate
    rw [Origin.requests_snoc, run_append]
    generalize Session.run limit symbols { exprs, counters }
      (Origin.requests ⟨c, cat, field, tokens⟩) = s at hsize hstate hholds hsees ⊢
    obtain rfl : chart₁ = s.lines.chart state := Option.some.inj (hchart₁.symm.trans hsees)
    obtain ⟨counters', hask⟩ := ask_feed hstate hholds (hfeed s.counters)
    simp only [run_cons, run_nil, hask, addState, List.length_append, List.length_singleton,
      Array.size_push]
    exact ⟨_, by rw [hsize], by rw [← hsize, Array.getElem?_push_size]⟩

/-- **States last.** In any session, from any expressions on, a state has the tokens that it was
fed; nothing that is asked for later changes its answers; these are the answers of a parse of its
own for the same tokens, and so are the trees that its enumerations come to; and each category that
it sees is the same in all states that were fed from it. -/
theorem states_persist (limit : Nat) (symbols : SymbolStore) (exprs : ExprStore)
    (before : List Request) {n : Nat} {o : Origin} {state : ParseState}
    (hstate : (Session.run limit symbols { exprs } before).states[n]? = some (o, state)) :
    ∃ s : Session, s = Session.run limit symbols { exprs } before ∧
      state.tokens symbols s.lines = o.tokens ∧
      (∀ after, (s.run limit symbols after).states[n]? = some (o, state) ∧
        state.view symbols (s.run limit symbols after).lines = state.view symbols s.lines) ∧
      (∀ exprs' counters', ∃ (s' : Session) (fresh : ParseState) (trees : List Expr),
        s' = Session.run limit symbols { exprs := exprs', counters := counters' } o.requests ∧
        s'.states[o.tokens.length]? = some (o, fresh) ∧
        fresh.view symbols s'.lines = state.view symbols s.lines ∧
        s.Yields limit symbols n trees ∧ s'.Yields limit symbols o.tokens.length trees) ∧
      ∀ (m : Nat) (more : List String) (later : ParseState),
        s.states[m]? = some ({ o with tokens := o.tokens ++ more }, later) →
        ∀ id entry, state.category? s.lines id = some entry →
          later.category? s.lines id = some entry ∧
            later.productions? s.lines id = state.productions? s.lines id := by
  refine ⟨_, rfl, ?_⟩
  have hintact := ((intact_start limit symbols exprs {}).run before).1
  generalize Session.run limit symbols { exprs } before = s at hstate hintact
  obtain ⟨hholds, hchart⟩ := hintact.states n o state hstate
  refine ⟨?_, fun after => ?_, fun exprs' counters' => ?_,
    fun m more later hlater id entry hid => ?_⟩
  · rw [ParseState.tokens, hholds.steps]
    exact Chart.tokens_of_ofTokens? hchart
  · obtain ⟨-, hgrows⟩ := hintact.run after
    exact ⟨hgrows.states n _ hstate, ParseState.view_eq symbols hholds (hgrows.lines.holds hholds)
      (hgrows.lines.chart hholds)⟩
  · obtain ⟨fresh, -, hfresh⟩ := exists_fresh exprs' counters' hchart
    have hintact' := ((intact_start limit symbols exprs' counters').run o.requests).1
    obtain ⟨hholds', hchart'⟩ := hintact'.states _ o fresh hfresh
    have hsame := Option.some.inj (hchart'.symm.trans hchart)
    refine ⟨_, fresh, _, rfl, hfresh, ParseState.view_eq symbols hholds hholds' hsame,
      hintact.yields hstate, ?_⟩
    rw [← hsame]
    exact hintact'.yields hfresh
  · obtain ⟨hholds', hchart'⟩ := hintact.states m _ later hlater
    rw [ParseState.category?_eq hholds] at hid
    obtain ⟨cat, hcat, rfl⟩ := Option.map_eq_some_iff.1 hid
    have hcat' := Chart.category?_of_prefix (List.prefix_append ..) hchart hchart' hcat
    rw [ParseState.category?_eq hholds', ParseState.productions?_eq hholds',
      ParseState.productions?_eq hholds, hcat, hcat']
    exact ⟨rfl, rfl⟩

theorem states_persist_giveItUp :
    ∃ o state, (Session.run 9 particleSymbols { exprs := {} } threeTokens).states[3]? =
        some (o, state) ∧
      ∃ s : Session, s = Session.run 9 particleSymbols { exprs := {} } threeTokens ∧
        state.tokens particleSymbols s.lines = o.tokens ∧
        (∀ after, (s.run 9 particleSymbols after).states[3]? = some (o, state) ∧
          state.view particleSymbols (s.run 9 particleSymbols after).lines =
            state.view particleSymbols s.lines) ∧
        (∀ exprs' counters', ∃ (s' : Session) (fresh : ParseState) (trees : List Expr),
          s' = Session.run 9 particleSymbols { exprs := exprs', counters := counters' }
            o.requests ∧
          s'.states[o.tokens.length]? = some (o, fresh) ∧
          fresh.view particleSymbols s'.lines = state.view particleSymbols s.lines ∧
          s.Yields 9 particleSymbols 3 trees ∧
          s'.Yields 9 particleSymbols o.tokens.length trees) ∧
        ∀ (m : Nat) (more : List String) (later : ParseState),
        s.states[m]? = some ({ o with tokens := o.tokens ++ more }, later) →
          ∀ id entry, state.category? s.lines id = some entry →
            later.category? s.lines id = some entry ∧
              later.productions? s.lines id = state.productions? s.lines id := by
  obtain ⟨⟨o, state⟩, hstate⟩ := Option.isSome_iff_exists.1 isSome_threeTokens
  exact ⟨o, state, hstate, states_persist 9 particleSymbols {} threeTokens hstate⟩

end Session

end Polyglot
