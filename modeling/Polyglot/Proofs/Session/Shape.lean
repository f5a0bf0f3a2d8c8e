import Polyglot.Proofs.Chart.Shape
import Polyglot.Proofs.Session.Results

/-!
# States see steps that have their shape

Whatever a program parses and feeds, the steps that any of its states sees have the shape that all
later work on them relies on, and the numbers of their categories go down by one from `-5` on.

- `Chart.upkept_of_ofTokens?`: every chart of a grammar that is accepted is well kept.
- `Session.steps_shaped`: so are the steps that a state sees.
-/

namespace Polyglot

namespace Chart

variable {a : Abstract} {c : Concrete} {limit : Nat} {symbols : SymbolStore} {chart : Chart}

/-- **Every chart is well kept**, whatever tokens it is for. -/
theorem upkept_of_ofTokens? (hfits : c.Fits a) {cat : String} {field : Nat}
    {category : ConcreteCategory} (hgoal : Chart.goal symbols c cat field = .ok category)
    {tokens : List String} (h : ofTokens? limit symbols c cat field tokens = some chart) :
    Upkept c category.instances field chart := by
  induction tokens using List.reverseRecOn generalizing chart with
  | nil => exact upkept_of_parse hfits hgoal (ofTokens?_nil.1 h {})
  | append_singleton tokens token ih =>
    obtain ⟨chart₁, h₁, hfeed⟩ := ofTokens?_snoc.1 h
    exact (ih h₁).feed hfits (hfeed {})

/-- The chart of some tokens is for a category that there is. -/
theorem exists_goal_of_ofTokens? {cat : String} {field : Nat} {tokens : List String}
    (h : ofTokens? limit symbols c cat field tokens = some chart) :
    ∃ category, Chart.goal symbols c cat field = .ok category := by
  obtain ⟨chart₀, hparse, -⟩ := ofTokens?_eq_some_iff.1 h
  cases hgoal : Chart.goal symbols c cat field with
  | error e => simpa [Chart.parse, hgoal] using hparse {}
  | ok category => exact ⟨category, rfl⟩

end Chart

namespace Session

variable {limit : Nat} {symbols : SymbolStore}

/-- What a state of a session sees is well kept. -/
theorem Intact.upkept {s : Session} (h : s.Intact limit symbols) {w : WrittenGrammar} {g : Grammar}
    (hbuild : w.build = .ok g) {n : Nat} {o : Origin} {state : ParseState}
    (hn : s.states[n]? = some (o, state)) (ho : o.concrete ∈ g.concretes) :
    ∃ category, Chart.goal symbols o.concrete o.cat o.field = .ok category ∧
      (s.lines.chart state).Upkept o.concrete category.instances o.field := by
  obtain ⟨-, hchart⟩ := h.states n o state hn
  obtain ⟨category, hgoal⟩ := Chart.exists_goal_of_ofTokens? hchart
  exact ⟨category, hgoal,
    Chart.upkept_of_ofTokens? (Concrete.fits_of_build hbuild ho) hgoal hchart⟩

/-- **Every step that a state sees has its shape**, in any session, however it came to the state:
for every grammar that is accepted, each step says for its goal what `Step.Shaped` asks for, and the
categories of all steps have distinct numbers, from `-5` down by one as they were created. -/
theorem steps_shaped {w : WrittenGrammar} {g : Grammar} (hbuild : w.build = .ok g) (limit : Nat)
    (symbols : SymbolStore) (exprs : ExprStore) (before : List Request) {n : Nat} {o : Origin}
    {state : ParseState}
    (hstate : (Session.run limit symbols { exprs } before).states[n]? = some (o, state))
    (ho : o.concrete ∈ g.concretes) :
    ∃ category chart, Chart.goal symbols o.concrete o.cat o.field = .ok category ∧
      (Session.run limit symbols { exprs } before).lines.chart state = chart ∧
      (∀ k s, state.step? (Session.run limit symbols { exprs } before).lines k = some s →
        s.Shaped chart category.instances o.field k) ∧
      chart.numbers = countdown (-5) chart.numbers.length ∧ chart.numbers.Nodup := by
  have hintact := ((intact_start limit symbols exprs {}).run before).1
  obtain ⟨category, hgoal, hupkept⟩ := hintact.upkept hbuild hstate ho
  have hnumbers := hupkept.steps.numbers
  refine ⟨category, _, hgoal, rfl, fun k s hs => ?_, hnumbers, ?_⟩
  · rw [(hintact.states n o state hstate).1.step?] at hs
    exact hupkept.shaped hs
  · rw [Chart.numbers, hnumbers]
    exact nodup_countdown _ _

/-- The state after three tokens is one of the example grammar. -/
theorem state_threeTokens : ∃ o state,
    (Session.run 9 particleSymbols { exprs := {} } threeTokens).states[3]? = some (o, state) ∧
      o.concrete = english := by
  have hconcrete : ((Session.run 9 particleSymbols { exprs := {} } threeTokens).states[3]?.map
      fun x => x.1.concrete) = some english := by decide +kernel
  obtain ⟨⟨o, state⟩, hstate, ho⟩ := Option.map_eq_some_iff.1 hconcrete
  exact ⟨o, state, hstate, ho⟩

theorem steps_shaped_giveItUp :
    ∃ g o state, particleVerbs.build = .ok g ∧
      (Session.run 9 particleSymbols { exprs := {} } threeTokens).states[3]? = some (o, state) ∧
      o.concrete ∈ g.concretes ∧
      ∃ category chart, Chart.goal particleSymbols o.concrete o.cat o.field = .ok category ∧
        (Session.run 9 particleSymbols { exprs := {} } threeTokens).lines.chart state = chart ∧
        (∀ k s, state.step? (Session.run 9 particleSymbols { exprs := {} } threeTokens).lines k =
          some s → s.Shaped chart category.instances o.field k) ∧
        chart.numbers = countdown (-5) chart.numbers.length ∧ chart.numbers.Nodup := by
  obtain ⟨g, hbuild, hconcretes⟩ := build_particleVerbs
  obtain ⟨o, state, hstate, hconcrete⟩ := state_threeTokens
  have ho : o.concrete ∈ g.concretes := by
    rw [hconcrete, hconcretes]
    exact List.mem_cons_self
  exact ⟨g, o, state, hbuild, hstate, ho,
    steps_shaped hbuild 9 particleSymbols {} threeTokens hstate ho⟩

end Session

end Polyglot
