import Polyglot.Proofs.Chart.FirstReading
import Polyglot.Proofs.Session.Shape

/-!
# A complete state has a reading

Whether a state is complete is asked of what was completed, and its readings come of a search that
may fail in cycles. The two agree: there is a tree exactly if something was completed, and the
search comes to it with its very first walk.

- `Readings.found_of_startsWith`: what the first walk comes to is found first.
- `Session.complete_iff_reading`: a state yields a tree exactly if it is complete.
-/

namespace Polyglot

/-- What the first walk comes to is found first. -/
theorem Readings.found_of_startsWith {chart : Chart} {e : Expr}
    (h : chart.readings.StartsWith (.ok e)) : (found chart).head? = some e := by
  obtain ⟨rest, hvalues⟩ := h.cut.exists_values_eq
  rw [found, hvalues]
  show (e :: Chart.successes rest).eraseDups.head? = some e
  rw [List.eraseDups_cons]
  rfl

namespace Session

/-- **A state yields a tree exactly if it is complete**, in any session, however it came to the
state, for every grammar that is accepted. If it is complete then the first walk of the enumeration,
which picks the first alternative everywhere, comes to a tree already, and that is the first tree
which is told, however many cycles there are in the rest of the forest. -/
theorem complete_iff_reading {w : WrittenGrammar} {g : Grammar} (hbuild : w.build = .ok g)
    (limit : Nat) (symbols : SymbolStore) (exprs : ExprStore) (before : List Request) {n : Nat}
    {o : Origin} {state : ParseState}
    (hstate : (Session.run limit symbols { exprs } before).states[n]? = some (o, state))
    (ho : o.concrete ∈ g.concretes) :
    ∃ chart trees, (Session.run limit symbols { exprs } before).lines.chart state = chart ∧
      (Session.run limit symbols { exprs } before).Yields limit symbols n trees ∧
      (trees ≠ [] ↔ state.isComplete = true) ∧
      (state.isComplete = true → ∃ picks e choice,
        chart.readings.walk {} = .ok (⟨picks, some (.ok e)⟩, choice) ∧ (∀ i ∈ picks, i = 0) ∧
        trees.head? = some e) := by
  have hintact := ((intact_start limit symbols exprs {}).run before).1
  obtain ⟨category, -, hupkept⟩ := hintact.upkept hbuild hstate ho
  have hcomplete : state.isComplete = true → ∃ e,
      ((Session.run limit symbols { exprs } before).lines.chart state).readings.StartsWith
        (.ok e) := hupkept.startsWith_readings
  refine ⟨_, _, rfl, hintact.yields hstate, ⟨fun hne => ?_, fun h => ?_⟩, fun h => ?_⟩
  · -- A tree unfolds something that was completed.
    obtain ⟨e, he⟩ := List.exists_mem_of_ne_nil _ hne
    obtain ⟨id, hid, -⟩ := Readings.unfolding_of_mem_found he
    show (!state.completed.isEmpty) = true
    rw [Bool.not_eq_true', List.isEmpty_eq_false_iff]
    exact List.ne_nil_of_mem hid
  · obtain ⟨e, he⟩ := hcomplete h
    intro hnil
    have hhead := Readings.found_of_startsWith he
    rw [hnil] at hhead
    cases hhead
  · obtain ⟨e, he⟩ := hcomplete h
    obtain ⟨picks, choice, hwalk, hpicks⟩ := he.walk []
    exact ⟨picks, e, choice, hwalk, hpicks, Readings.found_of_startsWith he⟩

theorem complete_iff_reading_giveItUp :
    ∃ g o state, particleVerbs.build = .ok g ∧
      (Session.run 9 particleSymbols { exprs := {} } threeTokens).states[3]? = some (o, state) ∧
      o.concrete ∈ g.concretes ∧
      ∃ chart trees,
        (Session.run 9 particleSymbols { exprs := {} } threeTokens).lines.chart state = chart ∧
        (Session.run 9 particleSymbols { exprs := {} } threeTokens).Yields 9 particleSymbols 3
          trees ∧
        (trees ≠ [] ↔ state.isComplete = true) ∧
        (state.isComplete = true → ∃ picks e choice,
          chart.readings.walk {} = .ok (⟨picks, some (.ok e)⟩, choice) ∧ (∀ i ∈ picks, i = 0) ∧
          trees.head? = some e) := by
  obtain ⟨g, hbuild, hconcretes⟩ := build_particleVerbs
  obtain ⟨o, state, hstate, hconcrete⟩ := state_threeTokens
  have ho : o.concrete ∈ g.concretes := by
    rw [hconcrete, hconcretes]
    exact List.mem_cons_self
  exact ⟨g, o, state, hbuild, hstate, ho,
    complete_iff_reading hbuild 9 particleSymbols {} threeTokens hstate ho⟩

end Session

end Polyglot
