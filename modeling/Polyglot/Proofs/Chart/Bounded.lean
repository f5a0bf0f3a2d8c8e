import Polyglot.Proofs.Chart.Alike
import Polyglot.Proofs.Chart.Faithful

/-!
# Steps end where there is only so much

A step in the making stands for things at its position and has nothing twice. So it cannot outgrow
what there is at the position, and it comes to its end if that is finite, whatever the order of work
is. Where a step has come to its end all that there is has a place in it, and so there is only so
much.

- `Setting.Bounded`: there is only so much at a position. `Settled.bounded`: that is so where some
  chart has nothing left to do.
- `Building.Faithful.exists_finish`: then a step comes to its end.
- `Chart.exists_parse_of_bounded`, `Chart.Faithful.exists_feed_of_bounded`: so there is a chart.
- `Chart.parse_mono`, `Chart.feed_mono`: more rounds make no difference to it.
-/

namespace Polyglot

variable {c : Concrete} {v : Nat → Sym} {ids : List InstanceId} {goal k n : Nat}

/-! ## How much there is at a position -/

namespace Setting

/-- The productions that have been read to the end of a field at a position. -/
def sketches (G : Setting) (k : Nat) : Set Sketch := {s | ∃ l, G.Produced k l s}

/-- There is only so much at a position. -/
structure Bounded (G : Setting) (k : Nat) : Prop where
  predictions : (G.predictions k).Finite
  completions : (G.completions k).Finite
  sketches : (G.sketches k).Finite

end Setting

section Places

variable {steps : Array Step} {s : Step} (hs : steps[k]? = some s)

/-- There are no more places than there is something at them. -/
theorem le_ncard_of_injective {α : Type} {n : Nat} {e : Fin n → α} (he : Function.Injective e)
    {P : Set α} (hP : P.Finite) (hmem : ∀ i, e i ∈ P) : n ≤ P.ncard := by
  rw [← Nat.card_fin n, ← Set.ncard_range_of_injective he]
  exact Set.ncard_le_ncard (Set.range_subset_iff.2 hmem) hP

variable (h : Settled c v ids goal n (chartFacts steps)) (hk : k ≤ n)
include hs h hk

/-- A step has as many categories as fields have been read to their end there. -/
theorem size_cats_eq : s.cats.size = ((c.setting v ids goal).completions k).ncard := by
  rw [← range_completion hs h hk,
    Set.ncard_range_of_injective (completion_injective hs h.sound h.licensed), Nat.card_fin]

/-- Where a chart has nothing left to do there is only so much. -/
theorem Settled.bounded : (c.setting v ids goal).Bounded k := by
  refine ⟨?_, ?_, ?_⟩
  · rw [← range_prediction hs h hk]
    exact Set.finite_range _
  · rw [← range_completion hs h hk]
    exact Set.finite_range _
  · refine (Set.finite_iUnion fun j : Fin s.cats.size =>
      (List.finite_toSet s.cats[j].productions).image
        (ChartProduction.sketch (chartFacts steps))).subset fun p ⟨l, hp⟩ => ?_
    obtain ⟨C, q, ⟨k', s', hs', rfl, cat, hidx, hq⟩, rfl, -, hshows⟩ := (h.produces_iff hk).2 hp
    cases hs.symm.trans hs'
    obtain ⟨hlt, rfl⟩ := Array.getElem?_eq_some_iff.1 hidx
    exact Set.mem_iUnion.2 ⟨⟨C.idx, hlt⟩, q, hq, hshows.sketch_eq h.sound.functional⟩

end Places

namespace Building

variable {b b' : Building} {first : Multiset Item}

/-- A step does not outgrow what there is at its position. -/
theorem Faithful.extent_le (h : b.Faithful c v ids goal first)
    (hbounded : (c.setting v ids goal).Bounded b.index) :
    b.step.extent ≤ ((c.setting v ids goal).completions b.index).ncard +
      ((c.setting v ids goal).predictions b.index).ncard +
      ((c.setting v ids goal).completions b.index).ncard *
        ((c.setting v ids goal).sketches b.index).ncard := by
  have hF := h.runs.sound
  have hL := h.licensed.facts
  have hplace := b.getElem?_push_step
  have hcats := le_ncard_of_injective (completion_injective hplace hF hL) hbounded.completions
    (completion_mem hplace hF hL)
  have hsets := le_ncard_of_injective (prediction_injective hplace hF hL) hbounded.predictions
    (prediction_mem hplace hF hL)
  have hproductions : ∀ cat ∈ b.step.cats,
      cat.productions.length ≤ ((c.setting v ids goal).sketches b.index).ncard := by
    intro cat hcat
    obtain ⟨j, hj, rfl⟩ := Array.mem_iff_getElem.1 hcat
    have hproduced : ∀ q ∈ b.step.cats[j].productions, ∃ p, q.Shows b.facts p ∧
        p ∈ (c.setting v ids goal).sketches b.index := by
      intro q hq
      obtain ⟨l, p, -, hp, hmem⟩ := (hL _ (produces_at hplace ⟨j, hj⟩ hq)).exists_produced
      exact ⟨p, hp, l, hmem⟩
    have hnodup := hF.nodup_sketches (h.distinct _ hcat) fun q hq =>
      (hproduced q hq).imp fun _ => And.left
    rw [← List.length_map (ChartProduction.sketch b.facts)]
    refine length_le_ncard_of_nodup hbounded.sketches hnodup fun p hp => ?_
    obtain ⟨q, hq, rfl⟩ := List.mem_map.1 hp
    obtain ⟨p, hp, hmem⟩ := hproduced q hq
    show q.sketch b.facts ∈ _
    rwa [hp.sketch_eq hF.functional]
  have hsum : (b.step.cats.toList.map (·.productions.length)).sum ≤
      b.step.cats.size * ((c.setting v ids goal).sketches b.index).ncard := by
    refine (List.sum_le_card_nsmul _ ((c.setting v ids goal).sketches b.index).ncard
      fun n hn => ?_).trans ?_
    · obtain ⟨cat, hcat, rfl⟩ := List.mem_map.1 hn
      exact hproductions cat (Array.mem_toList_iff.1 hcat)
    · simp
  exact Nat.add_le_add (Nat.add_le_add hcats hsets) (hsum.trans (Nat.mul_le_mul_right _ hcats))

/-- A step that is finished with some rounds is finished in the same way with more of them. -/
theorem finish_mono {limit limit' : Nat} (hle : limit ≤ limit') {s : Step}
    (h : (b.finish limit).1 = .ok s) : (b.finish limit').1 = .ok s := by
  unfold finish at h ⊢
  cases hrun : b.run limit with
  | none =>
    rw [hrun] at h
    cases h
  | some b' =>
    rw [hrun] at h
    rw [run_mono hle hrun]
    exact h

/-- **A step comes to its end** if there is only so much at its position. -/
theorem Faithful.exists_finish (hwf : c.WellFormed) (h : b.Faithful c v ids goal first)
    (hbounded : (c.setting v ids goal).Bounded b.index) :
    ∃ limit s, (b.finish limit).1 = .ok s := by
  let Inv (b' : Building) : Prop := b'.Faithful c v ids goal first ∧ b'.history = b.history
  have hnext : ∀ b₁ b₂, Inv b₁ → b₁.next? = some b₂ → Inv b₂ := by
    rintro b₁ b₂ ⟨h₁, hhistory₁⟩ hb
    obtain ⟨h₂, hhistory₂, -⟩ := h₁.next? hwf hb
    exact ⟨h₂, hhistory₂.trans hhistory₁⟩
  obtain ⟨limit, b', hrun⟩ := exists_run hnext (fun b₁ ⟨h₁, hhistory₁⟩ => by
    have hindex : b₁.index = b.index := congrArg Array.size hhistory₁
    have hle := h₁.extent_le (by rwa [hindex])
    rwa [hindex] at hle) ⟨h, rfl⟩
  obtain ⟨h', -⟩ := run_invariant Inv hnext ⟨h, rfl⟩ hrun
  refine ⟨limit, b'.step, ?_⟩
  rw [Building.finish, hrun]
  dsimp only
  rw [h'.runs.fault]

end Building

namespace Chart

variable {chart : Chart} {symbols : SymbolStore}

/-- The chart before any input is the same with more rounds, whatever was counted before. -/
theorem parse_mono {limit limit' : Nat} (hle : limit ≤ limit') {cat : String} {field : Nat}
    {category : ConcreteCategory} (hgoal : Chart.goal symbols c cat field = .ok category)
    {counters : Counters} (h : (parse limit symbols c cat field counters).1 = .ok chart)
    (counters' : Counters) : (parse limit' symbols c cat field counters').1 = .ok chart := by
  rw [parse_counters limit' symbols c cat field counters counters', parse_eq_ok_iff hgoal]
  obtain ⟨last, hfinish, hchart⟩ := (parse_eq_ok_iff hgoal).1 h
  exact ⟨last, Building.finish_mono hle hfinish, hchart⟩

/-- So is the chart after one more token. -/
theorem feed_mono {limit limit' : Nat} (hle : limit ≤ limit') {token : String}
    {counters : Counters} {next : Chart}
    (h : (chart.feed limit symbols token counters).1 = .ok (some next)) (counters' : Counters) :
    (chart.feed limit' symbols token counters').1 = .ok (some next) := by
  rw [feed_counters limit' symbols chart token counters counters']
  cases hitems : chart.waitingItems? symbols token with
  | none =>
    rw [feed, hitems] at h
    cases h
  | some waiting =>
    rw [feed_eq_ok_iff hitems]
    obtain ⟨last, hfinish, hnext⟩ := (feed_eq_ok_iff hitems).1 h
    exact ⟨last, Building.finish_mono hle hfinish, hnext⟩

/-- There is a chart before any input if there is only so much at the beginning. -/
theorem exists_parse_of_bounded (hwf : c.WellFormed) {cat : String} {field : Nat}
    {category : ConcreteCategory} (hgoal : Chart.goal symbols c cat field = .ok category)
    (hfields : ∀ id ∈ category.instances, ∃ n, c.fieldCount? id = some n ∧ field < n)
    (hbounded : (c.setting v category.instances field).Bounded 0) (counters : Counters) :
    ∃ limit chart, (parse limit symbols c cat field counters).1 = .ok chart := by
  have hbegin := Building.faithful_predictTop hwf hfields v counters
  have hhistory := (runs_predictTop hwf hfields v counters).2
  obtain ⟨limit, last, hfinish⟩ := hbegin.exists_finish hwf (by
    rw [Building.index, hhistory]
    exact hbounded)
  exact ⟨limit, _, (parse_eq_ok_iff hgoal).2 ⟨last, hfinish, rfl⟩⟩

/-- There is one after one more token if there is only so much at the next position. -/
theorem Faithful.exists_feed_of_bounded (hwf : c.WellFormed) (h : chart.Faithful c v ids goal)
    (hbounded : (c.setting v ids goal).Bounded (chart.position + 1)) {token : String}
    (htoken : symbols.find? token = some (v chart.position))
    (hwaiting : chart.waitingItems? symbols token ≠ none) (counters : Counters) :
    ∃ limit next, (chart.feed limit symbols token counters).1 = .ok (some next) := by
  obtain ⟨⟨sym, idxs⟩, hitems⟩ := Option.ne_none_iff_exists'.1 hwaiting
  have hsym : sym = v chart.position :=
    Option.some.inj ((waitingItems?_eq_some hitems).1.symm.trans htoken)
  obtain ⟨hbegin, hhistory, -⟩ := h.built.faithful_begun h.licensed hsym counters
  obtain ⟨limit, last, hfinish⟩ := hbegin.exists_finish hwf (by
    rw [Building.index, hhistory, steps, Array.size_push]
    exact hbounded)
  exact ⟨limit, _, (feed_eq_ok_iff hitems).2 ⟨last, hfinish, rfl⟩⟩

end Chart

end Polyglot
