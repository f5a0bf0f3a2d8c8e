import Polyglot.Proofs.Chart.Layout

/-!
# Every chart is well kept

Whatever field of whatever category is parsed, and whatever tokens are fed, what the steps of the
chart say is coherent, each step is laid out in order, and the numbers of the categories go down by
one from step to step.

- `UpkeptSteps`: how steps follow each other; `UpkeptSteps.push`: one step more.
- `Chart.Upkept`: what is known of the shape of a chart. `Chart.upkept_of_parse` and
  `Chart.Upkept.feed` keep it.
-/

namespace Polyglot

variable {a : Abstract} {c : Concrete} {ids : List InstanceId} {goal : Nat}

/-! ## Numbers -/

/-- The numbers of the categories of a step, in the order in which they were created. -/
def Step.numbers (s : Step) : List Int := s.cats.toList.map fun cat => cat.id.val

/-- So many numbers, each one less than the one before. -/
def countdown (first : Int) (n : Nat) : List Int :=
  (List.range n).map fun i : Nat => first - (i : Int)

@[simp] theorem length_countdown (first : Int) (n : Nat) : (countdown first n).length = n := by
  simp [countdown]

theorem countdown_add (first : Int) (n m : Nat) :
    countdown first (n + m) = countdown first n ++ countdown (first - n) m := by
  rw [countdown, List.range_add, List.map_append, List.map_map]
  refine congrArg (countdown first n ++ ·) (List.map_congr_left fun i _ => ?_)
  show first - ((n + i : Nat) : Int) = first - n - i
  omega

theorem nodup_countdown (first : Int) (n : Nat) : (countdown first n).Nodup := by
  refine List.nodup_range.map fun i j h => ?_
  change first - (i : Int) = first - j at h
  omega

theorem Step.Laid.numbers_eq {k : Nat} {firstId : Int} {s : Step} (h : s.Laid k firstId) :
    s.numbers = countdown firstId s.cats.size := by
  refine List.ext_getElem (by simp [Step.numbers]) fun idx hidx _ => ?_
  have hidx' : idx < s.cats.size := by simpa [Step.numbers] using hidx
  have hnumber := (h.founded idx s.cats[idx] (Array.getElem?_eq_getElem hidx')).number
  simpa [Step.numbers, countdown] using hnumber

/-- Steps are laid out in order, and the numbers of their categories go down from one step to the
next. -/
structure UpkeptSteps (steps : Array Step) : Prop where
  laid : ∀ (k : Nat) (s : Step), steps[k]? = some s → ∃ firstId, s.Laid k firstId
  distinct : ∀ s ∈ steps, s.Distinct
  tidy : ∀ s ∈ steps, s.Tidy
  queued : ∀ (k : Nat) (s : Step), steps[k]? = some s → s.Queued k
  numbers : steps.toList.flatMap Step.numbers =
    countdown InstanceId.firstSynthetic (steps.toList.flatMap Step.numbers).length
  next : (steps.back?.map Step.nextId).getD InstanceId.firstSynthetic =
    InstanceId.firstSynthetic - (steps.toList.flatMap Step.numbers).length

theorem upkeptSteps_empty : UpkeptSteps #[] where
  laid := by simp
  distinct := by simp
  tidy := by simp
  queued := by simp
  numbers := rfl
  next := rfl

/-- A step goes on where the one before it ended. -/
theorem UpkeptSteps.push {history : Array Step} (h : UpkeptSteps history) {s : Step}
    (hlaid : s.Laid history.size
      ((history.back?.map Step.nextId).getD InstanceId.firstSynthetic))
    (hdistinct : s.Distinct) (htidy : s.Tidy) (hqueued : s.Queued history.size) :
    UpkeptSteps (history.push s) := by
  have hnumbers := hlaid.numbers_eq
  have hfirst := hlaid.first
  rw [h.next] at hnumbers hfirst
  refine ⟨fun k s' hs' => ?_, fun s' hs' => ?_, fun s' hs' => ?_, fun k s' hs' => ?_, ?_, ?_⟩
  · rw [Array.getElem?_push] at hs'
    split at hs'
    · rename_i heq
      obtain rfl := Option.some.inj hs'
      exact ⟨_, heq ▸ hlaid⟩
    · exact h.laid k s' hs'
  · rcases Array.mem_push.1 hs' with hold | rfl
    · exact h.distinct s' hold
    · exact hdistinct
  · rcases Array.mem_push.1 hs' with hold | rfl
    · exact h.tidy s' hold
    · exact htidy
  · rw [Array.getElem?_push] at hs'
    split at hs'
    · rename_i heq
      obtain rfl := Option.some.inj hs'
      exact heq ▸ hqueued
    · exact h.queued k s' hs'
  · simp only [Array.toList_push, List.flatMap_append, List.flatMap_singleton, List.length_append]
    rw [countdown_add, ← h.numbers, hnumbers, length_countdown]
  · have hlength : s.numbers.length = s.cats.size := by simp [Step.numbers]
    simp only [Array.back?_push, Option.map_some, Option.getD_some, Step.nextId, hfirst,
      Array.toList_push, List.flatMap_append, List.flatMap_singleton, List.length_append, hlength]
    omega

namespace Chart

variable {chart chart' : Chart} {limit : Nat} {symbols : SymbolStore} {counters : Counters}

/-- The numbers of all categories of a chart, in the order in which they were created. -/
def numbers (chart : Chart) : List Int := chart.steps.toList.flatMap Step.numbers

/-- What is known of the shape of a chart. -/
structure Upkept (c : Concrete) (ids : List InstanceId) (goal : Nat) (chart : Chart) : Prop where
  concrete : chart.concrete = c
  coherent : Coherent c ids goal chart.facts
  goals : ∀ id ∈ ids, ∃ S, chart.facts (.predicts S (.grammar id) goal true)
  steps : UpkeptSteps chart.steps

/-- Before anything is done nothing is known. -/
theorem coherent_empty : Coherent c ids goal (chartFacts #[]) := by
  have hnone : ∀ φ, ¬ chartFacts #[] φ := by
    rintro φ ⟨k, s, hs, -⟩
    simp at hs
  refine ⟨chartFacts_functional _, fun φ hφ => absurd hφ (hnone φ), ?_, ?_, ?_⟩
  · exact fun _ _ _ _ _ _ hset => absurd hset (hnone _)
  · exact fun _ _ _ _ _ _ _ _ _ hdone => absurd hdone (hnone _)
  · exact fun _ _ _ _ _ hdone => absurd hdone (hnone _)

/-- A step that was kept up and finished makes a chart that is. -/
theorem upkept_of_finish (hfits : c.Fits a) {b : Building} {last : Step}
    (hfinish : (b.finish limit).1 = .ok last)
    (h : b.Upkept c ids goal
      ((b.history.back?.map Step.nextId).getD InstanceId.firstSynthetic))
    (hgoals : ∀ id ∈ ids, ∃ S, b.facts (.predicts S (.grammar id) goal true))
    (hhistory : UpkeptSteps b.history) :
    Upkept c ids goal { concrete := c, past := b.history, last } := by
  obtain ⟨b', rfl, h', hlearns⟩ := h.finish hfits hfinish
  have hfacts : ({ concrete := c, past := b.history, last := b'.step } : Chart).facts =
      b'.facts := by
    rw [facts, steps, Building.facts, hlearns.history]
  refine ⟨rfl, by rw [hfacts]; exact h'.coherent.facts, fun id hid => ?_, ?_⟩
  · obtain ⟨S, hS⟩ := hgoals id hid
    exact ⟨S, by rw [hfacts]; exact hlearns.facts _ hS⟩
  · have hlaid := h'.laid
    have hqueued := h'.queued
    rw [hlearns.index] at hlaid hqueued
    exact hhistory.push hlaid h'.distinct h'.tidy hqueued

/-- The first step is well kept before anything is done in it. -/
theorem upkept_predictTop (hfits : c.Fits a) (ids : List InstanceId) (goal : Nat)
    (counters : Counters) :
    let b := (Building.start c #[] none counters).predictTop ids goal
    b.Upkept c ids goal ((b.history.back?.map Step.nextId).getD InstanceId.firstSynthetic) ∧
      b.history = #[] ∧ ∀ id ∈ ids, ∃ S, b.facts (.predicts S (.grammar id) goal true) := by
  let b₀ : Building := .start c #[] none counters
  obtain ⟨hcoherent, hlearns, hgoals⟩ :=
    (Building.Coherent.start coherent_empty none counters : b₀.Coherent c ids goal).predictTop
      hfits rfl
      (fun S X f top hset => by
        rw [Building.facts_start] at hset
        obtain ⟨k, s, hs, -⟩ := hset
        simp at hs)
      ids fun _ hid => hid
  have hcalm := b₀.calm_predictTop ids goal
  have hkeeps := b₀.keeps_predictTop ids goal
  have hhistory : (b₀.predictTop ids goal).history = #[] := hlearns.history
  have hqueued : (b₀.predictTop ids goal).step.Queued (b₀.predictTop ids goal).index :=
    Building.queued_predictTop (fun set hset => absurd hset (by simp [b₀, Building.start])) ids goal
  have hupkept := Building.Upkept.of_coherent hcoherent hcalm.cats hcalm.firstId
    hkeeps.completed hcalm.transitions hqueued
  exact ⟨by rw [hhistory]; exact hupkept, hhistory, hgoals⟩

/-- **The chart before any input is well kept.** -/
theorem upkept_of_parse (hfits : c.Fits a) {cat : String} {field : Nat}
    {category : ConcreteCategory} (hgoal : Chart.goal symbols c cat field = .ok category)
    (hparse : (parse limit symbols c cat field counters).1 = .ok chart) :
    Upkept c category.instances field chart := by
  obtain ⟨last, hfinish, rfl⟩ := (parse_eq_ok_iff hgoal).1 hparse
  obtain ⟨hupkept, hhistory, hgoals⟩ :=
    upkept_predictTop hfits category.instances field counters
  have hchart := upkept_of_finish hfits hfinish hupkept hgoals
    (by rw [hhistory]; exact upkeptSteps_empty)
  rwa [hhistory] at hchart

/-- The step after a token goes on where the chart ended. -/
theorem Upkept.begun (h : Upkept c ids goal chart) (sym : Sym) (counters : Counters) :
    (chart.begun sym counters).Coherent c ids goal ∧
      (Building.start chart.concrete chart.steps (some sym) counters).SameChart
        (chart.begun sym counters) := by
  refine ⟨?_, Building.sameChart_scan ..⟩
  have hstart : (Building.start chart.concrete chart.steps (some sym) counters).Coherent c ids
      goal := by
    rw [h.concrete]
    exact .start h.coherent _ _
  refine (hstart.foldl _ fun b' hb' hlearns w hw => ?_).1
  obtain ⟨idx, hawaits, hitem⟩ := mem_waiting_iff.1 hw
  obtain ⟨w', x, ts, hitem', hx, hform, -⟩ := h.coherent.rests _ hawaits
  obtain rfl := h.coherent.functional.item _ _ _ hitem hitem'
  have hstored : b'.facts (.item ⟨chart.position, idx⟩ w) := by
    refine hlearns.facts _ ?_
    rw [Building.facts_start]
    exact hitem
  exact hb'.scan (hb'.facts.rests _ hstored) hx hform

/-- So it is well kept before anything is done in it. -/
theorem Upkept.upkept_begun (h : Upkept c ids goal chart) (sym : Sym) (counters : Counters) :
    let b := chart.begun sym counters
    b.Upkept c ids goal ((b.history.back?.map Step.nextId).getD InstanceId.firstSynthetic) ∧
      b.history = chart.steps ∧ b.facts = chart.facts := by
  obtain ⟨hcoherent, hsame⟩ := h.begun sym counters
  have hhistory : (chart.begun sym counters).history = chart.steps := hsame.history
  have hfacts : (chart.begun sym counters).facts = chart.facts := by
    rw [hsame.facts_eq, Building.facts_start]
    rfl
  have hstep := hsame.step
  refine ⟨.of_coherent hcoherent (by rw [hstep]; rfl) ?_ (by rw [hstep]; rfl)
    (by rw [hstep]; rfl) ?_, hhistory, hfacts⟩
  · rw [hstep, hhistory]
    rfl
  · rw [hstep]
    exact fun set hset => absurd hset (by simp [Building.start])

/-- **So is the chart after one more token.** -/
theorem Upkept.feed (hfits : c.Fits a) (h : Upkept c ids goal chart) {token : String}
    (hfeed : (chart.feed limit symbols token counters).1 = .ok (some chart')) :
    Upkept c ids goal chart' := by
  cases hitems : chart.waitingItems? symbols token with
  | none => simp [Chart.feed, hitems] at hfeed
  | some waiting =>
    obtain ⟨sym, idxs⟩ := waiting
    obtain ⟨last, hfinish, rfl⟩ := (feed_eq_ok_iff hitems).1 hfeed
    obtain ⟨hupkept, hhistory, hfacts⟩ := h.upkept_begun sym counters
    have hchart := upkept_of_finish hfits hfinish hupkept (by rw [hfacts]; exact h.goals)
      (by rw [hhistory]; exact h.steps)
    rw [hhistory] at hchart
    rwa [h.concrete]

end Chart

end Polyglot
