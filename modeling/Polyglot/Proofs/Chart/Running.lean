import Polyglot.Proofs.Chart.Processing

/-!
# From an empty chart to the end of the input

A step is started with the items that the last token lets go on, or with the goals of the input, and
then its agenda is worked off. What holds of the step at the beginning holds whenever an item is
taken from the agenda, and so it holds of the chart that comes out, where nothing is left to do.

- `Building.Runs`: what holds while a step is built, and `Runs.run`: until it is finished.
- `Chart.Built`: what holds of a chart between tokens.
- `Chart.built_of_parse`, `Chart.Built.feed`: charts come about in no other way.
-/

namespace Polyglot

variable {c : Concrete} {v : Nat → Sym} {ids : List InstanceId} {goal : Nat}

namespace Building

variable {b b' : Building}

/-- What holds while a step is built: nothing went wrong, all that is known is sound, items stand
where they are processed, nothing that is due is left out, and the goals of the input are
predicted. -/
structure Runs (c : Concrete) (v : Nat → Sym) (ids : List InstanceId) (goal : Nat)
    (b : Building) : Prop where
  concrete : b.concrete = c
  fault : b.fault = none
  sound : Sound c v ids goal b.facts
  agenda : ∀ i ∈ b.agenda, Stands c v b.facts b.index i
  saturated : ∃ done, Saturated c v b.facts b.index (· ∈ b.agenda) done
  goals : ∀ id ∈ ids, ∃ S, b.facts (.predicts S (.grammar id) goal true)

/-- Nothing is known of later steps. -/
theorem step_le_index {φ : Fact} (h : b.facts φ) : φ.step ≤ b.index := by
  have := step_lt_of_chartFacts h
  rw [Array.size_push] at this
  exact Nat.le_of_lt_succ this

/-- One round of work keeps all this. -/
theorem Runs.next? (hwf : c.WellFormed) (h : Runs c v ids goal b) (hnext : b.next? = some b') :
    Runs c v ids goal b' ∧ b'.history = b.history := by
  have hfault := h.fault
  unfold Building.next? at hnext
  split at hnext
  · rename_i item agenda _ hagenda
    cases hnext
    -- The item is taken off the agenda before it is processed.
    let b₀ : Building := { b with agenda := agenda }
    have hitem : Stands c v b₀.facts b₀.index item :=
      h.agenda item (by rw [hagenda]; exact List.mem_cons_self)
    obtain ⟨new, items, heffect, hadds⟩ := exists_effect (b := b₀) hwf h.sound h.concrete hitem
    have hfun : Functional (b₀.process item).facts := chartFacts_functional _
    obtain ⟨hsound, hstands⟩ := h.sound.effect hwf (fun _ => step_le_index) hitem heffect
      hadds.facts hfun
    have hmono : ∀ φ, b.facts φ → (b₀.process item).facts φ := fun φ hφ =>
      (hadds.facts φ).2 (.inl hφ)
    have hindex : (b₀.process item).index = b.index := hadds.index
    refine ⟨⟨hadds.concrete.trans h.concrete, hadds.fault.trans h.fault, hsound, ?_, ?_, ?_⟩,
      hadds.history⟩
    · intro i hi
      rw [hindex]
      rcases (hadds.agenda i).1 hi with hi | hi
      · exact (h.agenda i (by rw [hagenda]; exact List.mem_cons_of_mem _ hi)).mono hmono
      · exact hstands i hi
    · obtain ⟨done, hsat⟩ := h.saturated
      rw [hindex]
      have hrest : ∀ i ∈ b.agenda, i = item ∨ i ∈ agenda := by
        intro i hi
        rw [hagenda] at hi
        exact List.mem_cons.1 hi
      exact ⟨_, hsat.effect h.sound (fun _ => step_le_index) heffect hadds.facts hfun hrest
        fun i => (hadds.agenda i).2⟩
    · intro id hid
      obtain ⟨S, hS⟩ := h.goals id hid
      exact ⟨S, hmono _ hS⟩
  · cases hnext

/-- So it holds after any number of rounds, and then nothing is left to do. -/
theorem Runs.run (hwf : c.WellFormed) (h : Runs c v ids goal b) {limit : Nat}
    (hrun : b.run limit = some b') :
    Runs c v ids goal b' ∧ b'.agenda = [] ∧ b'.history = b.history := by
  have hidle : ∀ {b : Building}, Runs c v ids goal b → b.next? = none → b.agenda = [] := by
    intro b hb hnone
    unfold Building.next? at hnone
    rw [hb.fault] at hnone
    cases hagenda : b.agenda with
    | nil => rfl
    | cons item agenda => simp [hagenda] at hnone
  induction limit generalizing b with
  | zero =>
    rw [Building.run] at hrun
    split at hrun
    · rename_i hnone
      cases hrun
      exact ⟨h, hidle h (Option.isNone_iff_eq_none.1 hnone), rfl⟩
    · cases hrun
  | succ limit ih =>
    rw [Building.run] at hrun
    split at hrun
    · rename_i hnone
      cases hrun
      exact ⟨h, hidle h hnone, rfl⟩
    · rename_i b₁ hnext
      obtain ⟨h₁, hhistory₁⟩ := h.next? hwf hnext
      obtain ⟨h', hagenda, hhistory⟩ := ih h₁ hrun
      exact ⟨h', hagenda, hhistory.trans hhistory₁⟩

/-! ## The beginning of a step -/

/-- Moving an item over its token puts it on the agenda. -/
theorem adds_scan {w : Item} {x : Constituent} {ts : List Sym}
    (hx : b.concrete.constituent? w = some x) (hform : x.formAt? w.form = some ts) :
    b.SameChart (b.scan w) ∧
      b.Adds (b.scan w) (fun _ => False) (· = w.moved ts.length) := by
  have hpush : ∀ length, length = ts.length →
      b.Adds (Building.push { b with counters.scans := b.counters.scans + 1 } (w.moved length))
        (fun _ => False) (· = w.moved ts.length) := by
    rintro length rfl
    exact ((b.adds_counters _).trans (adds_push _ _)).congr (fun _ => or_self_iff)
      fun i => by rw [false_or]
  unfold scan
  rw [Concrete.need_of_constituent? hx]
  cases x with
  | tokens ts' =>
    cases hform
    exact ⟨⟨rfl, rfl, rfl⟩, hpush _ rfl⟩
  | variants v =>
    have hlength : ((v.form? w.form).getD []).length = ts.length := by
      rw [show v.form? w.form = some ts from hform, Option.getD_some]
    exact ⟨⟨rfl, rfl, rfl⟩, hpush _ hlength⟩
  | sub arg f => cases hform
  | lit arg f => cases hform
  | var arg index => cases hform

/-- While the goals of an input are predicted nothing else is. -/
structure Opens (c : Concrete) (v : Nat → Sym) (ids : List InstanceId) (goal : Nat)
    (b : Building) : Prop where
  concrete : b.concrete = c
  history : b.history = #[]
  fault : b.fault = none
  sound : Sound c v ids goal b.facts
  agenda : ∀ i ∈ b.agenda, Stands c v b.facts b.index i
  saturated : Saturated c v b.facts b.index (· ∈ b.agenda) fun _ _ => False
  top : ∀ S X f top, b.facts (.predicts S X f top) → top = true

/-- A goal that is not predicted yet is predicted. -/
theorem Opens.predict (hwf : c.WellFormed) (h : Opens c v ids goal b) {id : InstanceId}
    (hid : id ∈ ids) {n : Nat} (hn : c.fieldCount? id = some n) (hgoal : goal < n)
    (hnone : b.step.findItemSet? (.grammar id) goal = none) :
    let set : ItemSet := { cat := .grammar id, field := goal, top := true, waiting := [] }
    let b' := (b.addItemSet set).2.expand (b.addItemSet set).1 (.grammar id) goal
    Opens c v ids goal b' ∧ (∀ φ, b.facts φ → b'.facts φ) ∧
      ∃ S, b'.facts (.predicts S (.grammar id) goal true) := by
  intro set b'
  have hadds :=
    (b.adds_addItemSet set).trans (adds_expand _ (b.addItemSet set).1 (.grammar id) goal)
  change b.Adds b' _ _ at hadds
  let S : ItemSetRef := (b.addItemSet set).1
  have hS : S.step = b.index := rfl
  have hzero : b.index = 0 := by
    rw [index, h.history]
    rfl
  have hF' : ∀ φ, b'.facts φ ↔ b.facts φ ∨ φ = .predicts S (.grammar id) goal true := by
    intro φ
    rw [hadds.facts]
    simp [set, S]
  have hindex := hadds.index
  have hmono : ∀ φ, b.facts φ → b'.facts φ := fun φ hφ => (hF' φ).2 (.inl hφ)
  have hnew : b'.facts (.predicts S (.grammar id) goal true) := (hF' _).2 (.inr rfl)
  have hsound : Sound c v ids goal b'.facts :=
    h.sound.predictGoal hid hn hgoal (hS.trans hzero)
      (fun S' top hS' => not_predicts_of_findItemSet? hnone (hS'.trans hS))
      (fun _ _ _ => not_predicts_size) hF' (chartFacts_functional _)
  have hconcrete : (b.addItemSet set).2.concrete = c := h.concrete
  have hagenda : ∀ i, i ∈ b'.agenda ↔ i ∈ b.agenda ∨
      ∃ q, Offers c b'.facts (.grammar id) q ∧
        i = { set := S, production := q, field := goal } := by
    intro i
    rw [hadds.agenda, hconcrete, false_or]
    exact Iff.rfl
  refine ⟨⟨hadds.concrete.trans h.concrete, hadds.history.trans h.history,
    hadds.fault.trans h.fault, hsound, ?_, ⟨?_, fun _ _ h => h.elim⟩, ?_⟩, hmono, S, hnew⟩
  · intro i hi
    rw [hindex]
    rcases (hagenda i).1 hi with hi | ⟨q, hq, rfl⟩
    · exact (h.agenda i hi).mono hmono
    · exact hS ▸ hsound.stands_start hwf hnew hq
  · rintro k i hk hdue
    rw [hindex] at hk ⊢
    rcases hdue.of_predictGoal hF' with hdue | ⟨rfl, q, hq, rfl⟩
    · obtain hfalse | ⟨hk', hi⟩ := h.saturated.due k i hk hdue
      · exact hfalse.elim
      · exact .inr ⟨hk', (hagenda i).2 (.inl hi)⟩
    · exact .inr ⟨hS, (hagenda _).2 (.inr ⟨q, hq, rfl⟩)⟩
  · intro S₁ X f top hset
    rcases (hF' _).1 hset with hset | hset
    · exact h.top _ _ _ _ hset
    · cases hset
      rfl

/-- All goals are predicted. -/
theorem Opens.predictTop (hwf : c.WellFormed) (h : Opens c v ids goal b) (l : List InstanceId)
    (hl : ∀ id ∈ l, id ∈ ids ∧ ∃ n, c.fieldCount? id = some n ∧ goal < n) :
    Opens c v ids goal (b.predictTop l goal) ∧ (∀ φ, b.facts φ → (b.predictTop l goal).facts φ) ∧
      ∀ id ∈ l, ∃ S, (b.predictTop l goal).facts (.predicts S (.grammar id) goal true) := by
  induction l generalizing b with
  | nil => exact ⟨h, fun _ h => h, nofun⟩
  | cons id l ih =>
    obtain ⟨hid, n, hn, hgoal⟩ := hl id List.mem_cons_self
    have hstep : ∃ b₁, b.predictTop (id :: l) goal = b₁.predictTop l goal ∧
        Opens c v ids goal b₁ ∧ (∀ φ, b.facts φ → b₁.facts φ) ∧
          ∃ S, b₁.facts (.predicts S (.grammar id) goal true) := by
      cases hfind : b.step.findItemSet? (.grammar id) goal with
      | some i =>
        refine ⟨b, by simp only [Building.predictTop, List.foldl_cons, hfind], h,
          fun _ h => h, ?_⟩
        obtain ⟨top, hset⟩ := predicts_of_findItemSet? hfind
        exact ⟨_, h.top _ _ _ _ hset ▸ hset⟩
      | none =>
        refine ⟨_, ?_, h.predict hwf hid hn hgoal hfind⟩
        simp only [Building.predictTop, List.foldl_cons, hfind]
    obtain ⟨b₁, heq, h₁, hmono₁, S, hS⟩ := hstep
    obtain ⟨h', hmono, hgoals⟩ := ih h₁ fun id hid => hl id (List.mem_cons_of_mem _ hid)
    rw [heq]
    refine ⟨h', fun φ hφ => hmono φ (hmono₁ φ hφ), fun id' hid' => ?_⟩
    rcases List.mem_cons.1 hid' with rfl | hid'
    · exact ⟨S, hmono _ hS⟩
    · exact hgoals id' hid'

/-- A step that was just started knows nothing. -/
theorem facts_start (c : Concrete) (history : Array Step) (token : Option Sym)
    (counters : Counters) : (start c history token counters).facts = chartFacts history :=
  chartFacts_push_empty ..

/-- Before anything is predicted nothing is known. -/
theorem opens_start (c : Concrete) (v : Nat → Sym) (ids : List InstanceId) (goal : Nat)
    (counters : Counters) : Opens c v ids goal (start c #[] none counters) := by
  have hnone : ∀ φ, ¬ (start c #[] none counters).facts φ := by
    rintro φ hφ
    rw [facts_start] at hφ
    obtain ⟨k, s, hs, -⟩ := hφ
    simp at hs
  refine ⟨rfl, rfl, rfl, ⟨chartFacts_functional _, fun φ h => absurd h (hnone φ), ?_, ?_, ?_⟩,
    nofun, ⟨?_, nofun⟩, fun _ _ _ _ h => absurd h (hnone _)⟩
  · exact fun _ _ _ _ _ _ h => absurd h (hnone _)
  · exact fun _ _ _ _ _ _ _ _ _ h => absurd h (hnone _)
  · exact fun _ _ _ _ _ h => absurd h (hnone _)
  · intro k i _ hdue
    cases hdue with
    | start hset _ => exact absurd hset (hnone _)
    | resume hdone _ _ _ => exact absurd hdone (hnone _)
    | scan hawaits _ _ _ => exact absurd hawaits (hnone _)

end Building

/-! ## Charts -/

namespace Chart

variable {chart : Chart}

/-- All that is known in a chart. -/
def facts (chart : Chart) : Fact → Prop := chartFacts chart.steps

/-- What holds of a chart between tokens, where `v` is the input. -/
structure Built (c : Concrete) (v : Nat → Sym) (ids : List InstanceId) (goal : Nat)
    (chart : Chart) : Prop where
  concrete : chart.concrete = c
  sound : Sound c v ids goal chart.facts
  saturated : ∃ done, Saturated c v chart.facts chart.position (fun _ => False) done
  goals : ∀ id ∈ ids, ∃ S, chart.facts (.predicts S (.grammar id) goal true)

/-- Nothing is known of later positions. -/
theorem step_le_position {φ : Fact} (h : chart.facts φ) : φ.step ≤ chart.position := by
  have := step_lt_of_chartFacts h
  rw [steps, Array.size_push] at this
  exact Nat.le_of_lt_succ this

/-- A step that was finished makes a chart. -/
theorem built_of_finish (hwf : c.WellFormed) {b : Building} (h : b.Runs c v ids goal)
    (limit : Nat) :
    (b.finish limit).1 = .error .exhausted ∨ ∃ last, (b.finish limit).1 = .ok last ∧
      Built c v ids goal { concrete := c, past := b.history, last } := by
  unfold Building.finish
  cases hrun : b.run limit with
  | none => exact .inl rfl
  | some b' =>
    obtain ⟨h', hagenda, hhistory⟩ := h.run hwf hrun
    have hfault := h'.fault
    refine .inr ⟨b'.step, by simp [hfault], ?_⟩
    have hfacts : ({ concrete := c, past := b.history, last := b'.step } : Chart).facts =
        b'.facts := by
      rw [facts, steps, Building.facts, hhistory]
    refine ⟨rfl, by rw [hfacts]; exact h'.sound, ?_, by rw [hfacts]; exact h'.goals⟩
    obtain ⟨done, hsat⟩ := h'.saturated
    rw [Building.index, hhistory, hagenda] at hsat
    refine ⟨done, ?_⟩
    rw [hfacts]
    simp only [List.not_mem_nil] at hsat
    exact hsat

/-- The step before any input begins with the goals. -/
theorem runs_predictTop (hwf : c.WellFormed) {field : Nat} {ids : List InstanceId}
    (hfields : ∀ id ∈ ids, ∃ n, c.fieldCount? id = some n ∧ field < n) (v : Nat → Sym)
    (counters : Counters) :
    ((Building.start c #[] none counters).predictTop ids field).Runs c v ids field ∧
      ((Building.start c #[] none counters).predictTop ids field).history = #[] := by
  obtain ⟨hopen, -, hgoals⟩ := (Building.opens_start c v ids field counters).predictTop hwf ids
    fun id hid => ⟨hid, hfields id hid⟩
  exact ⟨⟨hopen.concrete, hopen.fault, hopen.sound, hopen.agenda, ⟨_, hopen.saturated⟩, hgoals⟩,
    hopen.history⟩

/-- The chart before any input, whatever the input will be. -/
theorem built_of_parse (hwf : c.WellFormed) {limit : Nat} {symbols : SymbolStore} {cat : String}
    {field : Nat} {category : ConcreteCategory} {counters counters₀ : Counters} {chart₀ : Chart}
    (hgoal : Chart.goal symbols c cat field = .ok category)
    (hfields : ∀ id ∈ category.instances, ∃ n, c.fieldCount? id = some n ∧ field < n)
    (hparse : parse limit symbols c cat field counters = (.ok chart₀, counters₀))
    (v : Nat → Sym) : Built c v category.instances field chart₀ ∧ chart₀.position = 0 := by
  simp only [parse, hgoal] at hparse
  obtain ⟨hruns, hhistory⟩ := runs_predictTop hwf hfields v counters
  generalize (Building.start c #[] none counters).predictTop category.instances field = b
    at hparse hruns hhistory
  rcases built_of_finish hwf hruns limit with hfinish | ⟨last, hfinish, hbuilt⟩
  · cases hf : b.finish limit with
    | mk r counters' =>
      rw [hf] at hfinish hparse
      cases hfinish
      cases hparse
  · cases hf : b.finish limit with
    | mk r counters' =>
      rw [hf] at hfinish hparse
      cases hfinish
      cases hparse
      rw [hhistory] at hbuilt
      exact ⟨hbuilt, rfl⟩

/-- What waits for a token in the last step of a chart is known to wait for it. -/
theorem awaits_iff {t : Sym} {idx : Nat} :
    chart.facts (.awaits chart.position t idx) ↔ idx ∈ chart.last.waitingFor t := by
  have hlast : chart.steps[chart.position]? = some chart.last := by simp [steps, position]
  simp only [Step.waitingFor, List.mem_map, List.mem_filter, decide_eq_true_eq]
  constructor
  · rintro ⟨k, s, hs, rfl, hmem⟩
    cases hlast.symm.trans hs
    exact ⟨(t, idx), ⟨hmem, rfl⟩, rfl⟩
  · rintro ⟨⟨t, idx⟩, ⟨hmem, rfl⟩, rfl⟩
    exact ⟨chart.position, chart.last, hlast, rfl, hmem⟩

/-- A token is refused if nothing waits for it. -/
theorem waitingItems?_eq_none_iff {symbols : SymbolStore} {token : String} :
    chart.waitingItems? symbols token = none ↔
      ∀ t idx, symbols.find? token = some t → ¬ chart.facts (.awaits chart.position t idx) := by
  simp only [awaits_iff]
  unfold waitingItems?
  cases symbols.find? token with
  | none => simp
  | some t =>
    simp only [Option.bind_some, Option.some.injEq]
    cases hwaiting : chart.last.waitingFor t with
    | nil =>
      constructor
      · rintro - t' idx rfl
        simp [hwaiting]
      · exact fun _ => rfl
    | cons idx rest =>
      constructor
      · exact nofun
      · exact fun h => absurd (by simp [hwaiting]) (h t idx rfl)

/-- What waits for a token waits for the symbol that it is. -/
theorem waitingItems?_eq_some {symbols : SymbolStore} {token : String} {sym : Sym}
    {idxs : List Nat} (h : chart.waitingItems? symbols token = some (sym, idxs)) :
    symbols.find? token = some sym ∧ idxs = chart.last.waitingFor sym := by
  unfold waitingItems? at h
  obtain ⟨sym', hfind, h⟩ := Option.bind_eq_some_iff.1 h
  split at h
  · cases h
  · cases h
    exact ⟨hfind, rfl⟩

/-- The items that wait for a token at the end of a chart. -/
theorem mem_waiting_iff {sym : Sym} {w : Item} :
    w ∈ (chart.last.waitingFor sym).filterMap (chart.last.items[·]?) ↔
      ∃ idx, chart.facts (.awaits chart.position sym idx) ∧
        chart.facts (.item ⟨chart.position, idx⟩ w) := by
  have hlast : chart.steps[chart.position]? = some chart.last := by simp [steps, position]
  simp only [List.mem_filterMap, awaits_iff]
  refine exists_congr fun idx => and_congr_right fun _ => ?_
  constructor
  · exact fun hw => ⟨chart.position, chart.last, hlast, rfl, hw⟩
  · rintro ⟨k, s, hs, rfl, hw⟩
    cases hlast.symm.trans hs
    exact hw

/-- They stand there, and the token is the one that comes next in them. -/
theorem Built.stands_waiting (h : Built c v ids goal chart) {sym : Sym} {w : Item}
    (hw : w ∈ (chart.last.waitingFor sym).filterMap (chart.last.items[·]?)) :
    Stands c v chart.facts chart.position w ∧ ∃ x ts,
      c.constituent? w = some x ∧ x.formAt? w.form = some ts ∧ ts[w.word]? = some sym := by
  obtain ⟨idx, hawaits, hitem⟩ := mem_waiting_iff.1 hw
  obtain ⟨w', x, ts, hitem', hx, hform, ht⟩ := h.sound.grounded _ hawaits
  obtain rfl := h.sound.functional.item _ _ _ hitem hitem'
  exact ⟨h.sound.grounded _ hitem, x, ts, hx, hform, ht⟩

/-- The step after a token of the input begins with the items that were moved over it. -/
theorem Built.runs_scan (h : Built c v ids goal chart) {sym : Sym} (hsym : sym = v chart.position)
    (counters : Counters) {items : List Item}
    (hitems : items = (chart.last.waitingFor sym).filterMap (chart.last.items[·]?)) :
    (items.foldl Building.scan (.start c chart.steps (some sym) counters)).Runs c v ids goal ∧
      (items.foldl Building.scan (.start c chart.steps (some sym) counters)).history =
        chart.steps := by
  subst hsym
  have hfacts : (Building.start c chart.steps (some (v chart.position)) counters).facts =
      chart.facts := Building.facts_start ..
  have hindex : (Building.start c chart.steps (some (v chart.position)) counters).index =
      chart.position + 1 := by
    show chart.steps.size = _
    simp [steps, position]
  have hadds := Building.adds_foldl Building.scan
    (fun w i => ∃ x ts, c.constituent? w = some x ∧ x.formAt? w.form = some ts ∧
      i = w.moved ts.length) items (.start c chart.steps (some (v chart.position)) counters) (by
    intro b' hsame w hw
    obtain ⟨-, x, ts, hx, hform, -⟩ := h.stands_waiting (hitems ▸ hw)
    obtain ⟨hsame', hadds⟩ := Building.adds_scan (b := b') (w := w)
      (by rw [hsame.concrete]; exact hx) hform
    refine ⟨hsame', hadds.congr (fun _ => Iff.rfl) fun i => ?_⟩
    constructor
    · rintro rfl
      exact ⟨x, ts, hx, hform, rfl⟩
    · rintro ⟨x', ts', hx', hform', rfl⟩
      cases hx.symm.trans hx'
      cases hform.symm.trans hform'
      rfl)
  generalize items.foldl Building.scan
    (.start c chart.steps (some (v chart.position)) counters) = b at hadds ⊢
  -- Scanning only fills the agenda of the new step.
  have hbfacts : b.facts = chart.facts := by
    rw [← hfacts]
    funext φ
    rw [hadds.facts φ, or_false]
  have hbindex : b.index = chart.position + 1 := hadds.index.trans hindex
  refine ⟨⟨hadds.concrete, hadds.fault, by rw [hbfacts]; exact h.sound, ?_, ?_,
    by rw [hbfacts]; exact h.goals⟩, hadds.history⟩
  · intro i hi
    rw [hbfacts, hbindex]
    rcases (hadds.agenda i).1 hi with hi | ⟨w, hw, x, ts, hx, hform, rfl⟩
    · cases hi
    · obtain ⟨hstands, x', ts', hx', hform', ht⟩ := h.stands_waiting (hitems ▸ hw)
      cases hx.symm.trans hx'
      cases hform.symm.trans hform'
      exact hstands.moved hx hform ht
  · obtain ⟨done, hsat⟩ := h.saturated
    rw [hbfacts, hbindex]
    refine ⟨done, hsat.advance (fun _ => step_le_position) ?_⟩
    intro idx w x ts hawaits hw hx hform
    have hmem := mem_waiting_iff.2 ⟨idx, hawaits, hw⟩
    exact (hadds.agenda _).2 (.inr ⟨w, hitems ▸ hmem, x, ts, hx, hform, rfl⟩)

/-- The chart after one more token of the input. -/
theorem Built.feed (hwf : c.WellFormed) (h : Built c v ids goal chart) (limit : Nat)
    {symbols : SymbolStore} {token : String} (counters : Counters)
    (htoken : symbols.find? token = some (v chart.position))
    (hwaiting : chart.waitingItems? symbols token ≠ none) :
    (chart.feed limit symbols token counters).1 = .error .exhausted ∨
      ∃ chart', (chart.feed limit symbols token counters).1 = .ok (some chart') ∧
        Built c v ids goal chart' ∧ chart'.position = chart.position + 1 := by
  obtain ⟨⟨sym, idxs⟩, hitems⟩ := Option.ne_none_iff_exists'.1 hwaiting
  obtain ⟨hfind, rfl⟩ := waitingItems?_eq_some hitems
  have hsym : sym = v chart.position := Option.some.inj (hfind.symm.trans htoken)
  obtain ⟨hruns, hhistory⟩ := h.runs_scan hsym counters rfl
  have hconcrete := h.concrete
  subst hconcrete
  simp only [Chart.feed, hitems]
  generalize List.foldl Building.scan
    (Building.start chart.concrete chart.steps (some sym) counters)
    (List.filterMap (chart.last.items[·]?) (chart.last.waitingFor sym)) = b at hruns hhistory ⊢
  -- The new step is finished like the first one.
  rcases built_of_finish hwf hruns limit with hfinish | ⟨last, hfinish, hbuilt⟩
  · left
    cases hf : b.finish limit with
    | mk r counters' =>
      rw [hf] at hfinish
      cases hfinish
      rfl
  · right
    cases hf : b.finish limit with
    | mk r counters' =>
      rw [hf] at hfinish
      cases hfinish
      rw [hhistory] at hbuilt
      exact ⟨_, rfl, hbuilt, by simp [position, steps]⟩

end Chart

end Polyglot
