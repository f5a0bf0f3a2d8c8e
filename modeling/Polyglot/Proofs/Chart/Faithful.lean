import Polyglot.Proofs.Chart.Closing
import Polyglot.Proofs.Chart.Counts
import Polyglot.Proofs.Chart.Termination

/-!
# A chart is faithful to its setting

What parsing depends on is a setting without any order. A chart is faithful to it if it knows all
that is reached and nothing else, has nothing twice, and has its items show each stage as often as
it is due. Every chart that comes about is.

- `Step.Tidy`: no goal is completed twice.
- `Building.Faithful`: what holds while a step is built. `Building.Faithful.next?` keeps it through
  a round, `Building.Faithful.finish` through all of them.
- `Building.faithful_predictTop`, `Chart.Built.faithful_begun`: the first step and the step after a
  token begin with it.
- `Chart.faithful_of_parse`, `Chart.Faithful.feed`: charts are faithful.
-/

namespace Polyglot

variable {c : Concrete} {v : Nat → Sym} {ids : List InstanceId} {goal k : Nat}

/-! ## No goal is completed twice -/

/-- What a step has completed are categories of it, each of them once. -/
structure Step.Tidy (s : Step) : Prop where
  nodup : s.completed.Nodup
  inRange : ∀ C ∈ s.completed, C.idx < s.cats.size

namespace Building

variable {b b' : Building} {first : Multiset Item}

theorem Keeps.tidy (h : Keeps b b') (hb : b.step.Tidy) : b'.step.Tidy :=
  ⟨h.completed ▸ hb.nodup, h.completed ▸ h.cats ▸ hb.inRange⟩

theorem tidy_pack (h : b.step.Tidy) (idx : Nat) (cat : ChartCat) (q : ChartProduction) :
    (b.pack idx cat q).step.Tidy := by
  unfold pack
  split
  · exact h
  · refine Keeps.tidy (keeps_foldl (fun b field => ?_) _ _) ⟨h.nodup, fun C hC => ?_⟩
    · split <;> exact ⟨rfl, rfl⟩
    · simpa using h.inRange C hC

/-- A category that is added has a place of its own. -/
theorem tidy_addCategory (h : b.step.Tidy) (ref : ItemSetRef) (set : ItemSet)
    (q : ChartProduction) : (b.addCategory ref set q).step.Tidy := by
  refine Keeps.tidy (keeps_foldl (fun b waiting => b.keeps_combine waiting _) _ _) ⟨?_, ?_⟩
  · dsimp only
    split
    · refine List.nodup_append.2 ⟨h.nodup, List.nodup_singleton _, fun C hC C' hC' heq => ?_⟩
      obtain rfl := List.mem_singleton.1 hC'
      exact Nat.lt_irrefl _ (heq ▸ h.inRange C hC)
    · exact h.nodup
  · intro C hC
    dsimp only at hC
    rw [Array.size_push]
    split at hC
    · rcases List.mem_append.1 hC with hC | hC
      · exact Nat.lt_succ_of_lt (h.inRange C hC)
      · obtain rfl := List.mem_singleton.1 hC
        exact Nat.lt_succ_self _
    · exact Nat.lt_succ_of_lt (h.inRange C hC)

theorem tidy_process (h : b.step.Tidy) (item : Item) : (b.process item).step.Tidy := by
  obtain hkeeps | ⟨b₁, hkeeps, ⟨idx, cat, -, heq⟩ | ⟨set, heq⟩⟩ := b.process_cases item
  · exact hkeeps.tidy h
  · rw [heq]
    exact tidy_pack (hkeeps.tidy h) ..
  · rw [heq]
    exact tidy_addCategory (hkeeps.tidy h) ..

theorem tidy_of_completed_eq (h : b.step.completed = []) : b.step.Tidy :=
  ⟨h ▸ List.nodup_nil, by simp [h]⟩

/-! ## While a step is built -/

/-- What holds while a step is built that began with some items: what is known is sound and about
stages that are reached, and all items are accounted for. -/
structure Faithful (c : Concrete) (v : Nat → Sym) (ids : List InstanceId) (goal : Nat)
    (first : Multiset Item) (b : Building) : Prop where
  runs : b.Runs c v ids goal
  licensed : b.Licensed c v ids goal
  distinct : b.step.Distinct
  tidy : b.step.Tidy
  ledger : ∃ log : Multiset Item, (∀ i ∈ log, ∃ σ, i.Shows c b.facts σ) ∧ b.Ledger c first log

/-- One round of work keeps it so. -/
theorem Faithful.next? (hwf : c.WellFormed) (h : b.Faithful c v ids goal first)
    (hnext : b.next? = some b') : b'.Faithful c v ids goal first ∧ b'.history = b.history ∧
      ∀ φ, b.facts φ → b'.facts φ := by
  obtain ⟨hruns, hhistory⟩ := h.runs.next? hwf hnext
  have hlicensed := h.licensed.next? hwf h.runs hnext
  obtain ⟨item, agenda, -, hagenda, rfl⟩ := next?_eq_some hnext
  let b₀ : Building := { b with agenda }
  have hmem : item ∈ b.agenda := hagenda ▸ List.mem_cons_self
  have hitem : Stands c v b₀.facts b₀.index item := h.runs.agenda item hmem
  obtain ⟨new, items, -, hadds⟩ :=
    exists_effect (b := b₀) hwf h.runs.sound h.runs.concrete hitem
  have hmono : ∀ φ, b.facts φ → (b₀.process item).facts φ := fun φ hφ =>
    (hadds.facts φ).2 (.inl hφ)
  obtain ⟨log, hlog, hledger⟩ := h.ledger
  obtain ⟨σ, hσ, -⟩ := h.licensed.agenda item hmem
  refine ⟨⟨hruns, hlicensed, distinct_process (b := b₀) h.distinct item,
    tidy_process (b := b₀) h.tidy item, item ::ₘ log, ?_, ?_⟩, hhistory, hmono⟩
  · intro i hi
    rcases Multiset.mem_cons.1 hi with rfl | hi
    · exact ⟨σ, hσ.mono hmono⟩
    · obtain ⟨τ, hτ⟩ := hlog i hi
      exact ⟨τ, hτ.mono hmono⟩
  · exact hledger.post hagenda (posts_process hwf h.runs.sound h.runs.concrete hitem)

/-- So it holds of the finished step, where nothing is left to do. -/
theorem Faithful.finish (hwf : c.WellFormed) (h : b.Faithful c v ids goal first) {limit : Nat}
    {s : Step} (hfinish : (b.finish limit).1 = .ok s) :
    ∃ b' : Building, b'.step = s ∧ b'.Faithful c v ids goal first ∧ b'.agenda = [] ∧
      b'.history = b.history ∧ ∀ φ, b.facts φ → b'.facts φ := by
  unfold Building.finish at hfinish
  split at hfinish
  · cases hfinish
  · rename_i b' hrun
    obtain ⟨h', hhistory, hmono⟩ := run_invariant
      (fun b' => b'.Faithful c v ids goal first ∧ b'.history = b.history ∧
        ∀ φ, b.facts φ → b'.facts φ)
      (fun b₁ b₂ ⟨h₁, hhistory₁, hmono₁⟩ hnext => by
        obtain ⟨h₂, hhistory₂, hmono₂⟩ := h₁.next? hwf hnext
        exact ⟨h₂, hhistory₂.trans hhistory₁, fun φ hφ => hmono₂ φ (hmono₁ φ hφ)⟩)
      ⟨h, rfl, fun _ hφ => hφ⟩ hrun
    obtain ⟨-, hagenda, -⟩ := h.runs.run hwf hrun
    split at hfinish
    · cases hfinish
    · cases hfinish
      exact ⟨b', rfl, h', hagenda, hhistory, hmono⟩

/-- What is known when nothing is left to do is settled. -/
theorem Faithful.settled (h : b.Faithful c v ids goal first) (hagenda : b.agenda = []) :
    Settled c v ids goal b.index b.facts := by
  refine ⟨h.runs.sound, h.licensed.facts, ?_, h.runs.goals⟩
  obtain ⟨done, hsat⟩ := h.runs.saturated
  refine ⟨done, ?_⟩
  rw [hagenda] at hsat
  simpa only [List.not_mem_nil] using hsat

/-! ## The beginning of a step -/

/-- So far fields have been predicted, and nothing has been done with it. -/
structure Fresh (b : Building) : Prop where
  items : b.step.items = #[]
  cats : b.step.cats = #[]
  transitions : b.step.transitions = []
  waiting : ∀ set ∈ b.step.itemSets, set.waiting = []
  agenda : (b.agenda : Multiset Item) = b.starts

theorem Fresh.predict (h : b.Fresh) {set : ItemSet} (hset : set.waiting = []) :
    ((b.addItemSet set).2.expand (b.addItemSet set).1 set.cat set.field).Fresh := by
  obtain ⟨hsame, hagenda⟩ :=
    agenda_expand (b.addItemSet set).2 (b.addItemSet set).1 set.cat set.field
  obtain ⟨hstarts, -⟩ := hsame.accounts
  have hproductions : ∀ X, (b.addItemSet set).2.productions X = b.productions X :=
    productions_congr rfl rfl rfl
  have hold : ∀ s < b.step.itemSets.size, (b.addItemSet set).2.startsOf s = b.startsOf s := by
    intro s hs
    refine startsOf_congr rfl ?_ fun _ _ => hproductions _
    rw [addItemSet, Array.getElem?_push_lt hs, Array.getElem?_eq_getElem hs]
  have hlast : (b.addItemSet set).2.startsOf b.step.itemSets.size =
      Multiset.map (fun q => (⟨⟨b.index, b.step.itemSets.size⟩, q, set.field, 0, 0, 0⟩ : Item))
        ((b.addItemSet set).2.productions set.cat) := by
    rw [startsOf, addItemSet, Array.getElem?_push_size]
    rfl
  refine ⟨hsame.step ▸ h.items, hsame.step ▸ h.cats, hsame.step ▸ h.transitions, ?_, ?_⟩
  · rw [hsame.step]
    intro set' hset'
    rcases Array.mem_push.1 hset' with hset' | rfl
    · exact h.waiting set' hset'
    · exact hset
  · rw [hagenda, hstarts, starts, addItemSet, Array.size_push, Finset.sum_range_succ, add_comm]
    refine congrArg₂ _ ?_ hlast.symm
    exact h.agenda.trans (Finset.sum_congr rfl fun s hs => (hold s (Finset.mem_range.1 hs)).symm)

theorem Fresh.predictTop (h : b.Fresh) (ids : List InstanceId) (field : Nat) :
    (b.predictTop ids field).Fresh := by
  induction ids generalizing b with
  | nil => exact h
  | cons id ids ih =>
    rw [Building.predictTop, List.foldl_cons]
    refine ih ?_
    split
    · exact h
    · exact h.predict rfl

theorem fresh_start (c : Concrete) (history : Array Step) (token : Option Sym)
    (counters : Counters) : (start c history token counters).Fresh :=
  ⟨rfl, rfl, rfl, by simp [start], rfl⟩

/-- What is started for a prediction is due. -/
theorem due_of_mem_starts (hc : b.concrete = c) {i : Item} (hi : i ∈ b.starts) :
    Due c v b.facts b.index i := by
  obtain ⟨s, hs, hi⟩ := Multiset.mem_sum.1 hi
  have hlt := Finset.mem_range.1 hs
  rw [startsOf, Array.getElem?_eq_getElem hlt] at hi
  obtain ⟨q, hq, rfl⟩ := Multiset.mem_map.1 hi
  have hset := predicts_at b.getElem?_push_step ⟨s, hlt⟩
  exact .start hset (hc ▸ mem_productions_iff.1 (Multiset.mem_coe.1 hq))

/-- **The first step begins faithfully.** -/
theorem faithful_predictTop (hwf : c.WellFormed) {field : Nat}
    (hfields : ∀ id ∈ ids, ∃ n, c.fieldCount? id = some n ∧ field < n) (v : Nat → Sym)
    (counters : Counters) :
    ((start c #[] none counters).predictTop ids field).Faithful c v ids field 0 := by
  obtain ⟨hopen, -, hgoals⟩ := (opens_start c v ids field counters).predictTop hwf ids
    fun id hid => ⟨hid, hfields id hid⟩
  have hfresh := (fresh_start c #[] none counters).predictTop ids field
  have hcompleted : ((start c #[] none counters).predictTop ids field).step.completed = [] :=
    (keeps_predictTop ..).completed
  generalize (start c #[] none counters).predictTop ids field = b
    at hopen hgoals hfresh hcompleted
  have hsays : ∀ φ, b.facts φ → b.step.Says b.index φ := by
    intro φ hφ
    rcases chartFacts_push.1 hφ with ⟨k, s, hs, -⟩ | hsays
    · rw [hopen.history] at hs
      simp at hs
    · exact hsays
  have hL : ∀ φ, b.facts φ → Polyglot.Licensed c v ids field b.facts φ := by
    intro φ hφ
    have hsaid := hsays φ hφ
    cases φ with
    | item r i =>
      obtain ⟨-, hi⟩ := hsaid
      simp [hfresh.items] at hi
    | predicts S X f top =>
      obtain ⟨hS, rfl, id, hid, rfl⟩ :=
        (hopen.sound.grounded _ hφ).2.2 (hopen.top S X f top hφ)
      exact ⟨_, names_grammar _ id, .goal hS hid⟩
    | produces C q =>
      obtain ⟨-, cat, hcat, -⟩ := hsaid
      simp [hfresh.cats] at hcat
    | _ => trivial
  refine ⟨⟨hopen.concrete, hopen.fault, hopen.sound, hopen.agenda, ⟨_, hopen.saturated⟩, hgoals⟩,
    ⟨hL, fun i hi => ?_⟩, distinct_of_cats_eq hfresh.cats, tidy_of_completed_eq hcompleted, 0,
    by simp, ⟨?_, by simp, ?_, ?_⟩⟩
  · have hstarts : i ∈ b.starts := hfresh.agenda ▸ hi
    exact (due_of_mem_starts hopen.concrete hstarts).reached hopen.sound hL
  · have hresumes : b.resumes = 0 := by rw [resumes, hfresh.cats]; rfl
    simp [hfresh.agenda, hresumes]
  · intro s set hs
    rw [waitingItems_of_itemSet? ((itemSet?_here b s).trans hs),
      hfresh.waiting set (Array.mem_of_getElem? hs)]
    rfl
  · rw [Step.awaiting, hfresh.transitions]
    rfl

/-- Moving an item over its token puts it on the agenda once. -/
theorem agenda_scan {w : Item} {x : Constituent} (hx : b.concrete.constituent? w = some x)
    {ts : List Sym} (hform : x.formAt? w.form = some ts) :
    b.SameChart (b.scan w) ∧ (b.scan w).agenda = b.concrete.pastWord w :: b.agenda := by
  rw [scan, Concrete.need_of_constituent? hx, Concrete.pastWord_of_form hx hform]
  cases x with
  | tokens ts' =>
    cases hform
    exact ⟨⟨rfl, rfl, rfl⟩, rfl⟩
  | variants v =>
    have hlength : ((v.form? w.form).getD []).length = ts.length := by
      rw [show v.form? w.form = some ts from hform, Option.getD_some]
    dsimp only [Item.Need.ofConstituent]
    rw [hlength]
    exact ⟨⟨rfl, rfl, rfl⟩, rfl⟩
  | sub | lit | var => cases hform

end Building

namespace Chart

variable {chart : Chart}

theorem getElem?_position (chart : Chart) : chart.steps[chart.position]? = some chart.last := by
  simp [steps, position]

/-- The items that wait for a token at the end of a chart. -/
def waitingItems (chart : Chart) (sym : Sym) : List Item :=
  (chart.last.waitingFor sym).filterMap (chart.last.items[·]?)

/-- The step after a token, before any work is done in it. -/
def begun (chart : Chart) (sym : Sym) (counters : Counters) : Building :=
  (chart.waitingItems sym).foldl Building.scan
    (.start chart.concrete chart.steps (some sym) counters)

variable {limit : Nat} {symbols : SymbolStore} {counters : Counters}

/-- A chart before any input is a first step that was finished. -/
theorem parse_eq_ok_iff {cat : String} {field : Nat} {category : ConcreteCategory}
    (hgoal : Chart.goal symbols c cat field = .ok category) :
    (parse limit symbols c cat field counters).1 = .ok chart ↔ ∃ last,
      (((Building.start c #[] none counters).predictTop category.instances field).finish
        limit).1 = .ok last ∧ { concrete := c, past := #[], last } = chart := by
  simp only [parse, hgoal]
  generalize Building.finish limit _ = result
  obtain ⟨_ | last, counters'⟩ := result <;> simp

/-- A chart after one more token is a step after the token that was finished. -/
theorem feed_eq_ok_iff {token : String} {sym : Sym} {idxs : List Nat}
    (hitems : chart.waitingItems? symbols token = some (sym, idxs)) {next : Chart} :
    (chart.feed limit symbols token counters).1 = .ok (some next) ↔ ∃ last,
      ((chart.begun sym counters).finish limit).1 = .ok last ∧
        { chart with past := chart.steps, last } = next := by
  obtain ⟨-, rfl⟩ := waitingItems?_eq_some hitems
  simp only [Chart.feed, hitems, begun, waitingItems]
  generalize Building.finish limit _ = result
  obtain ⟨_ | last, counters'⟩ := result <;> simp

/-- **The step after a token begins faithfully.** -/
theorem Built.faithful_begun (h : Built c v ids goal chart)
    (hL : ∀ φ, chart.facts φ → Licensed c v ids goal chart.facts φ) {sym : Sym}
    (hsym : sym = v chart.position) (counters : Counters) :
    (chart.begun sym counters).Faithful c v ids goal
        ((chart.waitingItems sym).map c.pastWord : List Item) ∧
      (chart.begun sym counters).history = chart.steps ∧
      (chart.begun sym counters).facts = chart.facts ∧
      ((chart.begun sym counters).agenda : Multiset Item) =
        (chart.waitingItems sym).map c.pastWord := by
  have hconcrete := h.concrete
  subst hconcrete
  have hruns : (chart.begun sym counters).Runs chart.concrete v ids goal :=
    (h.runs_scan hsym counters rfl).1
  have hhistory : (chart.begun sym counters).history = chart.steps :=
    (h.runs_scan hsym counters rfl).2
  obtain ⟨hsame, hagenda⟩ := Building.agenda_foldl Building.scan
    (fun w => {chart.concrete.pastWord w}) (chart.waitingItems sym)
    (.start chart.concrete chart.steps (some sym) counters) (by
      intro b' hsame w hw
      obtain ⟨-, x, ts, hx, hform, -⟩ := h.stands_waiting hw
      have hc : b'.concrete = chart.concrete := hsame.concrete
      obtain ⟨hsame', hagenda⟩ := Building.agenda_scan (b := b') (hc ▸ hx) hform
      refine ⟨hsame', ?_⟩
      rw [hagenda, hc, Multiset.singleton_add, Multiset.cons_coe])
  rw [← begun] at hsame hagenda
  rw [Multiset.bind_singleton, Multiset.map_coe] at hagenda
  replace hagenda : ((chart.begun sym counters).agenda : Multiset Item) =
      (chart.waitingItems sym).map chart.concrete.pastWord := hagenda.trans (add_zero _)
  generalize chart.begun sym counters = b at hruns hhistory hsame hagenda ⊢
  have hfacts : b.facts = chart.facts := by
    rw [hsame.facts_eq, Building.facts_start]
    rfl
  have hcats : b.step.cats = #[] := by rw [hsame.step]; rfl
  have hsets : b.step.itemSets = #[] := by rw [hsame.step]; rfl
  have hcompleted : b.step.completed = [] := by rw [hsame.step]; rfl
  refine ⟨⟨hruns, ⟨by rwa [hfacts], fun i hi => ?_⟩, Building.distinct_of_cats_eq hcats,
    Building.tidy_of_completed_eq hcompleted, 0, by simp, ⟨?_, by simp, ?_, ?_⟩⟩, hhistory, hfacts,
    hagenda⟩
  · have hmem : i ∈ (chart.waitingItems sym).map chart.concrete.pastWord := by
      rw [← Multiset.mem_coe, ← hagenda]
      exact hi
    obtain ⟨w, hw, rfl⟩ := List.mem_map.1 hmem
    obtain ⟨idx, hawaits, hitem⟩ := mem_waiting_iff.1 hw
    obtain ⟨-, x, ts, hx, hform, -⟩ := h.stands_waiting hw
    have hindex : b.index = chart.position + 1 := by
      rw [Building.index, hsame.history]
      exact Array.size_push ..
    rw [hfacts, hindex, Concrete.pastWord_of_form hx hform]
    exact (Due.scan (hsym ▸ hawaits) hitem hx hform).reached h.sound hL
  · have hstarts : b.starts = 0 := by rw [Building.starts, hsets]; rfl
    have hresumes : b.resumes = 0 := by rw [Building.resumes, hcats]; rfl
    simp [hagenda, hstarts, hresumes]
  · simp [hsets]
  · rw [hsame.step]
    rfl

/-- What holds of a chart between tokens: it knows all about the stages that are reached up to its
position and nothing else, and it has each of them as often as it comes up. -/
structure Faithful (c : Concrete) (v : Nat → Sym) (ids : List InstanceId) (goal : Nat)
    (chart : Chart) : Prop where
  built : Built c v ids goal chart
  licensed : ∀ φ, chart.facts φ → Licensed c v ids goal chart.facts φ
  distinct : ∀ s ∈ chart.steps, s.Distinct
  tidy : ∀ s ∈ chart.steps, s.Tidy
  tallied : ∃ D, Tallied c v ids goal chart.steps D

theorem Faithful.settled (h : chart.Faithful c v ids goal) :
    Settled c v ids goal chart.position chart.facts :=
  ⟨h.built.sound, h.licensed, h.built.saturated, h.built.goals⟩

/-- A step that was begun faithfully and finished makes a chart that is faithful. -/
theorem faithful_of_finish (hwf : c.WellFormed) {b : Building} {first : Multiset Item}
    (h : b.Faithful c v ids goal first) (hshows : ∀ i ∈ first, ∃ σ, i.Shows c b.facts σ)
    (hF₀ : Sound c v ids goal (chartFacts b.history))
    (hL₀ : ∀ φ, chartFacts b.history φ → Licensed c v ids goal (chartFacts b.history) φ)
    (hdistinct : ∀ s ∈ b.history, s.Distinct) (htidy : ∀ s ∈ b.history, s.Tidy)
    {D : Nat → Multiset Stage}
    (hbefore : Tallied c v ids goal b.history D)
    (hfirst : first.map (Item.stage c b.facts) = (c.setting v ids goal).moved D b.index)
    {limit : Nat} {last : Step} (hfinish : (b.finish limit).1 = .ok last) :
    Faithful c v ids goal { concrete := c, past := b.history, last } := by
  have hbuilt : Built c v ids goal { concrete := c, past := b.history, last } := by
    rcases built_of_finish hwf h.runs limit with hfinish' | ⟨last', hfinish', hbuilt⟩
    · cases hfinish.symm.trans hfinish'
    · cases hfinish.symm.trans hfinish'
      exact hbuilt
  obtain ⟨b', rfl, h', hagenda, hhistory, hmono⟩ := h.finish hwf hfinish
  obtain ⟨log, hlog, hledger⟩ := h'.ledger
  have hindex : b'.index = b.index := congrArg Array.size hhistory
  have hdistinct' : ∀ s ∈ b'.history.push b'.step, s.Distinct := by
    intro s hs
    rcases Array.mem_push.1 hs with hs | rfl
    · exact hdistinct s (hhistory ▸ hs)
    · exact h'.distinct
  have htidy' : ∀ s ∈ b'.history.push b'.step, s.Tidy := by
    intro s hs
    rcases Array.mem_push.1 hs with hs | rfl
    · exact htidy s (hhistory ▸ hs)
    · exact h'.tidy
  have hfirst' : first.map (Item.stage c b'.facts) =
      (c.setting v ids goal).moved D b'.index := by
    rw [hindex, ← hfirst]
    refine Multiset.map_congr rfl fun i hi => ?_
    obtain ⟨σ, hσ⟩ := hshows i hi
    rw [hσ.stage_eq h.runs.sound.functional, (hσ.mono hmono).stage_eq h'.runs.sound.functional]
  have htallied := Building.tallied (h'.settled hagenda) h'.runs.concrete hdistinct'
    (hhistory ▸ hF₀) (hhistory ▸ hL₀) (hhistory ▸ hbefore) hledger hagenda hlog hfirst'
  refine ⟨hbuilt, ?_, ?_, ?_, ?_⟩
  · show ∀ φ, chartFacts (b.history.push b'.step) φ → _
    rw [← hhistory]
    exact h'.licensed.facts
  · show ∀ s ∈ b.history.push b'.step, s.Distinct
    rw [← hhistory]
    exact hdistinct'
  · show ∀ s ∈ b.history.push b'.step, s.Tidy
    rw [← hhistory]
    exact htidy'
  · show ∃ D, Tallied c v ids goal (b.history.push b'.step) D
    rw [← hhistory]
    exact ⟨_, htallied⟩

/-- The chart before any input. -/
theorem faithful_of_parse (hwf : c.WellFormed) {cat : String} {field : Nat}
    {category : ConcreteCategory} (hgoal : Chart.goal symbols c cat field = .ok category)
    (hfields : ∀ id ∈ category.instances, ∃ n, c.fieldCount? id = some n ∧ field < n)
    (hparse : (parse limit symbols c cat field counters).1 = .ok chart) (v : Nat → Sym) :
    chart.Faithful c v category.instances field ∧ chart.position = 0 := by
  obtain ⟨last, hfinish, rfl⟩ := (parse_eq_ok_iff hgoal).1 hparse
  have hbegin := Building.faithful_predictTop hwf hfields v counters
  have hhistory := (runs_predictTop hwf hfields v counters).2
  generalize (Building.start c #[] none counters).predictTop category.instances field = b
    at hfinish hbegin hhistory
  have hnone : ∀ φ, ¬ chartFacts b.history φ := by
    rintro φ ⟨k, s, hs, -⟩
    rw [hhistory] at hs
    simp at hs
  have hsound : Sound c v category.instances field (chartFacts b.history) := by
    have hopen := Building.opens_start c v category.instances field counters
    rw [hhistory, ← Building.facts_start c #[] none counters]
    exact hopen.sound
  have htallied : Tallied c v category.instances field b.history 0 :=
    ⟨⟨by simp [hhistory], by simp [hhistory]⟩, fun _ _ _ _ _ hset => absurd hset (hnone _),
      by simp [hhistory]⟩
  have hindex : b.index = 0 := by rw [Building.index, hhistory]; rfl
  have hfaithful := faithful_of_finish hwf hbegin (by simp) hsound
    (fun φ hφ => absurd hφ (hnone φ)) (by simp [hhistory]) (by simp [hhistory]) htallied
    (by rw [hindex]; rfl) hfinish
  rw [hhistory] at hfaithful
  exact ⟨hfaithful, rfl⟩

/-- The items that wait for a token, as they were counted. -/
theorem awaiting_filter (s : Step) (sym : Sym) :
    (s.awaiting.filter (·.1 = sym)).map Prod.snd =
      ((s.waitingFor sym).filterMap (s.items[·]?) : List Item) := by
  rw [Step.awaiting, Step.waitingFor, Multiset.filter_coe, Multiset.map_coe, List.filterMap_map]
  refine congrArg _ ?_
  induction s.transitions with
  | nil => rfl
  | cons e transitions ih =>
    obtain ⟨t, idx⟩ := e
    cases hidx : s.items[idx]? <;> by_cases ht : t = sym <;> simp_all

/-- The items that wait for the next word lead to the stages that the next position begins with. -/
theorem map_stage_waitingItems {D : Nat → Multiset Stage} (h : Tallied c v ids goal chart.steps D)
    {sym : Sym} (hsym : sym = v chart.position) :
    (((chart.waitingItems sym).map c.pastWord : List Item) : Multiset Item).map
      (Item.stage c chart.facts) = (c.setting v ids goal).moved D (chart.position + 1) := by
  rw [Setting.moved, ← h.awaiting _ _ chart.getElem?_position, Multiset.filter_map,
    Multiset.map_map, ← Multiset.map_coe, waitingItems, ← awaiting_filter, Multiset.map_map,
    Multiset.map_map, hsym]
  rfl

/-- The chart after one more token of the input. -/
theorem Faithful.feed (hwf : c.WellFormed) (h : chart.Faithful c v ids goal) {token : String}
    {next : Chart} (htoken : symbols.find? token = some (v chart.position))
    (hfeed : (chart.feed limit symbols token counters).1 = .ok (some next)) :
    next.Faithful c v ids goal ∧ next.position = chart.position + 1 := by
  cases hitems : chart.waitingItems? symbols token with
  | none =>
    rw [Chart.feed, hitems] at hfeed
    cases hfeed
  | some waiting =>
    obtain ⟨sym, idxs⟩ := waiting
    obtain ⟨hfind, rfl⟩ := waitingItems?_eq_some hitems
    have hsym : sym = v chart.position := Option.some.inj (hfind.symm.trans htoken)
    obtain ⟨last, hfinish, rfl⟩ := (feed_eq_ok_iff hitems).1 hfeed
    obtain ⟨hbegin, hhistory, hfacts, hagenda⟩ := h.built.faithful_begun h.licensed hsym counters
    obtain ⟨D, htallied⟩ := h.tallied
    have hfirst := map_stage_waitingItems htallied hsym
    have hconcrete := h.built.concrete
    subst hconcrete
    generalize chart.begun sym counters = b at hfinish hbegin hhistory hfacts hagenda
    have hindex : b.index = chart.position + 1 := by
      rw [Building.index, hhistory]
      exact Array.size_push ..
    have hshows : ∀ i ∈ (((chart.waitingItems sym).map chart.concrete.pastWord : List Item) :
        Multiset Item), ∃ σ, i.Shows chart.concrete b.facts σ := by
      intro i hi
      rw [← hagenda, Multiset.mem_coe] at hi
      obtain ⟨σ, hσ, -⟩ := hbegin.licensed.agenda i hi
      exact ⟨σ, hσ⟩
    have hfaithful := faithful_of_finish hwf hbegin hshows (hhistory ▸ h.built.sound)
      (hhistory ▸ h.licensed) (hhistory ▸ h.distinct) (hhistory ▸ h.tidy) (hhistory ▸ htallied)
      (by rw [hindex, hfacts]; exact hfirst) hfinish
    rw [hhistory] at hfaithful
    exact ⟨hfaithful, by simp [position, steps]⟩

end Chart

end Polyglot
