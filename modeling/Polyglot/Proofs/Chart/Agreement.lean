import Polyglot.Proofs.Chart.Answers
import Polyglot.Proofs.Chart.Bounded

/-!
# Charts of one setting agree

Two charts that are faithful to one setting have been filled in some order each, so their places
have nothing to do with each other. But each category of the one has a twin in the other, with the
same lineage, and twins of its productions; and what waits for a token shows the same stages, each
as often. So all that a caller gets to see is the same.

- `Twins`: categories of two charts with the same lineage. `Chart.Faithful.exists_twin`: each
  category has one.
- `Chart.Faithful.unfolding`: twins unfold to the same trees.
- `Chart.Faithful.perm_transitions`: the same is waited for.
- `Chart.Agrees`, `Chart.Faithful.agrees`: the charts agree.
-/

namespace Polyglot

variable {c : Concrete} {v : Nat → Sym} {ids : List InstanceId} {goal k : Nat}

namespace Chart

variable {chart : Chart} {symbols : SymbolStore}

/-! ## What waits for a token -/

/-- Whatever waits for a token has been stored. -/
theorem Built.map_fst_awaiting (h : Built c v ids goal chart) :
    chart.last.awaiting.map Prod.fst =
      (chart.last.transitions.map Prod.fst : List Sym) := by
  rw [Step.awaiting, Multiset.map_coe, List.map_filterMap]
  refine congrArg _ ?_
  rw [← List.filterMap_eq_map]
  refine List.filterMap_congr fun e hmem => ?_
  obtain ⟨t, idx⟩ := e
  obtain ⟨i, -, -, hitem, -⟩ := h.sound.grounded (.awaits chart.position t idx)
    ⟨chart.position, chart.last, chart.getElem?_position, rfl, hmem⟩
  obtain ⟨k, s, hs, rfl, hi⟩ := hitem
  cases chart.getElem?_position.symm.trans hs
  simp only [hi]
  rfl

theorem length_waitingFor (s : Step) (sym : Sym) :
    (s.waitingFor sym).length = (s.transitions.map Prod.fst).count sym := by
  rw [Step.waitingFor, List.length_map, ← List.countP_eq_length_filter, List.count, List.countP_map]
  rfl

theorem waiting_eq (token : String) : chart.waiting symbols token =
    ((symbols.find? token).map (chart.last.transitions.map Prod.fst).count).getD 0 := by
  rw [waiting, waitingItems?]
  cases symbols.find? token with
  | none => rfl
  | some sym =>
    rw [Option.bind_some, Option.map_some, Option.getD_some, ← length_waitingFor]
    cases hwaiting : chart.last.waitingFor sym with
    | nil => rfl
    | cons idx idxs => rfl

theorem mergeSort_eq_of_perm {l l' : List String} (h : l.Perm l') :
    l.mergeSort (fun a b => a ≤ b) = l'.mergeSort fun a b => a ≤ b := by
  have hsorted : ∀ l : List String, (l.mergeSort fun a b => a ≤ b).Pairwise (· ≤ ·) := fun l => by
    simpa using @List.pairwise_mergeSort String (fun a b => decide (a ≤ b))
      (by simpa using fun a b c => le_trans) (by simpa using le_total) l
  exact (((List.mergeSort_perm l _).trans h).trans (List.mergeSort_perm l' _).symm).eq_of_pairwise'
    (hsorted l) (hsorted l')

/-- Tokens in another order are the same ones when they are sorted. -/
theorem expectedTokens_congr {chart' : Chart}
    (h : (chart'.last.transitions.map Prod.fst).Perm (chart.last.transitions.map Prod.fst)) :
    chart'.expectedTokens symbols = chart.expectedTokens symbols := by
  have hperm : (chart'.last.transitions.map Prod.fst).eraseDups.Perm
      (chart.last.transitions.map Prod.fst).eraseDups :=
    (List.perm_ext_iff_of_nodup (nodup_eraseDups _) (nodup_eraseDups _)).2 fun t => by
      rw [List.mem_eraseDups, List.mem_eraseDups, h.mem_iff]
  exact mergeSort_eq_of_perm (hperm.filterMap _)

/-! ## What spans the input -/

/-- What spans the input up to a position is an instance that was a goal, with one field read of
it. -/
theorem Built.spans_iff_names (h : Built c v ids goal chart) {C : ChartCatId} :
    chart.facts (.spans k C) ↔ ∃ id ∈ ids, Names chart.facts (.chart C) ⟨id, [⟨goal, 0, k⟩]⟩ := by
  constructor
  · intro hC
    obtain ⟨rfl, S, X, f, n, hdone, hset⟩ := h.sound.grounded _ hC
    obtain ⟨hS, rfl, id, hid, rfl⟩ := (h.sound.grounded _ hset).2.2 rfl
    have hchain := Chain.chart hdone (.grammar id)
    rw [hS] at hchain
    exact ⟨id, hid, hchain⟩
  · rintro ⟨id, hid, hchain⟩
    obtain ⟨S, X, f, n, l₀, hdone, hX, heq⟩ := hchain.exists_closes
    obtain ⟨rfl, hspans⟩ := Lineage.mk.inj heq
    obtain ⟨hnil, hlast⟩ := @List.append_inj' Span [] _ _ _ hspans rfl
    obtain ⟨rfl, hS, rfl⟩ := Span.mk.inj (List.cons.inj hlast).1
    -- Nothing was read of it before, so it is the goal itself.
    rw [Names, ← hnil] at hX
    obtain rfl := h.sound.eq_of_chain hX (.grammar _)
    obtain ⟨-, ⟨top, hset⟩, -⟩ := h.sound.grounded _ hdone
    obtain ⟨S', hset'⟩ := h.goals _ hid
    have hS' : S'.step = 0 := ((h.sound.grounded _ hset').2.2 rfl).1
    obtain rfl := h.sound.predicts_once _ _ _ _ _ _ hset hset' (hS.symm.trans hS'.symm)
    exact h.sound.spans _ _ _ _ _ hdone hset'

end Chart

/-! ## Two charts -/

/-- Categories of two charts with the same lineage. -/
def Twins (F F' : Fact → Prop) (X X' : CatRef) : Prop := ∃ l, Names F X l ∧ Names F' X' l

/-- They are completed at the same position. -/
theorem Twins.step_eq {F F' : Fact → Prop} {C C' : ChartCatId}
    (h : Twins F F' (.chart C) (.chart C')) : C'.step = C.step := by
  obtain ⟨l, hl, hl'⟩ := h
  obtain ⟨S, X, f, n, l₀, -, -, heq⟩ := hl.exists_closes
  obtain ⟨S', X', f', n', l₁, -, -, heq'⟩ := hl'.exists_closes
  have hspans := congrArg Lineage.spans (heq'.symm.trans heq)
  exact congrArg Span.stop (List.cons.inj (List.append_inj' hspans rfl).2).1

/-- Productions of two charts with the same sketch. -/
theorem ChartProduction.Shows.twins {F F' : Fact → Prop} {q q' : ChartProduction} {s : Sketch}
    (h : q.Shows F s) (h' : q'.Shows F' s) :
    q'.head = q.head ∧ List.Forall₂ (Twins F F') q.args q'.args := by
  refine ⟨h'.head.trans h.head.symm, forall₂_of_getElem?
    (h.args.length_eq.trans h'.args.length_eq.symm) fun arg X X' hX hX' => ?_⟩
  obtain ⟨l, hl, hnames⟩ := h.exists_names hX
  obtain ⟨l', hl', hnames'⟩ := h'.exists_names hX'
  cases hl.symm.trans hl'
  exact ⟨l, hnames, hnames'⟩

namespace Chart

variable {chart chart' : Chart} {c' : Concrete} {ids' : List InstanceId} {symbols : SymbolStore}

/-- Two charts say the same about what has been read. -/
structure Agrees (symbols : SymbolStore) (chart chart' : Chart) : Prop where
  isComplete : chart'.isComplete = chart.isComplete
  expectedTokens : chart'.expectedTokens symbols = chart.expectedTokens symbols
  waiting : ∀ token, chart'.waiting symbols token = chart.waiting symbols token
  sizes : chart'.steps.toList.map (·.cats.size) = chart.steps.toList.map (·.cats.size)
  trees : ∀ e, e ∈ chart'.trees ↔ e ∈ chart.trees
  /-- They are as wide as each other. -/
  within : ∀ limit, chart'.Within limit ↔ chart.Within limit
  /-- If a record of decisions can hold all of their decisions, then the same trees are found. -/
  found : chart.Within Choice.maxAlternatives →
    (Readings.found chart').Perm (Readings.found chart)

section Two

variable (h : chart.Faithful c v ids goal) (h' : chart'.Faithful c' v ids' goal)
  (hsetting : c'.setting v ids' goal = c.setting v ids goal)
  (hposition : chart'.position = chart.position)
include h h' hsetting hposition

/-- A category has a twin in another chart of the setting, with twins of its productions. -/
theorem Faithful.exists_twin {C : ChartCatId} {q : ChartProduction}
    (hq : chart.facts (.produces C q)) :
    ∃ C' q', Twins chart.facts chart'.facts (.chart C) (.chart C') ∧
      chart'.facts (.produces C' q') ∧ q'.head = q.head ∧
      List.Forall₂ (Twins chart.facts chart'.facts) q.args q'.args := by
  obtain ⟨l, s, hl, hs, hproduced⟩ := (h.licensed _ hq).exists_produced
  have hle : C.step ≤ chart'.position := hposition ▸ step_le_position hq
  obtain ⟨C', q', hq', -, hl', hs'⟩ := (h'.settled.produces_iff hle).2 (hsetting ▸ hproduced)
  exact ⟨C', q', ⟨l, hl, hl'⟩, hq', hs.twins hs'⟩

/-- What a category unfolds to its twin unfolds to as well. -/
theorem Faithful.unfolding (hfun : c'.function? = c.function?) {path path' : List ChartCatId}
    {X X' : CatRef} {e : Expr} (hu : chart.Unfolding path X e)
    (hpath : ∀ C' ∈ path', ∃ C ∈ path, Twins chart.facts chart'.facts (.chart C) (.chart C'))
    (hX : Twins chart.facts chart'.facts X X') : chart'.Unfolding path' X' e := by
  have hF := h.built.sound
  have hF' := h'.built.sound
  -- A category has one twin only.
  have hone : ∀ {X Y X'}, Twins chart.facts chart'.facts X X' →
      Twins chart.facts chart'.facts Y X' → X = Y := by
    rintro X Y X' ⟨l, hl, hl'⟩ ⟨m, hm, hm'⟩
    obtain rfl := hl'.unique hF'.functional hm'
    exact hF.eq_of_chain hl hm
  have hone' : ∀ {X X' Y'}, Twins chart.facts chart'.facts X X' →
      Twins chart.facts chart'.facts X Y' → X' = Y' := by
    rintro X X' Y' ⟨l, hl, hl'⟩ ⟨m, hm, hm'⟩
    obtain rfl := hl.unique hF.functional hm
    exact hF'.eq_of_chain hl' hm'
  have hnew : ∀ {path path' : List ChartCatId} {C C' : ChartCatId},
      (∀ C' ∈ path', ∃ C ∈ path, Twins chart.facts chart'.facts (.chart C) (.chart C')) →
      C ∉ path → Twins chart.facts chart'.facts (.chart C) (.chart C') → C' ∉ path' := by
    intro path path' C C' hpath hC htwins hC'
    obtain ⟨D, hD, htwins'⟩ := hpath C' hC'
    exact hC (CatRef.chart.inj (hone htwins htwins') ▸ hD)
  have hcons : ∀ {path path' : List ChartCatId} {C C' : ChartCatId},
      (∀ C' ∈ path', ∃ C ∈ path, Twins chart.facts chart'.facts (.chart C) (.chart C')) →
      Twins chart.facts chart'.facts (.chart C) (.chart C') → ∀ D' ∈ C' :: path',
        ∃ D ∈ C :: path, Twins chart.facts chart'.facts (.chart D) (.chart D') := by
    intro path path' C C' hpath htwins D' hD'
    rcases List.mem_cons.1 hD' with rfl | hD'
    · exact ⟨C, List.mem_cons_self, htwins⟩
    · obtain ⟨D, hD, htwins'⟩ := hpath D' hD'
      exact ⟨D, List.mem_cons_of_mem _ hD, htwins'⟩
  induction hu generalizing path' X' with
  | unread path id =>
    obtain rfl := hone' hX ⟨_, names_grammar _ id, names_grammar _ id⟩
    exact .unread path' id
  | @coerce path C cat inner e hC hcat hproduction _ ih =>
    obtain ⟨C', q', htwins, hq', hhead, hargs⟩ :=
      h.exists_twin h' hsetting hposition (produces_iff.2 ⟨cat, hcat, hproduction⟩)
    obtain rfl := hone' hX htwins
    obtain ⟨cat', hcat', hproduction'⟩ := produces_iff.1 hq'
    cases q' with
    | apply fn args => cases hhead
    | coerce inner' =>
      cases hargs with
      | cons hinner _ =>
        exact .coerce (hnew hpath hC htwins) hcat' hproduction' (ih (hcons hpath htwins) hinner)
  | @apply path C cat fn args f es hC hcat hproduction hfn hlength _ ih =>
    obtain ⟨C', q', htwins, hq', hhead, hargs⟩ :=
      h.exists_twin h' hsetting hposition (produces_iff.2 ⟨cat, hcat, hproduction⟩)
    obtain rfl := hone' hX htwins
    obtain ⟨cat', hcat', hproduction'⟩ := produces_iff.1 hq'
    cases q' with
    | coerce inner => cases hhead
    | apply fn' args' =>
      cases hhead
      have hfn' : chart'.concrete.function? fn = some f := by
        rw [h'.built.concrete, hfun, ← h.built.concrete, hfn]
      refine .apply (hnew hpath hC htwins) hcat' hproduction' hfn'
        (hargs.length_eq.symm.trans hlength) fun i arg' e harg' he => ?_
      have hi : i < args.length := hlength ▸ (List.getElem?_eq_some_iff.1 he).1
      have harg := List.getElem?_eq_getElem hi
      exact ih i _ e harg he (hcons hpath htwins) (rel_of_forall₂ hargs harg harg')

/-- What spans the input up to a position has a twin that does so too. -/
theorem Faithful.exists_spans {C : ChartCatId} (hC : chart.facts (.spans k C)) :
    ∃ C', chart'.facts (.spans k C') ∧ Twins chart.facts chart'.facts (.chart C) (.chart C') := by
  obtain ⟨id, hid, hl⟩ := h.built.spans_iff_names.1 hC
  obtain ⟨S, X, f, n, -, hdone, -⟩ := hl.exists_closes
  obtain ⟨-, -, -, q, hq, -⟩ := h.built.sound.grounded _ hdone
  obtain ⟨C', q', ⟨l, hl₁, hl'⟩, -⟩ := h.exists_twin h' hsetting hposition hq
  obtain rfl := hl.unique h.built.sound.functional hl₁
  have hid' : id ∈ ids' := by
    have hgoals := congrArg Setting.goals hsetting
    exact (Set.ext_iff.1 hgoals id).2 hid
  exact ⟨C', h'.built.spans_iff_names.2 ⟨id, hid', hl'⟩, _, hl, hl'⟩

/-- What spans the input has a twin that does so too. -/
theorem Faithful.exists_completed {C : ChartCatId} (hC : C ∈ chart.completed) :
    ∃ C' ∈ chart'.completed, Twins chart.facts chart'.facts (.chart C) (.chart C') := by
  obtain ⟨C', hC', htwins⟩ := h.exists_spans h' hsetting hposition (spans_iff.2 hC)
  exact ⟨C', spans_iff.1 (hposition ▸ hC'), htwins⟩

/-- A chart of the setting is complete if another one is. -/
theorem Faithful.isComplete_of (hcomplete : chart.isComplete = true) :
    chart'.isComplete = true := by
  have hne : chart.completed ≠ [] := by simpa [isComplete] using hcomplete
  obtain ⟨C, hC⟩ := List.exists_mem_of_ne_nil _ hne
  obtain ⟨C', hC', -⟩ := h.exists_completed h' hsetting hposition hC
  have hne' : chart'.completed ≠ [] := List.ne_nil_of_mem hC'
  simpa [isComplete] using hne'

/-- All trees of a chart are trees of any other chart of the setting. -/
theorem Faithful.mem_trees (hfun : c'.function? = c.function?) {e : Expr} (he : e ∈ chart.trees) :
    e ∈ chart'.trees := by
  obtain ⟨C, hC, hu⟩ := mem_trees_iff.1 he
  obtain ⟨C', hC', htwins⟩ := h.exists_completed h' hsetting hposition hC
  exact mem_trees_iff.2 ⟨C', hC', h.unfolding h' hsetting hposition hfun hu (by simp) htwins⟩

/-- The same tokens are waited for, each as often. -/
theorem Faithful.perm_transitions :
    (chart'.last.transitions.map Prod.fst).Perm (chart.last.transitions.map Prod.fst) := by
  obtain ⟨D, hD⟩ := h.tallied
  obtain ⟨D', hD'⟩ := h'.tallied
  have hsize : chart'.steps.size = chart.steps.size := by
    simpa [steps, position] using hposition
  have heq : D' chart.position = D chart.position := by
    have htallies := hD'.tallies
    rw [hsetting, hsize] at htallies
    exact htallies.eq hD.tallies _ (by simp [steps, position])
  have hmap := congrArg (Multiset.map Prod.fst) (hD.awaiting _ _ chart.getElem?_position)
  have hmap' := congrArg (Multiset.map Prod.fst) (hD'.awaiting _ _ chart'.getElem?_position)
  rw [hsetting, hposition, heq, ← hmap, Multiset.map_map, Multiset.map_map] at hmap'
  refine Multiset.coe_eq_coe.1 ?_
  rw [← h.built.map_fst_awaiting, ← h'.built.map_fst_awaiting]
  exact hmap'

/-- Each position has as many categories. -/
theorem Faithful.size_cats : chart'.steps.toList.map (·.cats.size) =
    chart.steps.toList.map (·.cats.size) := by
  have hsize : chart'.steps.size = chart.steps.size := by
    simpa [steps, position] using hposition
  refine List.ext_getElem (by simpa using hsize) fun k hk hk' => ?_
  simp only [List.length_map, Array.length_toList] at hk hk'
  have hle : k ≤ chart.position := by
    simp only [steps, Array.size_push] at hk'
    exact Nat.le_of_lt_succ hk'
  have hs := Array.getElem?_eq_getElem hk'
  have hs' := Array.getElem?_eq_getElem hk
  simp only [List.getElem_map, Array.getElem_toList]
  rw [size_cats_eq hs h.settled hle, size_cats_eq hs' h'.settled (hposition ▸ hle), hsetting]

/-- Where a step completes a goal, the steps at this position of all charts of the setting do. -/
theorem Faithful.length_completed_le {s s' : Step} (hs : chart.steps[k]? = some s)
    (hs' : chart'.steps[k]? = some s') : s.completed.length ≤ s'.completed.length := by
  have hF := h.built.sound
  have hF' := h'.built.sound
  have hnames : ∀ C ∈ s.completed, Names chart.facts (.chart C) (CatRef.lineage chart.facts
      (.chart C)) := fun C hC => by
    obtain ⟨id, -, hl⟩ := h.built.spans_iff_names.1 ⟨k, s, hs, rfl, hC⟩
    exact hl.names_lineage
  have hnodup : (s.completed.map fun C => CatRef.lineage chart.facts (.chart C)).Nodup := by
    refine (h.tidy s (Array.mem_of_getElem? hs)).nodup.map_on fun C hC D hD heq => ?_
    exact CatRef.chart.inj (hF.eq_of_chain (hnames C hC) (heq ▸ hnames D hD))
  have hsubset : (s.completed.map fun C => CatRef.lineage chart.facts (.chart C)) ⊆
      s'.completed.map fun C => CatRef.lineage chart'.facts (.chart C) := by
    intro l hl
    obtain ⟨C, hC, rfl⟩ := List.mem_map.1 hl
    obtain ⟨C', ⟨k', s₁, hs₁, rfl, hC'⟩, l, hl, hl'⟩ :=
      h.exists_spans h' hsetting hposition ⟨k, s, hs, rfl, hC⟩
    cases hs'.symm.trans hs₁
    exact List.mem_map.2 ⟨C', hC', by
      rw [hl.lineage_eq hF.functional, hl'.lineage_eq hF'.functional]⟩
  simpa using (List.subperm_of_subset hnodup hsubset).length_le

/-- A category has a twin with as many productions. -/
theorem Faithful.exists_length_productions {s : Step} (hs : chart.steps[k]? = some s)
    {cat : ChartCat} (hcat : cat ∈ s.cats) {s' : Step} (hs' : chart'.steps[k]? = some s') :
    ∃ cat' ∈ s'.cats, cat'.productions.length = cat.productions.length := by
  obtain ⟨j, hj, rfl⟩ := Array.mem_iff_getElem.1 hcat
  obtain ⟨-, -, -, q, hq, -⟩ := h.built.sound.grounded _ (closes_at hs ⟨j, hj⟩)
  have hle : k ≤ chart.position := step_le_position hq
  obtain ⟨C', q', htwins, ⟨k', s₁, hs₁, rfl, cat', hcat', -⟩, -⟩ :=
    h.exists_twin h' hsetting hposition hq
  obtain rfl : C'.step = k := htwins.step_eq
  cases hs'.symm.trans hs₁
  obtain ⟨l, hl, hl'⟩ := htwins
  have hidx := Array.getElem?_eq_getElem hj
  have hnodup := h.settled.nodup_sketches (C := ⟨C'.step, j⟩) hs hidx
    (h.distinct s (Array.mem_of_getElem? hs))
  have hnodup' := h'.settled.nodup_sketches hs' hcat' (h'.distinct s' (Array.mem_of_getElem? hs'))
  have hperm := (List.perm_ext_iff_of_nodup hnodup' hnodup).2 fun x => by
    rw [h.settled.mem_sketches_iff (C := ⟨C'.step, j⟩) hs hidx hle hl,
      h'.settled.mem_sketches_iff hs' hcat' (hposition ▸ hle) hl', hsetting]
  exact ⟨cat', Array.mem_of_getElem? hcat', by simpa using hperm.length_eq⟩

/-- A chart is as wide as any other chart of the setting. -/
theorem Faithful.within {limit : Nat} (hwithin : chart.Within limit) : chart'.Within limit := by
  intro k s' hs'
  have hsize : chart'.steps.size = chart.steps.size := by
    simpa [steps, position] using hposition
  have hlt := hsize ▸ (Array.getElem?_eq_some_iff.1 hs').1
  have hs := Array.getElem?_eq_getElem hlt
  obtain ⟨hcompleted, hproductions⟩ := hwithin k _ hs
  refine ⟨(h'.length_completed_le h hsetting.symm hposition.symm hs' hs).trans hcompleted,
    fun cat' hcat' => ?_⟩
  obtain ⟨cat, hcat, hlength⟩ :=
    h'.exists_length_productions h hsetting.symm hposition.symm hs' hcat' hs
  exact hlength ▸ hproductions cat hcat

/-- **Two charts of one setting agree** on all that they say about what has been read, whatever
order they have been filled in. -/
theorem Faithful.agrees (hfun : c'.function? = c.function?) : Agrees symbols chart chart' := by
  have htrees : ∀ e, e ∈ chart'.trees ↔ e ∈ chart.trees := fun e =>
    ⟨h'.mem_trees h hsetting.symm hposition.symm hfun.symm,
      h.mem_trees h' hsetting hposition hfun⟩
  have hwithin : ∀ limit, chart'.Within limit ↔ chart.Within limit := fun limit =>
    ⟨h'.within h hsetting.symm hposition.symm, h.within h' hsetting hposition⟩
  have hperm := h.perm_transitions h' hsetting hposition
  refine ⟨?_, expectedTokens_congr hperm, fun token => ?_, h.size_cats h' hsetting hposition,
    htrees, hwithin, fun hw => ?_⟩
  · rw [Bool.eq_iff_iff]
    exact ⟨h'.isComplete_of h hsetting.symm hposition.symm,
      h.isComplete_of h' hsetting hposition⟩
  · rw [waiting_eq, waiting_eq]
    congr 2
    exact funext hperm.count_eq
  · rw [Readings.found_eq_trees hw, Readings.found_eq_trees ((hwithin _).2 hw)]
    refine (List.perm_ext_iff_of_nodup (nodup_eraseDups _) (nodup_eraseDups _)).2 fun e => ?_
    rw [List.mem_eraseDups, List.mem_eraseDups, htrees]

end Two

end Chart

end Polyglot
