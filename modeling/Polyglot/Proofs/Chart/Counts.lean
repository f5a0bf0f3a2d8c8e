import Polyglot.Proofs.Chart.Places

/-!
# How often a stage comes up in a chart

The accounts of a step that is finished are sums over its places. These stand for what is predicted
and complete at its position, each once, so that the same sums say how often a stage is due there.
There is only one way to count like this, and so the items of a chart show each stage as often as
the setting wants it.

- `Tallied`: the items of each step show each stage as often as is counted.
- `Building.map_sketch_productions`, `map_starts`, `map_resumes`: the sums of the accounts, with
  references forgotten.
- `Building.eq_due`: what has been processed in a step is what was due.
- `Building.tallied`: one more step is tallied when it is finished.
-/

namespace Polyglot

variable {c : Concrete} {v : Nat → Sym} {ids : List InstanceId} {goal k : Nat} {F F' : Fact → Prop}
  {X : CatRef} {l : Lineage} {q : ChartProduction} {s : Sketch} {i : Item} {σ : Stage}

/-! ## Sums over places -/

theorem sum_range_eq_finsum {α β : Type} {n : Nat} {e : Fin n → α}
    (he : Function.Injective e) {P : Set α} (hP : Set.range e = P) {g : Nat → Multiset β}
    {h : α → Multiset β} (hgh : ∀ i : Fin n, g i = h (e i)) :
    ∑ i ∈ Finset.range n, g i = ∑ᶠ a ∈ P, h a := by
  rw [← hP, finsum_mem_range he, finsum_eq_sum_of_fintype, Finset.sum_range]
  exact Finset.sum_congr rfl fun i _ => hgh i

theorem finsum_mem_singleton_of_nodup {α : Type} {as : List α} (h : as.Nodup) :
    ∑ᶠ a ∈ {a | a ∈ as}, ({a} : Multiset α) = as := by
  classical
  have hset : {a | a ∈ as} = (as.toFinset : Set α) := by ext a; simp
  rw [hset, finsum_mem_coe_finset, Finset.sum_multiset_singleton, List.toFinset_val, h.dedup]

/-! ## A step that is finished -/

/-- The items that wait for what an item set predicts. -/
def waitingAt (steps : Array Step) (S : ItemSetRef) : List Item :=
  (((steps[S.step]?).bind (·.itemSets[S.idx]?)).map ItemSet.waiting).getD [] |>.filterMap fun r =>
    (steps[r.step]?).bind (·.items[r.idx]?)

/-- The steps of a chart have each stage as often as is counted. -/
structure Tallied (c : Concrete) (v : Nat → Sym) (ids : List InstanceId) (goal : Nat)
    (steps : Array Step) (D : Nat → Multiset Stage) : Prop where
  tallies : (c.setting v ids goal).Tallies steps.size D
  waiting : ∀ S X f top l, chartFacts steps (.predicts S X f top) → Names (chartFacts steps) X l →
    (waitingAt steps S : Multiset Item).map (Item.stage c (chartFacts steps)) =
      (D S.step).filter fun σ => (c.setting v ids goal).asked? σ = some (l, f)
  awaiting : ∀ k s, steps[k]? = some s →
    s.awaiting.map (fun e => (e.1, (c.pastWord e.2).stage c (chartFacts steps))) =
      (D k).bind fun σ => ((c.setting v ids goal).awaits σ : Multiset (Sym × Stage))

/-- What waits for a prediction is a stored item that asks for it. -/
theorem exists_of_mem_waitingAt {steps : Array Step} (hF : Sound c v ids goal (chartFacts steps))
    {S : ItemSetRef} {f : Nat} {top : Bool} (hset : chartFacts steps (.predicts S X f top))
    (hi : i ∈ waitingAt steps S) :
    ∃ r, chartFacts steps (.item r i) ∧ c.asked? i = some (X, f) := by
  obtain ⟨k, s, hs, rfl, set, hidx, rfl, rfl, -⟩ := id hset
  rw [waitingAt, hs, Option.bind_some, hidx] at hi
  obtain ⟨r, hr, hitem⟩ := List.mem_filterMap.1 hi
  obtain ⟨s', hs', hitem⟩ := Option.bind_eq_some_iff.1 hitem
  obtain ⟨-, X', f', top', i', arg, hset', hitem', hx, harg⟩ :=
    hF.grounded (.waits S r) ⟨_, s, hs, rfl, set, hidx, hr⟩
  obtain rfl := hF.functional.item _ _ _ ⟨_, s', hs', rfl, hitem⟩ hitem'
  obtain ⟨rfl, rfl, -⟩ := hF.functional.predicts _ _ _ _ _ _ _ hset hset'
  exact ⟨r, hitem', (Concrete.asks_of_sub hx harg).1⟩

namespace Building

variable {b : Building} {first log : Multiset Item} {D : Nat → Multiset Stage}

theorem waitingItems_eq (b : Building) (S : ItemSetRef) :
    b.waitingItems S = waitingAt (b.history.push b.step) S := by
  have hitem : b.item? = fun r => ((b.history.push b.step)[r.step]?).bind (·.items[r.idx]?) := by
    funext r
    rw [item?, step?_eq]
  rw [waitingItems, waitingAt, itemSet?, step?_eq, hitem]

/-- What a category offers in a chart is what it offers. -/
theorem map_sketch_productions (h : Settled c v ids goal b.index b.facts) (hc : b.concrete = c)
    (hdistinct : ∀ s ∈ b.history.push b.step, s.Distinct) (hX : Names b.facts X l) :
    (b.productions X : Multiset ChartProduction).map (ChartProduction.sketch b.facts) =
      (c.setting v ids goal).offers l := by
  have hF := h.sound
  cases X with
  | grammar id =>
    obtain rfl := hX.unique hF.functional (names_grammar _ id)
    rw [Setting.offers, if_pos rfl, productions, hc, ← Concrete.productionsOf, Multiset.map_coe,
      List.map_map]
    refine congrArg _ (List.map_congr_left fun p _ => ?_)
    exact (ChartProduction.shows_ofGrammar _ p).sketch_eq hF.functional
  | chart C =>
    obtain ⟨cat, hcat⟩ : ∃ cat, b.category? C = some cat :=
      Option.isSome_iff_exists.1 (category?_of_chain hX)
    obtain ⟨step, hs, hidx⟩ := category?_iff.1 hcat
    have hle : C.step ≤ b.index := by
      have hlt := (Array.getElem?_eq_some_iff.1 hs).1
      rw [Array.size_push] at hlt
      exact Nat.le_of_lt_succ hlt
    have hnodup : (cat.productions.map (ChartProduction.sketch b.facts)).Nodup :=
      h.nodup_sketches hs hidx (hdistinct step (Array.mem_of_getElem? hs))
    obtain ⟨S, Y, f, n, l₀, -, -, hl⟩ := hX.exists_closes
    have hspans : l.spans ≠ [] := by simp [hl]
    have hset : {s | ∃ k, (c.setting v ids goal).Produced k l s} =
        {s | s ∈ cat.productions.map (ChartProduction.sketch b.facts)} := by
      refine Set.ext fun s => ⟨?_, fun hmem => ⟨_, (h.mem_sketches_iff hs hidx hle hX).1 hmem⟩⟩
      rintro ⟨k, hproduced⟩
      -- It was produced where the last field of the category ends.
      have hk : k = C.step := by
        obtain ⟨τ, -, -, rfl, -⟩ := hproduced
        have hspans := congrArg Lineage.spans hl
        exact congrArg Span.stop (List.cons.inj (List.append_inj' hspans rfl).2).1
      exact (h.mem_sketches_iff hs hidx hle hX).2 (hk ▸ hproduced)
    rw [Setting.offers, if_neg hspans, hset, finsum_mem_singleton_of_nodup hnodup, productions,
      hcat]
    rfl

/-- What a category offers can be started. -/
theorem exists_shows_of_mem_productions
    (hL : ∀ φ, b.facts φ → Polyglot.Licensed c v ids goal b.facts φ) {q : ChartProduction}
    (hq : q ∈ b.productions X) : ∃ s, q.Shows b.facts s := by
  have hoffers := mem_productions_iff.1 hq
  cases X with
  | grammar id =>
    obtain ⟨p, -, rfl⟩ := hoffers
    exact ⟨_, ChartProduction.shows_ofGrammar _ p⟩
  | chart C =>
    obtain ⟨-, s, -, hs, -⟩ := (hL _ hoffers).exists_produced
    exact ⟨s, hs⟩

theorem getElem?_push_step (b : Building) : (b.history.push b.step)[b.index]? = some b.step := by
  simp [index]

/-- What is started for predictions. -/
theorem map_starts (h : Settled c v ids goal b.index b.facts) (hc : b.concrete = c)
    (hdistinct : ∀ s ∈ b.history.push b.step, s.Distinct) :
    b.starts.map (Item.stage c b.facts) =
      ∑ᶠ x ∈ (c.setting v ids goal).predictions b.index,
        (c.setting v ids goal).starts b.index x.1 x.2 := by
  have hF := h.sound
  have hplace := b.getElem?_push_step
  rw [starts, ← Multiset.coe_mapAddMonoidHom, map_sum]
  refine sum_range_eq_finsum (prediction_injective hplace hF h.licensed)
    (range_prediction hplace h (Nat.le_refl _)) fun i => ?_
  have hX := names_prediction hplace h.licensed i
  rw [startsOf, Array.getElem?_eq_getElem i.isLt]
  dsimp only
  rw [Multiset.coe_mapAddMonoidHom, Setting.starts,
    ← map_sketch_productions h hc hdistinct hX, Multiset.map_map, Multiset.map_map]
  refine Multiset.map_congr rfl fun q hq => ?_
  obtain ⟨s, hs⟩ := exists_shows_of_mem_productions h.licensed (Multiset.mem_coe.1 hq)
  have hshows := Item.shows_start (c := c) (predicts_at hplace i) hX hs
  refine (hshows.stage_eq hF.functional).trans ?_
  rw [Function.comp_apply, hs.sketch_eq hF.functional]
  rfl

/-- What goes on with complete categories. -/
theorem map_resumes (h : Settled c v ids goal b.index b.facts) (hc : b.concrete = c)
    (hwaiting : ∀ S X f top l, b.facts (.predicts S X f top) → Names b.facts X l →
      (b.waitingItems S : Multiset Item).map (Item.stage c b.facts) =
        (D S.step).filter fun σ => (c.setting v ids goal).asked? σ = some (l, f)) :
    b.resumes.map (Item.stage c b.facts) =
      ∑ᶠ y ∈ (c.setting v ids goal).completions b.index,
        (c.setting v ids goal).resumes D b.index y.1 y.2.1 y.2.2 := by
  have hF := h.sound
  have hplace := b.getElem?_push_step
  rw [resumes, ← Multiset.coe_mapAddMonoidHom, map_sum]
  refine sum_range_eq_finsum (completion_injective hplace hF h.licensed)
    (range_completion hplace h (Nat.le_refl _)) fun j => ?_
  have hdone := closes_at hplace j
  have hX := names_completion hplace hF h.licensed j
  have hC : Names b.facts (.chart ⟨b.index, j⟩) ⟨_, _⟩ := Chain.chart hdone hX
  obtain ⟨-, ⟨top, hset⟩, -⟩ := hF.grounded _ hdone
  refine Eq.trans ?_ (congrArg (Multiset.map ((c.setting v ids goal).resumed _))
    (hwaiting _ _ _ _ _ hset hX))
  rw [resumesOf, Array.getElem?_eq_getElem j.isLt]
  dsimp only
  rw [Multiset.coe_mapAddMonoidHom, Multiset.map_map, Multiset.map_map]
  refine Multiset.map_congr rfl fun i hi => ?_
  rw [Multiset.mem_coe, waitingItems_eq] at hi
  obtain ⟨r, hitem, hask⟩ := exists_of_mem_waitingAt hF hset hi
  obtain ⟨σ, hσ, -⟩ := h.licensed _ hitem
  rw [Function.comp_apply, Function.comp_apply, hσ.stage_eq hF.functional, hc]
  exact (hσ.resumed hask hC).stage_eq hF.functional

/-! ### One more step -/

section Push

variable (h : Settled c v ids goal b.index b.facts)
include h

/-- The items that were processed ask for what their stages ask for. -/
theorem filter_asked (hlog : ∀ i ∈ log, ∃ σ, i.Shows c b.facts σ) (hX : Names b.facts X l)
    (f : Nat) : (log.filter fun i => c.asked? i = some (X, f)).map (Item.stage c b.facts) =
      (log.map (Item.stage c b.facts)).filter fun σ =>
        (c.setting v ids goal).asked? σ = some (l, f) := by
  rw [Multiset.filter_map]
  refine congrArg _ (Multiset.filter_congr fun i hi => ?_)
  obtain ⟨σ, hσ⟩ := hlog i hi
  rw [Function.comp_apply, hσ.stage_eq h.sound.functional]
  exact hσ.asked?_iff h.sound hX

variable (hlog : ∀ i ∈ log, ∃ σ, i.Shows c b.facts σ)
include hlog

/-- They wait for the words that their stages wait for. -/
theorem bind_awaits : (log.bind fun i => (c.awaits i : Multiset (Sym × Item))).map
      (fun e => (e.1, (c.pastWord e.2).stage c b.facts)) =
    (log.map (Item.stage c b.facts)).bind fun σ =>
      ((c.setting v ids goal).awaits σ : Multiset (Sym × Stage)) := by
  rw [Multiset.map_bind, Multiset.bind_map]
  refine Multiset.bind_congr fun i hi => ?_
  obtain ⟨σ, hσ⟩ := hlog i hi
  rw [hσ.stage_eq h.sound.functional]
  exact hσ.awaits h.sound.functional

/-- They skip what their stages skip. -/
theorem bind_skips : (log.bind c.skips).map (Item.stage c b.facts) =
    (log.map (Item.stage c b.facts)).bind (c.setting v ids goal).skips := by
  rw [Multiset.map_bind, Multiset.bind_map]
  refine Multiset.bind_congr fun i hi => ?_
  obtain ⟨σ, hσ⟩ := hlog i hi
  rw [hσ.stage_eq h.sound.functional]
  exact hσ.skips h.sound.functional

end Push

section History

variable (hF₀ : Sound c v ids goal (chartFacts b.history))
  (hL₀ : ∀ φ, chartFacts b.history φ → Polyglot.Licensed c v ids goal (chartFacts b.history) φ)

theorem facts_of_history {φ : Fact} (h : chartFacts b.history φ) : b.facts φ :=
  chartFacts_push.2 (.inl h)

include hF₀

/-- The items that wait for an earlier prediction were stored with it. -/
theorem waitingItems_of_history {S : ItemSetRef} {f : Nat} {top : Bool}
    (hset : chartFacts b.history (.predicts S X f top)) :
    b.waitingItems S = waitingAt b.history S := by
  obtain ⟨k, s, hs, rfl, set, hidx, -⟩ := hset
  have hlt : S.step < b.history.size := (Array.getElem?_eq_some_iff.1 hs).1
  have hold : ∀ {r : ItemRef}, r.step = S.step →
      (b.history.push b.step)[r.step]? = b.history[r.step]? := fun hr => by
    rw [Array.getElem?_push_lt (hr ▸ hlt), Array.getElem?_eq_getElem (hr ▸ hlt)]
  rw [waitingItems_eq, waitingAt, waitingAt, hold (r := ⟨S.step, 0⟩) rfl, hs, Option.bind_some,
    hidx]
  refine List.filterMap_congr fun r hr => ?_
  obtain ⟨hstep, -⟩ := hF₀.grounded (.waits S r) ⟨_, s, hs, rfl, set, hidx, hr⟩
  rw [hold hstep]

include hL₀

/-- Items of earlier steps stay at their stages. -/
theorem map_waitingItems {S : ItemSetRef} {f : Nat} {top : Bool}
    (hset : chartFacts b.history (.predicts S X f top)) :
    (b.waitingItems S : Multiset Item).map (Item.stage c b.facts) =
      (waitingAt b.history S : Multiset Item).map (Item.stage c (chartFacts b.history)) := by
  have hfun : Functional b.facts := chartFacts_functional _
  rw [waitingItems_of_history hF₀ hset]
  refine Multiset.map_congr rfl fun i hi => ?_
  obtain ⟨r, hitem, -⟩ := exists_of_mem_waitingAt hF₀ hset (Multiset.mem_coe.1 hi)
  obtain ⟨σ, hσ, -⟩ := hL₀ _ hitem
  rw [hσ.stage_eq hF₀.functional,
    (hσ.mono fun _ => facts_of_history).stage_eq hfun]

theorem map_awaiting {s : Step} (hs : b.history[k]? = some s) :
    s.awaiting.map (fun e => (e.1, (c.pastWord e.2).stage c b.facts)) =
      s.awaiting.map fun e => (e.1, (c.pastWord e.2).stage c (chartFacts b.history)) := by
  have hfun : Functional b.facts := chartFacts_functional _
  refine Multiset.map_congr rfl fun ⟨t, w⟩ hw => ?_
  obtain ⟨⟨t', idx⟩, hmem, heq⟩ := List.mem_filterMap.1 (Multiset.mem_coe.1 hw)
  obtain ⟨w', hw', heq⟩ := Option.map_eq_some_iff.1 heq
  cases heq
  have hitem : chartFacts b.history (.item ⟨k, idx⟩ w) := ⟨k, s, hs, rfl, hw'⟩
  obtain ⟨w', x, ts, hitem', hx, hform, -⟩ :=
    hF₀.grounded (.awaits k t idx) ⟨k, s, hs, rfl, hmem⟩
  obtain rfl := hF₀.functional.item _ _ _ hitem hitem'
  obtain ⟨σ, hσ, -⟩ := hL₀ _ hitem
  rw [hσ.stage_pastWord hF₀.functional hx hform,
    (hσ.mono fun _ => facts_of_history).stage_pastWord hfun hx hform]

end History

/-- The accounts of a step that is finished are the sums of the setting. -/
theorem eq_due (h : Settled c v ids goal b.index b.facts) (hc : b.concrete = c)
    (hdistinct : ∀ s ∈ b.history.push b.step, s.Distinct) (hledger : b.Ledger c first log)
    (hagenda : b.agenda = []) (hlog : ∀ i ∈ log, ∃ σ, i.Shows c b.facts σ)
    (hfirst : first.map (Item.stage c b.facts) = (c.setting v ids goal).moved D b.index)
    (hwaiting : ∀ S X f top l, b.facts (.predicts S X f top) → Names b.facts X l →
      (b.waitingItems S : Multiset Item).map (Item.stage c b.facts) =
        (D S.step).filter fun σ => (c.setting v ids goal).asked? σ = some (l, f))
    (hlast : D b.index = log.map (Item.stage c b.facts)) :
    D b.index = (c.setting v ids goal).due D b.index := by
  have hbalance := hledger.balance
  rw [hagenda, Multiset.coe_nil, zero_add] at hbalance
  rw [Setting.due, ← hfirst, ← map_starts h hc hdistinct, ← map_resumes h hc hwaiting, hlast,
    ← bind_skips h hlog, ← Multiset.map_add, ← Multiset.map_add, ← Multiset.map_add, ← hbalance]

/-- **A step that is finished is counted right**, if the steps before it are and if it began with
the stages that they lead to. -/
theorem tallied (h : Settled c v ids goal b.index b.facts) (hc : b.concrete = c)
    (hdistinct : ∀ s ∈ b.history.push b.step, s.Distinct)
    (hF₀ : Sound c v ids goal (chartFacts b.history))
    (hL₀ : ∀ φ, chartFacts b.history φ → Polyglot.Licensed c v ids goal (chartFacts b.history) φ)
    (hbefore : Tallied c v ids goal b.history D) (hledger : b.Ledger c first log)
    (hagenda : b.agenda = []) (hlog : ∀ i ∈ log, ∃ σ, i.Shows c b.facts σ)
    (hfirst : first.map (Item.stage c b.facts) = (c.setting v ids goal).moved D b.index) :
    Tallied c v ids goal (b.history.push b.step)
      (Function.update D b.index (log.map (Item.stage c b.facts))) := by
  have hF := h.sound
  have hold : ∀ j < b.index,
      D j = Function.update D b.index (log.map (Item.stage c b.facts)) j := fun j hj =>
    (Function.update_of_ne (Nat.ne_of_lt hj) ..).symm
  have hnew : Function.update D b.index (log.map (Item.stage c b.facts)) b.index =
      log.map (Item.stage c b.facts) := Function.update_self ..
  generalize Function.update D b.index (log.map (Item.stage c b.facts)) = D' at hold hnew
  have hwaiting : ∀ S X f top l, b.facts (.predicts S X f top) → Names b.facts X l →
      (b.waitingItems S : Multiset Item).map (Item.stage c b.facts) =
        (D' S.step).filter fun σ => (c.setting v ids goal).asked? σ = some (l, f) := by
    intro S X f top l hset hX
    rcases chartFacts_push.1 hset with hset₀ | hsays
    · obtain ⟨l₀, hX₀, -⟩ := hL₀ _ hset₀
      obtain rfl := hX.unique hF.functional (hX₀.mono fun _ => facts_of_history)
      rw [map_waitingItems hF₀ hL₀ hset₀, hbefore.waiting S X f top l hset₀ hX₀,
        hold S.step (step_lt_of_chartFacts hset₀)]
    · obtain ⟨hstep, set, hidx, rfl, rfl, -⟩ := hsays
      obtain ⟨step, idx⟩ := S
      obtain rfl : step = b.index := hstep
      rw [hledger.waiting idx set hidx, filter_asked h hlog hX, hnew]
  have hfacts : chartFacts (b.history.push b.step) = b.facts := rfl
  have htallies : (c.setting v ids goal).Tallies b.index D' := hbefore.tallies.congr hold
  have hsize : ∀ {k}, k < (b.history.push b.step).size → k < b.index ∨ k = b.index := fun hk => by
    rw [Array.size_push] at hk
    exact Nat.lt_or_eq_of_le (Nat.le_of_lt_succ hk)
  refine ⟨⟨fun k hk => ?_, fun k hk => ?_⟩, fun S X f top l hset hX => ?_, fun k s hs => ?_⟩
  · rcases hsize hk with hlt | rfl
    · exact htallies.finite k hlt
    · rw [← range_completion b.getElem?_push_step h (Nat.le_refl _)]
      exact Set.finite_range _
  · rcases hsize hk with hlt | rfl
    · exact htallies.eq_due k hlt
    · rw [Setting.moved_congr hold] at hfirst
      exact eq_due h hc hdistinct hledger hagenda hlog hfirst hwaiting hnew
  · rw [← waitingItems_eq]
    exact hwaiting S X f top l hset hX
  · rw [hfacts]
    rw [Array.getElem?_push] at hs
    split at hs
    · rename_i hk
      cases hs
      rw [hledger.awaiting, bind_awaits h hlog, hk, ← index, hnew]
    · have hlt := (Array.getElem?_eq_some_iff.1 hs).1
      rw [map_awaiting hF₀ hL₀ hs, hbefore.awaiting k s hs, hold k hlt]

end Building

end Polyglot
