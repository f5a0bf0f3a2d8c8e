import Polyglot.Proofs.Chart.Faithful

/-!
# Nothing waits twice

The items that wait in an item set have been stored for it, each of them at a place of its own. So
an item waits in one set, and once, whether it was the first to ask for what the set predicts or
joined it later.

- `Step.Queued`: the items that wait in a step are stored in it, and none waits twice.
- `Building.Still`: an operation that has nobody wait.
- `Building.queued_process`, `Building.queued_predictTop`: all others keep a step so.
-/

namespace Polyglot

/-- The items that wait in the sets of a step are stored there, and none waits twice in a set. -/
def Step.Queued (k : Nat) (s : Step) : Prop :=
  ∀ set ∈ s.itemSets, set.waiting.Nodup ∧ ∀ r ∈ set.waiting, r.step = k ∧ r.idx < s.items.size

namespace Building

variable {k : Nat} {b b' b'' : Building}

/-! ## What has nobody wait -/

/-- An operation leaves the item sets alone, and what is stored. -/
structure Still (b b' : Building) : Prop where
  itemSets : b'.step.itemSets = b.step.itemSets
  items : b.step.items.size ≤ b'.step.items.size

theorem Still.refl (b : Building) : Still b b := ⟨rfl, Nat.le_refl _⟩

theorem Still.trans (h : Still b b') (h' : Still b' b'') : Still b b'' :=
  ⟨h'.itemSets.trans h.itemSets, Nat.le_trans h.items h'.items⟩

theorem Still.queued (h : Still b b') (hb : b.step.Queued k) : b'.step.Queued k := by
  intro set hset
  rw [h.itemSets] at hset
  obtain ⟨hnodup, hstored⟩ := hb set hset
  exact ⟨hnodup, fun r hr => (hstored r hr).imp_right fun hlt => Nat.lt_of_lt_of_le hlt h.items⟩

theorem SameChart.still (h : b.SameChart b') : Still b b' := by
  obtain ⟨-, -, hstep⟩ := h
  exact ⟨by rw [hstep], by rw [hstep]⟩

theorem still_foldl {α : Type} {f : Building → α → Building} (hf : ∀ b a, Still b (f b a))
    (as : List α) (b : Building) : Still b (as.foldl f b) := by
  induction as generalizing b with
  | nil => exact .refl b
  | cons a as ih => exact (hf b a).trans (ih (f b a))

theorem still_waitFor (b : Building) (token : Sym) (item : Item) :
    Still b (b.waitFor token item) := ⟨rfl, by simp [waitFor, store]⟩

theorem still_awaitVariants (b : Building) (v : Variants) (item : Item) :
    Still b (b.awaitVariants v item) := by
  unfold awaitVariants
  split
  · split
    · exact b.still_waitFor _ _
    · exact .refl b
  · refine still_foldl (fun b entry => ?_) _ b
    obtain ⟨ts, form⟩ := entry
    cases ts with
    | nil => exact ⟨rfl, Nat.le_refl _⟩
    | cons t ts => exact b.still_waitFor _ _

theorem still_combine (b : Building) (r : ItemRef) (C : ChartCatId) :
    Still b (b.combine r C) := by
  unfold combine
  split
  · exact ⟨rfl, Nat.le_refl _⟩
  · split <;> exact ⟨rfl, Nat.le_refl _⟩

theorem still_complete (b : Building) (item : Item) : Still b (b.complete item) := by
  unfold complete
  dsimp only
  split
  · split
    · unfold pack
      split
      · exact ⟨rfl, Nat.le_refl _⟩
      · refine Still.trans ?_ (still_foldl (fun b field => ?_) _ _)
        · exact ⟨rfl, Nat.le_refl _⟩
        · split <;> exact ⟨rfl, Nat.le_refl _⟩
    · exact ⟨rfl, Nat.le_refl _⟩
  · split
    · refine Still.trans ?_ (still_foldl (fun b r => b.still_combine r _) _ _)
      exact ⟨rfl, Nat.le_refl _⟩
    · exact ⟨rfl, Nat.le_refl _⟩

/-! ## What has somebody wait -/

/-- An item that is stored and joins a set waits there at a place that was free. -/
theorem queued_joined (h : b.step.Queued b.index) (item : Item) (s : Nat) :
    (b.joined item s).step.Queued b.index := by
  have hsize : (b.joined item s).step.items.size = b.step.items.size + 1 := Array.size_push _
  intro set hset
  obtain ⟨s', hs'⟩ := Array.mem_iff_getElem?.1 hset
  rw [itemSets_joined] at hs'
  rw [hsize]
  have hold : ∀ set ∈ b.step.itemSets, set.waiting.Nodup ∧
      ∀ r ∈ set.waiting, r.step = b.index ∧ r.idx < b.step.items.size + 1 := fun set hset =>
    (h set hset).imp_right fun hstored r hr => (hstored r hr).imp_right Nat.lt_succ_of_lt
  split at hs'
  · obtain ⟨set₀, hs₀, rfl⟩ := Option.map_eq_some_iff.1 hs'
    have hset₀ := Array.mem_of_getElem? hs₀
    obtain ⟨hnodup, hstored⟩ := hold set₀ hset₀
    refine ⟨List.nodup_append.2 ⟨hnodup, List.nodup_singleton _, ?_⟩, fun r hr => ?_⟩
    · rintro r hr r' hr' rfl
      have hlt := ((h set₀ hset₀).2 r hr).2
      rw [List.mem_singleton.1 hr'] at hlt
      exact Nat.lt_irrefl _ hlt
    · rcases List.mem_append.1 hr with hr | hr
      · exact hstored r hr
      · rw [List.mem_singleton.1 hr]
        exact ⟨rfl, Nat.lt_succ_self _⟩
  · exact hold set (Array.mem_of_getElem? hs')

/-- So does one that is the first to ask for what a set predicts. -/
theorem queued_predicted (h : b.step.Queued b.index) (item : Item) (X : CatRef) (f : Nat) :
    (b.predicted item X f).step.Queued b.index := by
  have hsize : (b.predicted item X f).step.items.size = b.step.items.size + 1 := Array.size_push _
  intro set hset
  rw [hsize]
  rcases Array.mem_push.1 hset with hset | rfl
  · exact (h set hset).imp_right fun hstored r hr =>
      (hstored r hr).imp_right Nat.lt_succ_of_lt
  · refine ⟨List.nodup_singleton _, fun r hr => ?_⟩
    rw [List.mem_singleton.1 hr]
    exact ⟨rfl, Nat.lt_succ_self _⟩

theorem queued_awaitCategory (h : b.step.Queued b.index) (item : Item) (X : CatRef) (f : Nat) :
    (b.awaitCategory item X f).step.Queued b.index := by
  cases hfind : b.step.findItemSet? X f with
  | some s =>
    rw [awaitCategory_of_some hfind]
    have hjoined := queued_joined h item s
    split
    · exact (still_combine ..).queued hjoined
    · exact hjoined
  | none =>
    rw [awaitCategory_of_none hfind]
    exact (agenda_expand ..).1.still.queued (queued_predicted h item X f)

/-- **Whatever is done with an item, nothing waits twice.** -/
theorem queued_process (h : b.step.Queued b.index) (item : Item) :
    (b.process item).step.Queued b.index := by
  unfold process
  dsimp only
  -- One case for each thing that an item can need.
  split
  · exact h
  · exact (still_complete ..).queued h
  · unfold predict
    split
    · exact h
    · exact queued_awaitCategory (b := { b with counters.items := b.counters.items + 1 }) h item _ _
  · exact h
  · split
    · exact (still_waitFor ..).queued h
    · exact h
  · exact (still_awaitVariants ..).queued h

/-- Nothing waits for the goals of the input. -/
theorem queued_predictTop (h : b.step.Queued k) (ids : List InstanceId) (field : Nat) :
    (b.predictTop ids field).step.Queued k := by
  unfold predictTop
  induction ids generalizing b with
  | nil => exact h
  | cons id ids ih =>
    rw [List.foldl_cons]
    refine ih ?_
    split
    · exact h
    · refine (agenda_expand ..).1.still.queued fun set hset => ?_
      rcases Array.mem_push.1 hset with hset | rfl
      · exact h set hset
      · exact ⟨.nil, nofun⟩

end Building

end Polyglot
