import Polyglot.Proofs.Chart.Queues
import Polyglot.Proofs.Chart.Upkeep

/-!
# How a step is laid out

The categories of a step are numbered as they are created, and each of them is created from what was
there before: the category that it refines, and the arguments of its first production. Productions
that are packed into it later may have any arguments, also the category itself. An item that waits
for a token is stored for it, so it waits for no other one.

- `Step.Laid`: how a step is laid out.
- `Building.Calm`: an operation that neither completes anything nor waits for a token.
- `Building.laid_process`: processing an item keeps to the layout.
- `Building.Upkept`: all that is known of the shape of a step in the making;
  `Building.Upkept.finish`: also when it is finished.
-/

namespace Polyglot

/-- A category has its number, and was created from what was there before it. -/
structure ChartCat.Founded (firstId : Int) (C : ChartCatId) (cat : ChartCat) : Prop where
  number : cat.id.val = firstId - C.idx
  refines : ∀ C', cat.cat = .chart C' → C'.Before C
  begun : ∃ q, cat.productions.head? = some q ∧ ∀ C', .chart C' ∈ q.args → C'.Before C

/-- The categories of a step are founded, and its items wait for one token each. -/
structure Step.Laid (k : Nat) (firstId : Int) (s : Step) : Prop where
  first : s.firstId = firstId
  founded : ∀ (idx : Nat) (cat : ChartCat), s.cats[idx]? = some cat →
    cat.Founded firstId ⟨k, idx⟩
  once : (s.transitions.map Prod.snd).Nodup
  stored : ∀ entry ∈ s.transitions, entry.2 < s.items.size

namespace Building

variable {a : Abstract} {c : Concrete} {ids : List InstanceId} {goal k : Nat}
  {firstId : Int} {b b' b'' : Building} {item : Item}

/-! ## What neither completes anything nor waits for a token -/

/-- An operation neither completes anything nor has an item wait for a token. -/
structure Calm (b b' : Building) : Prop where
  firstId : b'.step.firstId = b.step.firstId
  cats : b'.step.cats = b.step.cats
  transitions : b'.step.transitions = b.step.transitions
  items : b.step.items.size ≤ b'.step.items.size

theorem Calm.refl (b : Building) : Calm b b := ⟨rfl, rfl, rfl, Nat.le_refl _⟩

theorem Calm.trans (h : Calm b b') (h' : Calm b' b'') : Calm b b'' :=
  ⟨h'.firstId.trans h.firstId, h'.cats.trans h.cats, h'.transitions.trans h.transitions,
    Nat.le_trans h.items h'.items⟩

theorem SameChart.calm (h : b.SameChart b') : Calm b b' := by
  obtain ⟨-, -, hstep⟩ := h
  exact ⟨by rw [hstep], by rw [hstep], by rw [hstep], by rw [hstep]⟩

theorem Calm.laid (h : Calm b b') (hb : b.step.Laid k firstId) : b'.step.Laid k firstId where
  first := h.firstId.trans hb.first
  founded idx cat hcat := by
    rw [h.cats] at hcat
    exact hb.founded idx cat hcat
  once := h.transitions ▸ hb.once
  stored entry hentry := by
    rw [h.transitions] at hentry
    exact Nat.lt_of_lt_of_le (hb.stored entry hentry) h.items

theorem calm_foldl {α : Type} {f : Building → α → Building} (hf : ∀ b a, Calm b (f b a))
    (as : List α) (b : Building) : Calm b (as.foldl f b) := by
  induction as generalizing b with
  | nil => exact .refl b
  | cons a as ih => exact (hf b a).trans (ih (f b a))

theorem calm_combine (b : Building) (r : ItemRef) (done : ChartCatId) :
    Calm b (b.combine r done) := by
  unfold combine
  split
  · exact ⟨rfl, rfl, rfl, Nat.le_refl _⟩
  · split <;> exact ⟨rfl, rfl, rfl, Nat.le_refl _⟩

theorem calm_expand (b : Building) (S : ItemSetRef) (X : CatRef) (f : Nat) :
    Calm b (b.expand S X f) := (b.agenda_expand S X f).1.calm

theorem calm_awaitCategory (b : Building) (item : Item) (X : CatRef) (f : Nat) :
    Calm b (b.awaitCategory item X f) := by
  unfold awaitCategory
  dsimp only [store]
  split
  · split
    · refine Calm.trans ?_ (calm_combine ..)
      exact ⟨rfl, rfl, rfl, by simp⟩
    · exact ⟨rfl, rfl, rfl, by simp⟩
  · refine Calm.trans ?_ (calm_expand ..)
    exact ⟨rfl, rfl, rfl, by simp [addItemSet]⟩

theorem calm_predict (b : Building) (item : Item) (arg f : Nat) :
    Calm b (b.predict item arg f) := by
  unfold predict
  split
  · exact ⟨rfl, rfl, rfl, Nat.le_refl _⟩
  · exact b.calm_awaitCategory item _ f

theorem calm_predictTop (b : Building) (ids : List InstanceId) (f : Nat) :
    Calm b (b.predictTop ids f) := by
  refine calm_foldl (fun b id => ?_) ids b
  split
  · exact .refl b
  · refine Calm.trans ?_ (calm_expand ..)
    exact ⟨rfl, rfl, rfl, Nat.le_refl _⟩

/-! ## Items that wait for tokens -/

theorem laid_waitFor (h : b.step.Laid k firstId) (token : Sym) (item : Item) :
    (b.waitFor token item).step.Laid k firstId where
  first := h.first
  founded := h.founded
  once := by
    show ((b.step.transitions ++ [(token, b.step.items.size)]).map Prod.snd).Nodup
    rw [List.map_append, List.nodup_append]
    refine ⟨h.once, List.nodup_singleton _, fun idx hidx idx' hidx' heq => ?_⟩
    -- The place of the new item was free.
    obtain ⟨entry, hentry, rfl⟩ := List.mem_map.1 hidx
    have hlt := h.stored entry hentry
    simp at hidx'
    omega
  stored entry hentry := by
    show entry.2 < (b.step.items.push item).size
    rw [Array.size_push]
    rcases List.mem_append.1 hentry with hold | hnew
    · exact Nat.lt_succ_of_lt (h.stored entry hold)
    · obtain rfl := List.mem_singleton.1 hnew
      exact Nat.lt_succ_self _

theorem laid_awaitVariants (h : b.step.Laid k firstId) (v : Variants) (item : Item) :
    (b.awaitVariants v item).step.Laid k firstId := by
  unfold awaitVariants
  split
  · split
    · exact laid_waitFor h ..
    · exact h
  · induction v.distinctForms generalizing b with
    | nil => exact h
    | cons entry forms ih =>
      obtain ⟨ts, form⟩ := entry
      cases ts with
      | nil => exact ih (b := b.push item.advanced) h
      | cons t ts => exact ih (laid_waitFor h t { item with form })

/-! ## What completes something -/

/-- A production that is packed into a category leaves its first one where it is. -/
theorem laid_pack (h : b.step.Laid k firstId) (idx : Nat) (cat : ChartCat) (q : ChartProduction) :
    (b.pack idx cat q).step.Laid k firstId := by
  unfold pack
  split
  · exact h
  · refine Calm.laid (calm_foldl (fun b field => ?_) _ _) ?_
    · split <;> exact ⟨rfl, rfl, rfl, Nat.le_refl _⟩
    · refine ⟨h.first, fun i cat' hcat' => ?_, h.once, h.stored⟩
      obtain ⟨hi, rfl⟩ := Array.getElem?_eq_some_iff.1 hcat'
      have hold := h.founded i _ (Array.getElem?_eq_getElem (by simpa using hi))
      rw [Array.getElem_modify]
      split
      · obtain ⟨q₀, hq₀, hbefore⟩ := hold.begun
        refine ⟨hold.number, hold.refines, q₀, ?_, hbefore⟩
        rw [List.head?_append, hq₀]
        rfl
      · exact hold

/-- A category that is added gets the next number. -/
theorem laid_addCategory (h : b.step.Laid k firstId) {S : ItemSetRef} {set : ItemSet}
    {q : ChartProduction} (hrefines : ∀ C, set.cat = .chart C → C.Before ⟨k, b.step.cats.size⟩)
    (hargs : ∀ C, .chart C ∈ q.args → C.Before ⟨k, b.step.cats.size⟩) :
    (b.addCategory S set q).step.Laid k firstId := by
  refine Calm.laid (calm_foldl (fun b r => b.calm_combine r _) _ _)
    ⟨h.first, fun idx cat hcat => ?_, h.once, h.stored⟩
  rw [Array.getElem?_push] at hcat
  split at hcat
  · rename_i heq
    obtain rfl := Option.some.inj hcat
    subst heq
    refine ⟨?_, hrefines, q, rfl, hargs⟩
    show b.step.firstId - b.step.cats.size = _
    rw [h.first]
  · exact h.founded idx cat hcat

theorem laid_complete (hc : b.Coherent c ids goal) (hitem : item.Placed c b.facts)
    (h : b.step.Laid b.index firstId) : (b.complete item).step.Laid b.index firstId := by
  unfold complete
  dsimp only
  split
  · split
    · exact laid_pack (by exact h) ..
    · exact h
  · split
    · rename_i set hset
      obtain ⟨_, _, _, -, -, hsuits⟩ := hitem.predicted
      have hpredicts : b.facts (.predicts item.set set.cat set.field set.top) :=
        predicts_iff.2 ⟨set, hset, rfl, rfl, rfl⟩
      obtain ⟨⟨n, hn⟩, -⟩ := hc.facts.rests _ hpredicts
      -- Whatever is known to have fields was completed before.
      refine laid_addCategory (by exact h) (fun C hC => ?_) fun C hC => ?_
      · rw [hC] at hn
        obtain ⟨S, X, f, hcloses⟩ := hn
        exact before_size hcloses
      · obtain ⟨m, S, X, f, hcloses⟩ := hsuits.args C hC
        exact before_size hcloses
    · exact h

/-- **Processing an item keeps to the layout of the step.** -/
theorem laid_process (hc : b.Coherent c ids goal) (hitem : item.Placed c b.facts)
    (h : b.step.Laid b.index firstId) : (b.process item).step.Laid b.index firstId := by
  unfold process
  dsimp only
  -- One case for each thing that an item can need.
  split
  · exact h
  · exact laid_complete (hc.count { b.counters with items := b.counters.items + 1 }) hitem h
  · exact (calm_predict ..).laid (by exact h)
  · exact h
  · split
    · exact laid_waitFor (by exact h) ..
    · exact h
  · exact laid_awaitVariants (by exact h) ..

/-! ## All of it together -/

/-- What is known of the shape of a step in the making. -/
structure Upkept (c : Concrete) (ids : List InstanceId) (goal : Nat) (firstId : Int)
    (b : Building) : Prop where
  coherent : b.Coherent c ids goal
  laid : b.step.Laid b.index firstId
  distinct : b.step.Distinct
  tidy : b.step.Tidy
  queued : b.step.Queued b.index

namespace Upkept

/-- At the beginning of a step nothing has been completed, and nothing waits for a token. -/
theorem of_coherent (h : b.Coherent c ids goal) (hcats : b.step.cats = #[])
    (hfirst : b.step.firstId = firstId) (hcompleted : b.step.completed = [])
    (htransitions : b.step.transitions = []) (hqueued : b.step.Queued b.index) :
    b.Upkept c ids goal firstId where
  coherent := h
  laid := by
    refine ⟨hfirst, fun idx cat hcat => ?_, by simp [htransitions], by simp [htransitions]⟩
    simp [hcats] at hcat
  distinct := distinct_of_cats_eq hcats
  tidy := tidy_of_completed_eq hcompleted
  queued := hqueued

/-- One round of work keeps it so. -/
theorem next? (hfits : c.Fits a) (h : b.Upkept c ids goal firstId) (hnext : b.next? = some b') :
    b'.Upkept c ids goal firstId ∧ b.Learns b' := by
  obtain ⟨hcoherent, hlearns⟩ := h.coherent.next? hfits hnext
  have hindex := hlearns.index
  obtain ⟨item, agenda, -, hagenda, rfl⟩ := next?_eq_some hnext
  let b₀ : Building := { b with agenda }
  have h₀ : b₀.Coherent c ids goal := ⟨h.coherent.concrete, h.coherent.facts,
    fun i hi => h.coherent.agenda i (hagenda ▸ List.mem_cons_of_mem _ hi)⟩
  have hitem : item.Placed c b₀.facts := h.coherent.agenda item (hagenda ▸ List.mem_cons_self)
  refine ⟨⟨hcoherent, ?_, distinct_process (b := b₀) h.distinct item,
    tidy_process (b := b₀) h.tidy item, ?_⟩, hlearns⟩
  · rw [hindex]
    exact laid_process h₀ hitem h.laid
  · rw [hindex]
    exact queued_process (b := b₀) h.queued item

/-- So it is of the finished step. -/
theorem finish (hfits : c.Fits a) (h : b.Upkept c ids goal firstId) {limit : Nat} {s : Step}
    (hfinish : (b.finish limit).1 = .ok s) : ∃ b' : Building, b'.step = s ∧
      b'.Upkept c ids goal firstId ∧ b.Learns b' := by
  unfold Building.finish at hfinish
  split at hfinish
  · cases hfinish
  · rename_i b' hrun
    obtain ⟨h', hlearns⟩ := run_invariant (fun b' => b'.Upkept c ids goal firstId ∧ b.Learns b')
      (fun b₁ b₂ ⟨h₁, hlearns₁⟩ hnext => by
        obtain ⟨h₂, hlearns₂⟩ := h₁.next? hfits hnext
        exact ⟨h₂, hlearns₁.trans hlearns₂⟩)
      ⟨h, .refl b⟩ hrun
    split at hfinish
    · cases hfinish
    · cases hfinish
      exact ⟨b', rfl, h', hlearns⟩

end Upkept

end Building

end Polyglot
