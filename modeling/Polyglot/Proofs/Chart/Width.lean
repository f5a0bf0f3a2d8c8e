import Polyglot.Proofs.Chart.Enumeration

/-!
# How wide a chart gets

A round of work adds at most one production to the categories of a step and completes at most one
goal. So the decisions of the enumeration of readings are no wider than the number of rounds that a
step may take, and if these are not too many then a record of decisions can hold them.

- `Step.Within`: a bound on what a step has.
- `Building.Keeps`: an operation that completes nothing.
- `Building.process_cases`: what a round does to the categories of a step, and so
  `Building.within_process`: how much it adds.
- `Chart.narrow_readings`: the width of the enumeration.
-/

namespace Polyglot

/-- A step has completed so many goals, and no category of it has more productions. -/
structure Step.Within (k : Nat) (s : Step) : Prop where
  completed : s.completed.length ≤ k
  productions : ∀ cat ∈ s.cats, cat.productions.length ≤ k

theorem Step.Within.mono {k limit : Nat} (hle : k ≤ limit) {s : Step} (h : s.Within k) :
    s.Within limit :=
  ⟨Nat.le_trans h.completed hle, fun cat hcat => Nat.le_trans (h.productions cat hcat) hle⟩

namespace Building

variable {b b' b'' : Building} {k : Nat}

/-! ## What completes nothing -/

/-- An operation completes nothing. -/
structure Keeps (b b' : Building) : Prop where
  cats : b'.step.cats = b.step.cats
  completed : b'.step.completed = b.step.completed

theorem Keeps.trans (h : Keeps b b') (h' : Keeps b' b'') : Keeps b b'' :=
  ⟨h'.cats.trans h.cats, h'.completed.trans h.completed⟩

theorem Keeps.within (h : Keeps b b') (hb : b.step.Within k) : b'.step.Within k :=
  ⟨h.completed ▸ hb.completed, h.cats ▸ hb.productions⟩

theorem keeps_foldl {α : Type} {f : Building → α → Building} (hf : ∀ b a, Keeps b (f b a))
    (as : List α) (b : Building) : Keeps b (as.foldl f b) := by
  induction as generalizing b with
  | nil => exact ⟨rfl, rfl⟩
  | cons a as ih => exact (hf b a).trans (ih (f b a))

theorem keeps_push (b : Building) (item : Item) : Keeps b (b.push item) := ⟨rfl, rfl⟩

theorem keeps_expand (b : Building) (set : ItemSetRef) (cat : CatRef) (field : Nat) :
    Keeps b (b.expand set cat field) := by
  refine Keeps.trans ?_ (keeps_foldl (fun b _ => b.keeps_push _) _ _)
  exact ⟨rfl, rfl⟩

theorem keeps_combine (b : Building) (waiting : ItemRef) (done : ChartCatId) :
    Keeps b (b.combine waiting done) := by
  unfold combine
  split
  · exact ⟨rfl, rfl⟩
  · split <;> exact ⟨rfl, rfl⟩

theorem keeps_awaitCategory (b : Building) (item : Item) (cat : CatRef) (field : Nat) :
    Keeps b (b.awaitCategory item cat field) := by
  unfold awaitCategory
  dsimp only
  split
  · split
    · refine Keeps.trans ?_ (keeps_combine ..)
      exact ⟨rfl, rfl⟩
    · exact ⟨rfl, rfl⟩
  · refine Keeps.trans ?_ (keeps_expand ..)
    exact ⟨rfl, rfl⟩

theorem keeps_predict (b : Building) (item : Item) (arg field : Nat) :
    Keeps b (b.predict item arg field) := by
  unfold predict
  split
  · exact ⟨rfl, rfl⟩
  · exact b.keeps_awaitCategory item _ field

theorem keeps_awaitVariants (b : Building) (v : Variants) (item : Item) :
    Keeps b (b.awaitVariants v item) := by
  unfold awaitVariants
  split
  · split <;> exact ⟨rfl, rfl⟩
  · refine keeps_foldl (fun b entry => ?_) _ b
    obtain ⟨tokens, form⟩ := entry
    cases tokens <;> exact ⟨rfl, rfl⟩

theorem keeps_scan (b : Building) (item : Item) : Keeps b (b.scan item) := by
  unfold scan
  dsimp only
  split <;> exact ⟨rfl, rfl⟩

theorem keeps_predictTop (b : Building) (ids : List InstanceId) (field : Nat) :
    Keeps b (b.predictTop ids field) := by
  refine keeps_foldl (fun b id => ?_) ids b
  split
  · exact ⟨rfl, rfl⟩
  · refine Keeps.trans ?_ (keeps_expand ..)
    exact ⟨rfl, rfl⟩

/-- **What a round does to the categories of a step**: nothing, or the production of an item at its
end is packed into one, or begins one. -/
theorem process_cases (b : Building) (item : Item) :
    Keeps b (b.process item) ∨ ∃ b₁, Keeps b b₁ ∧
      ((∃ idx cat, b₁.step.cats[idx]? = some cat ∧
        b.process item = b₁.pack idx cat item.production) ∨
      ∃ set, b.process item = b₁.addCategory item.set set item.production) := by
  unfold process
  dsimp only
  -- One case for each thing that an item can need; only an item at its end completes anything.
  split
  · exact .inl ⟨rfl, rfl⟩
  · unfold complete
    dsimp only
    split
    · split
      · rename_i cat hcat
        refine .inr ⟨_, ?_, .inl ⟨_, cat, ?_, rfl⟩⟩
        · exact ⟨rfl, rfl⟩
        · exact hcat
      · exact .inl ⟨rfl, rfl⟩
    · split
      · rename_i set _
        refine .inr ⟨_, ?_, .inr ⟨set, rfl⟩⟩
        exact ⟨rfl, rfl⟩
      · exact .inl ⟨rfl, rfl⟩
  · refine .inl (.trans ?_ (keeps_predict ..))
    exact ⟨rfl, rfl⟩
  · exact .inl ⟨rfl, rfl⟩
  · split <;> exact .inl ⟨rfl, rfl⟩
  · refine .inl (.trans ?_ (keeps_awaitVariants ..))
    exact ⟨rfl, rfl⟩

/-! ## What a round adds -/

theorem Keeps.within_succ (h : Keeps b b') (hb : b.step.Within k) : b'.step.Within (k + 1) :=
  (h.within hb).mono (Nat.le_succ k)

theorem within_pack (h : b.step.Within k) (idx : Nat) (cat : ChartCat) (q : ChartProduction) :
    (b.pack idx cat q).step.Within (k + 1) := by
  unfold pack
  split
  · exact Keeps.within_succ ⟨rfl, rfl⟩ h
  · -- Only one category of the step is given a production.
    refine Keeps.within (keeps_foldl (fun b field => ?_) _ _) ⟨Nat.le_succ_of_le h.completed, ?_⟩
    · split <;> exact ⟨rfl, rfl⟩
    · intro cat hcat
      obtain ⟨i, hi, rfl⟩ := Array.mem_iff_getElem.1 hcat
      simp only [Array.getElem_modify]
      have hle := h.productions _ (Array.getElem_mem (by simpa using hi))
      split
      · simpa using hle
      · exact Nat.le_succ_of_le hle

theorem within_addCategory (h : b.step.Within k) (ref : ItemSetRef) (set : ItemSet)
    (q : ChartProduction) : (b.addCategory ref set q).step.Within (k + 1) := by
  refine Keeps.within (keeps_foldl (fun b waiting => b.keeps_combine waiting _) _ _) ⟨?_, ?_⟩
  · dsimp only
    split
    · simpa using h.completed
    · exact Nat.le_succ_of_le h.completed
  · intro cat hcat
    rcases Array.mem_push.1 hcat with hcat | rfl
    · exact Nat.le_succ_of_le (h.productions cat hcat)
    · exact Nat.succ_le_succ (Nat.zero_le k)

/-- A round adds one production at most, and completes one goal at most. -/
theorem within_process (h : b.step.Within k) (item : Item) :
    (b.process item).step.Within (k + 1) := by
  obtain hkeeps | ⟨b₁, hkeeps, ⟨idx, cat, -, heq⟩ | ⟨set, heq⟩⟩ := b.process_cases item
  · exact hkeeps.within_succ h
  · rw [heq]
    exact within_pack (hkeeps.within h) ..
  · rw [heq]
    exact within_addCategory (hkeeps.within h) ..

/-- So many rounds add so much. -/
theorem within_run (h : b.step.Within k) {limit : Nat} (hrun : b.run limit = some b') :
    b'.step.Within (k + limit) := by
  induction limit generalizing b k with
  | zero =>
    rw [run] at hrun
    split at hrun
    · cases hrun
      exact h
    · cases hrun
  | succ limit ih =>
    rw [run] at hrun
    cases hnext : b.next? with
    | none =>
      rw [hnext] at hrun
      cases hrun
      exact h.mono (Nat.le_add_right ..)
    | some b₁ =>
      rw [hnext] at hrun
      have hstep : b₁.step.Within (k + 1) := by
        unfold next? at hnext
        split at hnext
        · cases hnext
          refine within_process ?_ _
          exact h
        · cases hnext
      have hrest := ih hstep hrun
      rwa [Nat.add_assoc, Nat.add_comm 1] at hrest

/-- A step that was finished is as wide as the number of rounds that it took at most. -/
theorem within_finish (h : b.step.Within 0) {limit : Nat} {s : Step}
    (hfinish : (b.finish limit).1 = .ok s) : s.Within limit := by
  unfold finish at hfinish
  split at hfinish
  · cases hfinish
  · rename_i b' hrun
    split at hfinish
    · cases hfinish
    · cases hfinish
      simpa using within_run h hrun

end Building

namespace Chart

/-- All steps of a chart are as wide as that. -/
def Within (limit : Nat) (chart : Chart) : Prop :=
  ∀ (k : Nat) (s : Step), chart.steps[k]? = some s → s.Within limit

variable {chart chart' : Chart} {limit limit' : Nat} {symbols : SymbolStore}

theorem Within.mono (hle : limit ≤ limit') (h : chart.Within limit) : chart.Within limit' :=
  fun k s hs => (h k s hs).mono hle

theorem within_push {c : Concrete} {past : Array Step} {last : Step}
    (hpast : ∀ (k : Nat) (s : Step), past[k]? = some s → s.Within limit)
    (hlast : last.Within limit) : Within limit { concrete := c, past, last } := by
  intro k s hs
  rw [steps, Array.getElem?_push] at hs
  split at hs
  · cases hs
    exact hlast
  · exact hpast k s hs

theorem within_parse {c : Concrete} {cat : String} {field : Nat} {counters counters' : Counters}
    (h : parse limit symbols c cat field counters = (.ok chart, counters')) :
    chart.Within limit := by
  unfold parse at h
  split at h
  · cases h
  · dsimp only at h
    split at h
    · rename_i last _ hfinish
      cases h
      refine within_push (by simp) (Building.within_finish ?_ (congrArg Prod.fst hfinish))
      refine (Building.keeps_predictTop ..).within ⟨Nat.le_refl 0, ?_⟩
      simp [Building.start]
    · cases h

theorem Within.feed (h : chart.Within limit) {token : String} {counters : Counters}
    (hfeed : (chart.feed limit symbols token counters).1 = .ok (some chart')) :
    chart'.Within limit := by
  unfold Chart.feed at hfeed
  split at hfeed
  · cases hfeed
  · dsimp only at hfeed
    split at hfeed
    · rename_i last _ hfinish
      cases hfeed
      refine within_push h (Building.within_finish ?_ (congrArg Prod.fst hfinish))
      refine (Building.keeps_foldl (fun b item => b.keeps_scan item) _ _).within ⟨Nat.le_refl 0, ?_⟩
      simp [Building.start]
    · cases hfeed

/-- So is a chart after some tokens. -/
theorem Within.feedAll (h : chart.Within limit) {tokens : List String} {counters : Counters}
    (hfeed : (chart.feedAll limit symbols tokens counters).1 = .ok (some chart')) :
    chart'.Within limit := by
  induction tokens generalizing chart counters with
  | nil =>
    cases hfeed
    exact h
  | cons token tokens ih =>
    rw [Chart.feedAll] at hfeed
    split at hfeed
    · rename_i hnext
      exact ih (h.feed (congrArg Prod.fst hnext)) hfeed
    · cases hfeed
    · cases hfeed

/-! ## The width of the enumeration -/

theorem narrow_readAll {read : CatRef → Decision (Attempt Expr)} {args : List CatRef}
    (h : ∀ X ∈ args, (read X).Narrow) : (readAll read args).Narrow := by
  induction args with
  | nil => trivial
  | cons X args ih =>
    rw [readAll]
    refine (h X List.mem_cons_self).bind fun r _ => ?_
    cases r with
    | error parts => trivial
    | ok e =>
      refine (ih fun X hX => h X (List.mem_cons_of_mem _ hX)).bind fun r _ => ?_
      cases r <;> trivial

theorem narrow_readProduction {read : CatRef → Decision (Attempt Expr)}
    (h : ∀ X, (read X).Narrow) (q : ChartProduction) : (chart.readProduction read q).Narrow := by
  cases q with
  | coerce inner => exact h inner
  | apply fn args =>
    rw [readProduction]
    split
    · trivial
    · refine (narrow_readAll fun X _ => h X).bind fun r _ => ?_
      cases r <;> trivial

theorem narrow_reading (h : chart.Within Choice.maxAlternatives) (path : List ChartCatId)
    (X : CatRef) : (chart.reading path X).Narrow := by
  induction path, X using chart.induction_on_path with
  | grammar path id =>
    rw [reading_grammar]
    trivial
  | dead path C hdead =>
    rw [reading_dead hdead]
    trivial
  | chart path C cat hnew hcat ih =>
    rw [reading_chart hnew hcat]
    refine ⟨?_, fun i => narrow_readProduction ih _⟩
    obtain ⟨s, hs, hmem⟩ := Option.bind_eq_some_iff.1 hcat
    exact (h _ s hs).productions cat (Array.mem_of_getElem? hmem)

/-- If no step is wider than a decision can be, then a record of decisions can hold the enumeration
of readings. -/
theorem narrow_readings (h : chart.Within Choice.maxAlternatives) : chart.readings.Narrow := by
  have hlast : chart.steps[chart.position]? = some chart.last := by simp [steps, position]
  exact ⟨(h _ _ hlast).completed, fun i => narrow_reading h [] _⟩

end Chart

end Polyglot
