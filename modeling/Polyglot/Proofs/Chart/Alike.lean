import Polyglot.Chart

/-!
# What is counted has no influence

A step in the making counts what is done with it, and looks at no count. So two of them that differ
in their counters alone go on to differ in these alone (`Building.Alike`), and what comes of a parse
or a token does not depend on what was parsed before.

- `Building.Alike.next?`: one round of work.
- `Building.Alike.finish`: all rounds.
- `Chart.parse_counters`, `Chart.feed_counters`: the chart that comes out.
-/

namespace Polyglot

namespace Building

variable {b b' : Building}

/-- Two steps in the making that differ at most in their counters. -/
structure Alike (b b' : Building) : Prop where
  concrete : b'.concrete = b.concrete
  history : b'.history = b.history
  step : b'.step = b.step
  agenda : b'.agenda = b.agenda
  fault : b'.fault = b.fault

namespace Alike

theorem foldl {α : Type} {f : Building → α → Building}
    (hf : ∀ {b b' : Building} (a : α), Alike b b' → Alike (f b a) (f b' a)) (h : Alike b b')
    (l : List α) : Alike (l.foldl f b) (l.foldl f b') := by
  induction l generalizing b b' with
  | nil => exact h
  | cons a l ih => exact ih (hf a h)

/-- To count something changes nothing else. -/
theorem count (h : Alike b b') {counters counters' : Counters} :
    Alike { b with counters } { b' with counters := counters' } :=
  ⟨h.concrete, h.history, h.step, h.agenda, h.fault⟩

theorem index (h : Alike b b') : b'.index = b.index := congrArg Array.size h.history

theorem step? (h : Alike b b') (i : Nat) : b'.step? i = b.step? i := by
  unfold Building.step?
  rw [h.index, h.step, h.history]

theorem productions (h : Alike b b') (cat : CatRef) : b'.productions cat = b.productions cat := by
  cases cat with
  | grammar id => rw [Building.productions, Building.productions, h.concrete]
  | chart id => simp only [Building.productions, category?, h.step?]

theorem fieldCount (h : Alike b b') (cat : CatRef) : b'.fieldCount cat = b.fieldCount cat := by
  cases cat with
  | grammar id => rw [Building.fieldCount, Building.fieldCount, h.concrete]
  | chart id => simp only [Building.fieldCount, category?, h.step?]

/-! ## Parts of a round -/

theorem fail (h : Alike b b') (f : Chart.Fault) : Alike (b.fail f) (b'.fail f) :=
  ⟨h.concrete, h.history, h.step, h.agenda, by simp only [Building.fail, h.fault]⟩

theorem push (h : Alike b b') (item : Item) : Alike (b.push item) (b'.push item) :=
  ⟨h.concrete, h.history, h.step, by simp only [Building.push, h.agenda], h.fault⟩

theorem waitFor (h : Alike b b') (token : Sym) (item : Item) :
    Alike (b.waitFor token item) (b'.waitFor token item) :=
  ⟨h.concrete, h.history, by simp only [Building.waitFor, store, h.step], h.agenda, h.fault⟩

theorem expand (h : Alike b b') (set : ItemSetRef) (cat : CatRef) (field : Nat) :
    Alike (b.expand set cat field) (b'.expand set cat field) := by
  simp only [Building.expand]
  rw [show Building.productions _ cat = _ from h.count.productions cat]
  exact foldl (fun production h => h.push { set, production, field }) h.count _

theorem combine (h : Alike b b') (waiting : ItemRef) (done : ChartCatId) :
    Alike (b.combine waiting done) (b'.combine waiting done) := by
  simp only [Building.combine, item?, h.step?, h.concrete]
  split
  · exact h.fail _
  · split
    · exact h.fail _
    · refine push ?_ _
      exact ⟨rfl, h.history, h.step, h.agenda, h.fault⟩
    · exact h.fail _

theorem awaitCategory (h : Alike b b') (item : Item) (cat : CatRef) (field : Nat) :
    Alike (b.awaitCategory item cat field) (b'.awaitCategory item cat field) := by
  have hindex : ∀ step, Building.index { b' with step } = b.index := fun _ => h.index
  have hindex' : ∀ step, Building.index { b with step } = b.index := fun _ => rfl
  simp only [Building.awaitCategory, store, addItemSet, h.index, h.step, hindex, hindex']
  split
  · split
    · refine combine ?_ _ _
      exact ⟨h.concrete, h.history, rfl, h.agenda, h.fault⟩
    · exact ⟨h.concrete, h.history, rfl, h.agenda, h.fault⟩
  · refine expand ?_ _ _ _
    exact ⟨h.concrete, h.history, rfl, h.agenda, h.fault⟩

theorem predict (h : Alike b b') (item : Item) (arg field : Nat) :
    Alike (b.predict item arg field) (b'.predict item arg field) := by
  unfold Building.predict
  split
  · exact h.fail _
  · exact h.awaitCategory _ _ _

theorem awaitVariants (h : Alike b b') (v : Variants) (item : Item) :
    Alike (b.awaitVariants v item) (b'.awaitVariants v item) := by
  unfold Building.awaitVariants
  split
  · split
    · exact h.waitFor _ _
    · exact h
  · refine foldl (fun a h => ?_) h _
    obtain ⟨tokens, form⟩ := a
    cases tokens with
    | nil => exact h.push _
    | cons token _ => exact h.waitFor _ _

theorem pack (h : Alike b b') (idx : Nat) (cat : ChartCat) (production : ChartProduction) :
    Alike (b.pack idx cat production) (b'.pack idx cat production) := by
  unfold Building.pack
  split
  · exact h
  · refine foldl (fun field h => ?_) ?_ _
    · simp only [h.index, h.step]
      split
      · exact h.push _
      · exact h
    · exact ⟨h.concrete, h.history, by simp only [h.step], h.agenda, h.fault⟩

theorem addCategory (h : Alike b b') (ref : ItemSetRef) (set : ItemSet)
    (production : ChartProduction) :
    Alike (b.addCategory ref set production) (b'.addCategory ref set production) := by
  simp only [Building.addCategory, h.fieldCount, h.index, h.step]
  refine foldl (fun waiting h => h.combine waiting _) ?_ _
  exact ⟨h.concrete, h.history, rfl, h.agenda, h.fault⟩

theorem complete (h : Alike b b') (item : Item) : Alike (b.complete item) (b'.complete item) := by
  have hcount : ∀ k k', Alike { b with counters := k }
      { b' with step := b.step, counters := k' } := fun _ _ =>
    ⟨h.concrete, h.history, rfl, h.agenda, h.fault⟩
  have hset (k) : itemSet? { b with counters := k } item.set = b.itemSet? item.set := rfl
  have hset' (k) : itemSet? { b' with step := b.step, counters := k } item.set =
      b.itemSet? item.set := by
    simp only [itemSet?, (hcount b.counters k).step?]
  unfold Building.complete
  dsimp only
  rw [h.step, hset, hset']
  split
  · split
    · exact (hcount _ _).pack _ _ _
    · exact (hcount _ _).fail _
  · cases b.itemSet? item.set with
    | none => exact (hcount _ _).fail _
    | some set => exact (hcount _ _).addCategory _ _ _

/-! ## Rounds -/

theorem process (h : Alike b b') (item : Item) : Alike (b.process item) (b'.process item) := by
  have hcount : ∀ k k', Alike { b with counters := k }
      { b' with concrete := b.concrete, counters := k' } := fun _ _ =>
    ⟨rfl, h.history, h.step, h.agenda, h.fault⟩
  simp only [Building.process, h.concrete]
  split
  · exact (hcount _ _).fail _
  · exact (hcount _ _).complete _
  · exact (hcount _ _).predict _ _ _
  · exact hcount _ _
  · split
    · exact (hcount _ _).waitFor _ _
    · exact (hcount _ _).push _
  · exact (hcount _ _).awaitVariants _ _

theorem scan (h : Alike b b') (item : Item) : Alike (b.scan item) (b'.scan item) := by
  have hcount : ∀ k k', Alike { b with counters := k }
      { b' with concrete := b.concrete, counters := k' } := fun _ _ =>
    ⟨rfl, h.history, h.step, h.agenda, h.fault⟩
  simp only [Building.scan, h.concrete]
  split
  · exact h.fail _
  · exact (hcount _ _).push _
  · exact (hcount _ _).push _
  · exact h.fail _

theorem predictTop (h : Alike b b') (ids : List InstanceId) (field : Nat) :
    Alike (b.predictTop ids field) (b'.predictTop ids field) := by
  refine foldl (fun id h => ?_) h _
  simp only [addItemSet, h.step, h.index]
  split
  · exact h
  · refine expand ?_ _ _ _
    exact ⟨h.concrete, h.history, rfl, h.agenda, h.fault⟩

/-- One round of work. -/
theorem next? (h : Alike b b') :
    b.next? = none ∧ b'.next? = none ∨
      ∃ b₁ b₁', b.next? = some b₁ ∧ b'.next? = some b₁' ∧ Alike b₁ b₁' := by
  unfold Building.next?
  rw [h.fault, h.agenda]
  split
  · refine .inr ⟨_, _, rfl, rfl, process ?_ _⟩
    exact ⟨h.concrete, h.history, h.step, rfl, rfl⟩
  · exact .inl ⟨rfl, rfl⟩

/-- All rounds. -/
theorem run (h : Alike b b') (limit : Nat) :
    b.run limit = none ∧ b'.run limit = none ∨
      ∃ b₁ b₁', b.run limit = some b₁ ∧ b'.run limit = some b₁' ∧ Alike b₁ b₁' := by
  induction limit generalizing b b' with
  | zero =>
    unfold Building.run
    rcases h.next? with ⟨hnone, hnone'⟩ | ⟨b₁, b₁', hnext, hnext', -⟩
    · simp only [hnone, hnone']
      exact .inr ⟨_, _, rfl, rfl, h⟩
    · simp only [hnext, hnext']
      exact .inl ⟨rfl, rfl⟩
  | succ limit ih =>
    unfold Building.run
    rcases h.next? with ⟨hnone, hnone'⟩ | ⟨b₁, b₁', hnext, hnext', h₁⟩
    · rw [hnone, hnone']
      exact .inr ⟨_, _, rfl, rfl, h⟩
    · rw [hnext, hnext']
      exact ih h₁

/-- The finished step. -/
theorem finish (h : Alike b b') (limit : Nat) : (b'.finish limit).1 = (b.finish limit).1 := by
  unfold Building.finish
  rcases h.run limit with ⟨hrun, hrun'⟩ | ⟨b₁, b₁', hrun, hrun', h₁⟩
  · rw [hrun, hrun']
  · rw [hrun, hrun']
    dsimp only
    rw [h₁.fault, h₁.step]
    split <;> rfl

end Alike

theorem alike_start (c : Concrete) (history : Array Step) (token : Option Sym)
    (counters counters' : Counters) :
    Alike (start c history token counters) (start c history token counters') :=
  ⟨rfl, rfl, rfl, rfl, rfl⟩

end Building

namespace Chart

/-- The chart before any input is the same, whatever was counted before. -/
theorem parse_counters (limit : Nat) (symbols : SymbolStore) (c : Concrete) (cat : String)
    (field : Nat) (counters counters' : Counters) :
    (parse limit symbols c cat field counters').1 =
      (parse limit symbols c cat field counters).1 := by
  unfold parse
  split
  · rfl
  · rename_i category _
    have hfinish := ((Building.alike_start c #[] none counters counters').predictTop
      category.instances field).finish limit
    dsimp only
    split <;> split <;> simp_all

/-- So is the chart after a token. -/
theorem feed_counters (limit : Nat) (symbols : SymbolStore) (chart : Chart) (token : String)
    (counters counters' : Counters) :
    (chart.feed limit symbols token counters').1 = (chart.feed limit symbols token counters).1 := by
  unfold feed
  split
  · rfl
  · rename_i sym items _
    have hfinish := (Building.Alike.foldl (fun item h => h.scan item)
      (Building.alike_start chart.concrete chart.steps (some sym) counters counters')
      (items.filterMap (chart.last.items[·]?))).finish limit
    dsimp only
    split <;> split <;> simp_all

end Chart

end Polyglot
