import Polyglot.Proofs.Chart.Journal
import Polyglot.Proofs.Chart.Representation

/-!
# What is due in a step

An item that waits for a category is due with each way to complete it, and what is predicted of a
category of the chart is due with each of its productions. It does not matter which of the two comes
first, but there are four operations that make something due: an item joins others that wait for
what is complete already, a category of the chart is predicted, a production is added to a category
that was predicted before, and a category is completed that items wait for.

- `Building.Due`: all that is due, and `Building.Right`: with which item.
- `Building.Steady`: an operation that makes nothing due.
- `Building.due_joined`, `due_predicted`, `due_packed`, `due_closed`: what the others make due.
-/

namespace Polyglot

/-- An item that needs a category comes to a field of an argument. -/
theorem Concrete.constituent?_of_need_category {c : Concrete} {item : Item} {arg field : Nat}
    (h : c.need item = .ok (.category arg field)) :
    c.constituent? item = some (.sub arg field) := by
  rcases Concrete.need_eq_ok h with ⟨x, hx, hneed⟩ | ⟨-, hneed⟩
  · cases x <;> cases hneed
    exact hx
  · cases hneed

namespace Building

variable {c : Concrete} {ids : List InstanceId} {goal : Nat} {firstId : Int} {b b' : Building}
  {item i : Item} {cause : Cause}

/-! ## What is due -/

/-- An item is due for a cause: it waits for a category of this step, or what is predicted here has
the production. -/
def Due (b : Building) : Cause → Prop
  | .combined r C =>
    C.step = b.index ∧ ∃ S X f n, b.facts (.closes C S X f n) ∧ b.facts (.waits S r)
  | .started S q =>
    S.step = b.index ∧ ∃ C f top, b.facts (.predicts S (.chart C) f top) ∧ b.facts (.produces C q)
  | .offered _ | .passed _ => False

/-- An item is the right one for a cause. -/
def Right (b : Building) : Cause → Item → Prop
  | .combined r C, i =>
    ∃ w arg f, b.facts (.item r w) ∧ b.concrete.constituent? w = some (.sub arg f) ∧
      i = w.resume arg C
  | .started S q, i =>
    ∃ X f top, b.facts (.predicts S X f top) ∧ i = { set := S, production := q, field := f }
  | .offered S, i => i.set = S ∧ ∃ id f top, b.facts (.predicts S (.grammar id) f top)
  | .passed _, i => 0 < i.dot

/-- What is due stays due. -/
theorem Due.mono (hindex : b'.index = b.index) (hfacts : ∀ φ, b.facts φ → b'.facts φ)
    (h : b.Due cause) : b'.Due cause := by
  cases cause with
  | combined r C =>
    obtain ⟨hC, S, X, f, n, hdone, hwaits⟩ := h
    exact ⟨hC.trans hindex.symm, S, X, f, n, hfacts _ hdone, hfacts _ hwaits⟩
  | started S q =>
    obtain ⟨hS, C, f, top, hset, hproduces⟩ := h
    exact ⟨hS.trans hindex.symm, C, f, top, hfacts _ hset, hfacts _ hproduces⟩
  | offered S => exact h
  | passed i => exact h

/-- What is right stays right. -/
theorem Right.mono (hconcrete : b'.concrete = b.concrete) (hfacts : ∀ φ, b.facts φ → b'.facts φ)
    (h : b.Right cause i) : b'.Right cause i := by
  cases cause with
  | combined r C =>
    obtain ⟨w, arg, f, hw, hx, hi⟩ := h
    exact ⟨w, arg, f, hfacts _ hw, hconcrete ▸ hx, hi⟩
  | started S q =>
    obtain ⟨X, f, top, hset, hi⟩ := h
    exact ⟨X, f, top, hfacts _ hset, hi⟩
  | offered S =>
    obtain ⟨hS, id, f, top, hset⟩ := h
    exact ⟨hS, id, f, top, hfacts _ hset⟩
  | passed i => exact h

/-- What has to be known of a step to account for all that is due in it. -/
structure Accountable (c : Concrete) (ids : List InstanceId) (goal : Nat) (b : Building) :
    Prop where
  concrete : b.concrete = c
  facts : Polyglot.Coherent c ids goal b.facts
  productions : ∀ {C : ChartCatId} {cat : ChartCat}, b.category? C = some cat →
    cat.productions.Nodup
  waiting : ∀ {S : ItemSetRef} {set : ItemSet}, b.itemSet? S = some set → set.waiting.Nodup

/-- A step that is well kept, after steps that are. -/
theorem Upkept.accountable (h : b.Upkept c ids goal firstId) (hhistory : UpkeptSteps b.history) :
    b.Accountable c ids goal where
  concrete := h.coherent.concrete
  facts := h.coherent.facts
  productions {C cat} hcat := by
    unfold category? step? at hcat
    split at hcat
    · exact h.distinct cat (Array.mem_of_getElem? hcat)
    · obtain ⟨s, hs, hcat⟩ := Option.bind_eq_some_iff.1 hcat
      exact hhistory.distinct s (Array.mem_of_getElem? hs) cat (Array.mem_of_getElem? hcat)
  waiting {S set} hset := by
    unfold itemSet? step? at hset
    split at hset
    · exact (h.queued set (Array.mem_of_getElem? hset)).1
    · obtain ⟨s, hs, hset⟩ := Option.bind_eq_some_iff.1 hset
      exact (hhistory.queued _ s hs set (Array.mem_of_getElem? hset)).1

theorem Accountable.nodup_productions (h : b.Accountable c ids goal) (C : ChartCatId) :
    (b.productions (.chart C)).Nodup := by
  rw [Building.productions]
  cases hC : b.category? C with
  | none => exact .nil
  | some cat => exact h.productions hC

/-- Counting changes nothing of this. -/
theorem Accountable.of_sameChart (h : b.Accountable c ids goal) (hsame : b.SameChart b') :
    b'.Accountable c ids goal := by
  have hcategory : ∀ C, b'.category? C = b.category? C := fun C => by
    simp only [category?, step?, hsame.index_eq, hsame.step, hsame.history]
  have hitemSet : ∀ S, b'.itemSet? S = b.itemSet? S := fun S => by
    simp only [itemSet?, step?, hsame.index_eq, hsame.step, hsame.history]
  refine ⟨hsame.concrete.trans h.concrete, by rw [hsame.facts_eq]; exact h.facts, ?_, ?_⟩
  · intro C cat hcat
    rw [hcategory] at hcat
    exact h.productions hcat
  · intro S set hset
    rw [hitemSet] at hset
    exact h.waiting hset

/-! ## What makes nothing due -/

/-- Nothing that is known is lost, and nothing becomes due. -/
structure Steady (b b' : Building) : Prop where
  concrete : b'.concrete = b.concrete
  history : b'.history = b.history
  facts : ∀ φ, b.facts φ → b'.facts φ
  due : ∀ cause, b'.Due cause → b.Due cause

theorem Steady.due_iff (h : Steady b b') (cause : Cause) : b'.Due cause ↔ b.Due cause :=
  ⟨h.due cause, .mono (by rw [index, index, h.history]) h.facts⟩

theorem SameChart.steady (h : b.SameChart b') : Steady b b' :=
  ⟨h.concrete, h.history, fun φ hφ => by rwa [h.facts_eq],
    fun _ => .mono h.index_eq.symm fun φ hφ => by rwa [h.facts_eq] at hφ⟩

theorem Steady.of_count (counters : Counters) (h : Steady { b with counters } b') : Steady b b' :=
  ⟨h.concrete, h.history, h.facts, h.due⟩

/-- An item that waits for a token makes nothing due. -/
theorem Adds.steady {new : Fact → Prop} {items : Item → Prop} (h : b.Adds b' new items)
    (hnew : ∀ φ, new φ → (∃ r i, φ = .item r i) ∨ ∃ k t idx, φ = .awaits k t idx) :
    Steady b b' := by
  have hold : ∀ φ, b'.facts φ → (∀ r i, φ ≠ .item r i) → (∀ k t idx, φ ≠ .awaits k t idx) →
      b.facts φ := by
    intro φ hφ hitem hawaits
    rcases (h.facts φ).1 hφ with hφ | hφ
    · exact hφ
    · rcases hnew φ hφ with ⟨r, i, rfl⟩ | ⟨k, t, idx, rfl⟩
      · exact absurd rfl (hitem r i)
      · exact absurd rfl (hawaits k t idx)
  refine ⟨h.concrete, h.history, fun φ hφ => (h.facts φ).2 (.inl hφ), fun cause hdue => ?_⟩
  cases cause with
  | combined r C =>
    obtain ⟨hC, S, X, f, n, hdone, hwaits⟩ := hdue
    exact ⟨hC.trans h.index, S, X, f, n, hold _ hdone nofun nofun, hold _ hwaits nofun nofun⟩
  | started S q =>
    obtain ⟨hS, C, f, top, hset, hproduces⟩ := hdue
    exact ⟨hS.trans h.index, C, f, top, hold _ hset nofun nofun, hold _ hproduces nofun nofun⟩
  | offered S => exact hdue
  | passed i => exact hdue

theorem steady_waitFor (b : Building) (t : Sym) (item : Item) : Steady b (b.waitFor t item) :=
  (b.adds_waitFor t item).steady fun _ h =>
    h.imp (fun h => ⟨_, _, h⟩) fun h => ⟨_, _, _, h⟩

theorem steady_awaitVariants (b : Building) (v : Variants) (item : Item) :
    Steady b (b.awaitVariants v item) := by
  unfold awaitVariants
  split
  · split
    · exact b.steady_waitFor _ _
    · exact SameChart.steady ⟨rfl, rfl, rfl⟩
  · obtain ⟨waits, -, -, hadds⟩ := exists_adds_forms item v.distinctForms b
    refine hadds.steady ?_
    rintro φ ⟨t, i, idx, -, h⟩
    exact h.imp (fun h => ⟨_, _, h⟩) fun h => ⟨_, _, _, h⟩

/-- An item that needs no category makes nothing due. -/
theorem steady_process (hcomplete : b.concrete.need item ≠ .ok .complete)
    (hcategory : ∀ arg f, b.concrete.need item ≠ .ok (.category arg f)) :
    Steady b (b.process item) := by
  refine Steady.of_count { b.counters with items := b.counters.items + 1 } ?_
  unfold process
  dsimp only
  split
  · exact SameChart.steady ⟨rfl, rfl, rfl⟩
  · rename_i hneed
    exact absurd hneed hcomplete
  · rename_i hneed
    exact absurd hneed (hcategory _ _)
  · exact SameChart.steady ⟨rfl, rfl, rfl⟩
  · split
    · exact steady_waitFor ..
    · exact SameChart.steady ⟨rfl, rfl, rfl⟩
  · exact steady_awaitVariants ..

/-! ## What makes something due -/

@[simp] theorem index_joined (b : Building) (item : Item) (s : Nat) :
    (b.joined item s).index = b.index := rfl

@[simp] theorem index_predicted (b : Building) (item : Item) (X : CatRef) (f : Nat) :
    (b.predicted item X f).index = b.index := rfl

@[simp] theorem index_packed (b : Building) (idx : Nat) (q : ChartProduction) :
    (b.packed idx q).index = b.index := rfl

@[simp] theorem index_closed (b : Building) (S : ItemSetRef) (set : ItemSet)
    (q : ChartProduction) : (b.closed S set q).index = b.index := rfl

theorem category?_here (b : Building) (idx : Nat) :
    b.category? ⟨b.index, idx⟩ = b.step.cats[idx]? := by
  simp [category?, step?]

/-- A place that is free holds no item. -/
theorem not_item_size : ¬ b.facts (.item ⟨b.index, b.step.items.size⟩ item) := by
  rintro ⟨k, s, hs, rfl, hitem⟩
  rw [index, Array.getElem?_push_size] at hs
  cases hs
  simp at hitem

theorem facts_joined {s : Nat} (hs : s < b.step.itemSets.size) (item : Item) (φ : Fact) :
    (b.joined item s).facts φ ↔ b.facts φ ∨ φ = .item ⟨b.index, b.step.items.size⟩ item ∨
      φ = .waits ⟨b.index, s⟩ ⟨b.index, b.step.items.size⟩ := by
  have hjoin := (b.store item).2.adds_step _ b.counters fun φ => Step.says_join (φ := φ)
    (s := (b.store item).2.step) hs ⟨b.index, b.step.items.size⟩
  rw [← or_assoc]
  exact (hjoin.facts φ).trans (or_congr_left ((b.adds_store item).facts φ))

theorem facts_predicted (item : Item) (X : CatRef) (f : Nat) (φ : Fact) :
    (b.predicted item X f).facts φ ↔ b.facts φ ∨ φ = .item ⟨b.index, b.step.items.size⟩ item ∨
      φ = .predicts ⟨b.index, b.step.itemSets.size⟩ X f false ∨
      φ = .waits ⟨b.index, b.step.itemSets.size⟩ ⟨b.index, b.step.items.size⟩ := by
  have hadds := (b.store item).2.adds_addItemSet ⟨X, f, false, [⟨b.index, b.step.items.size⟩]⟩
  rw [← or_assoc]
  refine (hadds.facts φ).trans (or_congr ((b.adds_store item).facts φ) ?_)
  simp only [List.mem_singleton, exists_eq_left]
  rfl

theorem facts_packed {idx : Nat} (hidx : idx < b.step.cats.size) (q : ChartProduction) (φ : Fact) :
    (b.packed idx q).facts φ ↔ b.facts φ ∨ φ = .produces ⟨b.index, idx⟩ q :=
  (b.adds_step _ b.counters fun _ => Step.says_pack hidx q).facts φ

theorem facts_closed (S : ItemSetRef) (set : ItemSet) (q : ChartProduction) (φ : Fact) :
    (b.closed S set q).facts φ ↔ b.facts φ ∨
      φ = .closes ⟨b.index, b.step.cats.size⟩ S set.cat set.field (b.fieldCount set.cat) ∨
      φ = .produces ⟨b.index, b.step.cats.size⟩ q ∨
      (set.top = true ∧ φ = .spans b.index ⟨b.index, b.step.cats.size⟩) := by
  refine ((b.adds_step _ _ fun _ => Step.says_push_cat _ set.top).facts φ).trans ?_
  simp

/-- An item that joins others goes on with the category that is complete, if there is one. -/
def owedJoined (b : Building) (s : Nat) : List Cause :=
  ((b.step.findCategory? ⟨b.index, s⟩).map fun d =>
    .combined ⟨b.index, b.step.items.size⟩ ⟨b.index, d⟩).toList

theorem due_joined (hF : Polyglot.Coherent c ids goal b.facts) {s : Nat}
    (hs : s < b.step.itemSets.size) (item : Item) (cause : Cause) :
    (b.joined item s).Due cause ↔ b.Due cause ∨ cause ∈ b.owedJoined s := by
  cases cause with
  | combined r C =>
    constructor
    · rintro ⟨hC, S, X, f, n, hdone, hwaits⟩
      simp only [facts_joined hs, reduceCtorEq, or_false, false_or] at hdone hwaits
      rcases hwaits with hwaits | hwaits
      · exact .inl ⟨hC, S, X, f, n, hdone, hwaits⟩
      · cases hwaits
        right
        cases hfind : b.step.findCategory? ⟨b.index, s⟩ with
        | none => exact absurd hdone (not_closes_of_findCategory? hfind hC)
        | some d =>
          obtain ⟨Y, g, m, hdone'⟩ := closes_of_findCategory? hfind
          have hCd := hF.closes_once _ _ _ _ _ _ _ _ _ hdone hdone' hC
          simp [owedJoined, hfind, hCd]
    · rintro (hold | hnew)
      · refine hold.mono (b.index_joined item s) fun φ hφ => ?_
        exact (facts_joined hs item φ).2 (.inl hφ)
      · obtain ⟨d, hfind, heq⟩ : ∃ d, b.step.findCategory? ⟨b.index, s⟩ = some d ∧
            Cause.combined ⟨b.index, b.step.items.size⟩ ⟨b.index, d⟩ = .combined r C := by
          simpa [owedJoined] using hnew
        cases heq
        obtain ⟨Y, g, m, hdone⟩ := closes_of_findCategory? hfind
        exact ⟨rfl, _, Y, g, m, (facts_joined hs item _).2 (.inl hdone),
          (facts_joined hs item _).2 (.inr (.inr rfl))⟩
  | started S q =>
    simp [Due, facts_joined hs, owedJoined]
  | offered S => simp [Due, owedJoined]
  | passed i => simp [Due, owedJoined]

/-- A category of the chart begins with all its productions when it is predicted. -/
theorem due_predicted (hF : Polyglot.Coherent c ids goal b.facts) (item : Item) (X : CatRef)
    (f : Nat) (hchart : cause.inChart = true) :
    (b.predicted item X f).Due cause ↔ b.Due cause ∨
      cause ∈ (b.productions X).map (Cause.ofStart ⟨b.index, b.step.itemSets.size⟩ X) := by
  cases cause with
  | combined r C =>
    have hnone : Cause.combined r C ∉
        (b.productions X).map (Cause.ofStart ⟨b.index, b.step.itemSets.size⟩ X) := by
      cases X <;> simp [Cause.ofStart]
    simp only [Due, facts_predicted, reduceCtorEq, or_false, false_or, index_predicted, hnone]
    refine and_congr_right fun _ => ?_
    constructor
    · rintro ⟨S, Y, g, n, hdone, hwaits | hwaits⟩
      · exact ⟨S, Y, g, n, hdone, hwaits⟩
      · cases hwaits
        -- Nothing completes a set that is new.
        obtain ⟨⟨top, hset⟩, -⟩ := hF.rests _ hdone
        exact absurd hset not_predicts_size
    · rintro ⟨S, Y, g, n, hdone, hwaits⟩
      exact ⟨S, Y, g, n, hdone, .inl hwaits⟩
  | started S q =>
    simp only [Due, facts_predicted, reduceCtorEq, or_false, false_or, index_predicted,
      List.mem_map]
    constructor
    · rintro ⟨hS, C, g, top, hset | hset, hproduces⟩
      · exact .inl ⟨hS, C, g, top, hset, hproduces⟩
      · cases hset
        exact .inr ⟨q, mem_productions_iff.2 hproduces, rfl⟩
    · rintro (⟨hS, C, g, top, hset, hproduces⟩ | ⟨q', hq', heq⟩)
      · exact ⟨hS, C, g, top, .inl hset, hproduces⟩
      · cases X with
        | grammar id => cases heq
        | chart C =>
          cases heq
          exact ⟨rfl, C, f, false, .inr rfl, mem_productions_iff.1 hq'⟩
  | offered S => cases hchart
  | passed i => cases hchart

/-- A production of a category starts for a field of the category, if that is predicted here. -/
def owedPacked (b : Building) (idx : Nat) (q : ChartProduction) (field : Nat) : List Cause :=
  ((b.step.findItemSet? (.chart ⟨b.index, idx⟩) field).map fun s =>
    .started ⟨b.index, s⟩ q).toList

/-- One that is added starts for all of them. -/
theorem due_packed (hF : Polyglot.Coherent c ids goal b.facts) {idx : Nat} {cat : ChartCat}
    (hcat : b.step.cats[idx]? = some cat) (q : ChartProduction) (cause : Cause) :
    (b.packed idx q).Due cause ↔ b.Due cause ∨
      cause ∈ (List.range cat.fieldCount).flatMap (b.owedPacked idx q) := by
  have hidx := (Array.getElem?_eq_some_iff.1 hcat).1
  have hdone : b.facts (.closes ⟨b.index, idx⟩ cat.set cat.cat cat.field cat.fieldCount) :=
    closes_iff.2 ⟨cat, by rw [category?_here, hcat], rfl, rfl, rfl, rfl⟩
  cases cause with
  | combined r C => simp [Due, facts_packed hidx, owedPacked]
  | started S q' =>
    simp only [Due, facts_packed hidx, reduceCtorEq, or_false, index_packed, owedPacked,
      List.mem_flatMap, List.mem_range, Option.mem_toList, Option.map_eq_some_iff]
    constructor
    · rintro ⟨hS, C, g, top, hset, hproduces | hproduces⟩
      · exact .inl ⟨hS, C, g, top, hset, hproduces⟩
      · cases hproduces
        right
        obtain ⟨-, -, hread⟩ := hF.rests _ hset
        obtain ⟨n, hn, hlt⟩ := hread _ rfl
        obtain rfl := hn.unique hF.functional ⟨_, _, _, hdone⟩
        refine ⟨g, hlt, ?_⟩
        cases hfind : b.step.findItemSet? (.chart ⟨b.index, idx⟩) g with
        | none => exact absurd hset (not_predicts_of_findItemSet? hfind hS)
        | some s =>
          obtain ⟨top', hset'⟩ := predicts_of_findItemSet? hfind
          exact ⟨s, rfl, by rw [hF.predicts_once _ _ _ _ _ _ hset hset' hS]⟩
    · rintro (⟨hS, C, g, top, hset, hproduces⟩ | ⟨g, -, s, hfind, heq⟩)
      · exact ⟨hS, C, g, top, hset, .inl hproduces⟩
      · cases heq
        obtain ⟨top, hset⟩ := predicts_of_findItemSet? hfind
        exact ⟨rfl, _, g, top, hset, .inr rfl⟩
  | offered S => simp [Due, owedPacked]
  | passed i => simp [Due, owedPacked]

/-- It starts once for each. -/
theorem nodup_owedPacked (b : Building) (idx : Nat) (q : ChartProduction) (n : Nat) :
    ((List.range n).flatMap (b.owedPacked idx q)).Nodup := by
  refine List.nodup_flatMap.2 ⟨fun g _ => ?_, List.nodup_range.imp fun {g g'} hne => ?_⟩
  · unfold owedPacked
    cases b.step.findItemSet? (.chart ⟨b.index, idx⟩) g <;> simp
  · intro cause hcause hcause'
    obtain ⟨s, hs, rfl⟩ : ∃ s, b.step.findItemSet? (.chart ⟨b.index, idx⟩) g = some s ∧
        .started ⟨b.index, s⟩ q = cause := by simpa [owedPacked] using hcause
    have hs' : b.step.findItemSet? (.chart ⟨b.index, idx⟩) g' = some s := by
      simpa [owedPacked] using hcause'
    obtain ⟨top, hset⟩ := predicts_of_findItemSet? hs
    obtain ⟨top', hset'⟩ := predicts_of_findItemSet? hs'
    exact hne ((chartFacts_functional _).predicts _ _ _ _ _ _ _ hset hset').2.1

/-- All that waits for a category goes on when it is completed. -/
theorem due_closed (hF : Polyglot.Coherent c ids goal b.facts) {S : ItemSetRef} {set : ItemSet}
    (hset : b.itemSet? S = some set) (q : ChartProduction) (cause : Cause) :
    (b.closed S set q).Due cause ↔ b.Due cause ∨
      cause ∈ set.waiting.map (.combined · ⟨b.index, b.step.cats.size⟩) := by
  have hwaiting : ∀ r, b.facts (.waits S r) ↔ r ∈ set.waiting := fun r => by
    rw [waits_iff, hset]
    simp
  cases cause with
  | combined r C =>
    simp only [Due, facts_closed, reduceCtorEq, or_false, and_false, index_closed, List.mem_map]
    constructor
    · rintro ⟨hC, S', X, f, n, hdone | hdone, hwaits⟩
      · exact .inl ⟨hC, S', X, f, n, hdone, hwaits⟩
      · cases hdone
        exact .inr ⟨r, (hwaiting r).1 hwaits, rfl⟩
    · rintro (⟨hC, S', X, f, n, hdone, hwaits⟩ | ⟨r', hr', heq⟩)
      · exact ⟨hC, S', X, f, n, .inl hdone, hwaits⟩
      · cases heq
        exact ⟨rfl, S, _, _, _, .inr rfl, (hwaiting r).2 hr'⟩
  | started S' q' =>
    simp only [Due, facts_closed, reduceCtorEq, or_false, false_or, and_false, index_closed,
      List.mem_map, exists_false]
    constructor
    · rintro ⟨hS, C, f, top, hpredicts, hproduces | hproduces⟩
      · exact ⟨hS, C, f, top, hpredicts, hproduces⟩
      · cases hproduces
        -- Nothing that is predicted is of a category that is new.
        obtain ⟨⟨n, S₀, X, g, hdone⟩, -⟩ := hF.rests _ hpredicts
        rcases before_size hdone with hlt | ⟨-, hlt⟩ <;> exact absurd hlt (Nat.lt_irrefl _)
    · rintro ⟨hS, C, f, top, hpredicts, hproduces⟩
      exact ⟨hS, C, f, top, hpredicts, .inl hproduces⟩
  | offered S => simp [Due]
  | passed i => simp [Due]

end Building

end Polyglot
