import Polyglot.Chart
import Polyglot.Proofs.Grammar.Productions

/-!
# What is known in a chart

A chart only ever learns. What it has learned is a set of facts: which items are stored, which
fields are predicted and who waits for them, which categories are complete and what produces them.
An operation on a step adds facts to this set and items to the agenda, and nothing else that could
matter to another operation; so all that is said about charts is said about sets of facts.

- `Fact`: a piece of what is known, and `chartFacts`: all that a sequence of steps knows.
- `Building.Adds`: what an operation adds.
- `chartFacts_functional`: a reference leads to one thing only.
-/

namespace Polyglot

/-- A category is of an earlier step than another, or of the same and was completed earlier. -/
def ChartCatId.Before (C C' : ChartCatId) : Prop :=
  C.step < C'.step ∨ C.step = C'.step ∧ C.idx < C'.idx

/-- A piece of what is known in a chart. -/
inductive Fact where
  /-- An item is stored. -/
  | item (r : ItemRef) (item : Item)
  /-- A field of a category is predicted, maybe as a goal of the whole input. -/
  | predicts (set : ItemSetRef) (cat : CatRef) (field : Nat) (top : Bool)
  /-- A stored item waits for what an item set predicts. -/
  | waits (set : ItemSetRef) (r : ItemRef)
  /-- A category completes an item set, and with it a field of another category. -/
  | closes (done : ChartCatId) (set : ItemSetRef) (cat : CatRef) (field fieldCount : Nat)
  /-- A production of a category. -/
  | produces (done : ChartCatId) (production : ChartProduction)
  /-- The item at a place of a step waits for a token. -/
  | awaits (step : Nat) (token : Sym) (idx : Nat)
  /-- A category spans the input up to a step. -/
  | spans (step : Nat) (done : ChartCatId)

namespace Step

/-- What the step at a position says. -/
def Says (k : Nat) (s : Step) : Fact → Prop
  | .item r item => r.step = k ∧ s.items[r.idx]? = some item
  | .predicts set cat field top =>
    set.step = k ∧ ∃ entry, s.itemSets[set.idx]? = some entry ∧
      entry.cat = cat ∧ entry.field = field ∧ entry.top = top
  | .waits set r => set.step = k ∧ ∃ entry, s.itemSets[set.idx]? = some entry ∧ r ∈ entry.waiting
  | .closes done set cat field fieldCount =>
    done.step = k ∧ ∃ entry, s.cats[done.idx]? = some entry ∧
      entry.set = set ∧ entry.cat = cat ∧ entry.field = field ∧ entry.fieldCount = fieldCount
  | .produces done production =>
    done.step = k ∧ ∃ entry, s.cats[done.idx]? = some entry ∧ production ∈ entry.productions
  | .awaits step token idx => step = k ∧ (token, idx) ∈ s.transitions
  | .spans step done => step = k ∧ done ∈ s.completed

end Step

/-- The step that a fact is about. -/
def Fact.step : Fact → Nat
  | .item r _ => r.step
  | .predicts set .. => set.step
  | .waits set _ => set.step
  | .closes done .. => done.step
  | .produces done _ => done.step
  | .awaits step .. => step
  | .spans step _ => step

theorem Step.Says.step_eq {k : Nat} {s : Step} {φ : Fact} (h : s.Says k φ) : φ.step = k := by
  cases φ <;> exact h.1

/-- All that a sequence of steps knows. -/
def chartFacts (steps : Array Step) (φ : Fact) : Prop :=
  ∃ (k : Nat) (s : Step), steps[k]? = some s ∧ s.Says k φ

theorem chartFacts_push {history : Array Step} {s : Step} {φ : Fact} :
    chartFacts (history.push s) φ ↔ chartFacts history φ ∨ s.Says history.size φ := by
  simp only [chartFacts, Array.getElem?_push]
  constructor
  · rintro ⟨k, s', hk, hsaid⟩
    split at hk
    · rename_i heq
      cases hk
      exact .inr (heq ▸ hsaid)
    · exact .inl ⟨k, s', hk, hsaid⟩
  · rintro (⟨k, s', hk, hsaid⟩ | hsaid)
    · have hlt : k < history.size := (Array.getElem?_eq_some_iff.1 hk).1
      exact ⟨k, s', by rw [if_neg (by omega)]; exact hk, hsaid⟩
    · exact ⟨history.size, s, by simp, hsaid⟩

/-- A fact is about one of the steps. -/
theorem step_lt_of_chartFacts {steps : Array Step} {φ : Fact} (h : chartFacts steps φ) :
    φ.step < steps.size := by
  obtain ⟨k, s, hk, hsaid⟩ := h
  rw [hsaid.step_eq]
  exact (Array.getElem?_eq_some_iff.1 hk).1

/-- A new step with nothing in it knows nothing. -/
theorem chartFacts_push_empty (history : Array Step) (token : Option Sym) (firstId : Int) :
    chartFacts (history.push { token, firstId }) = chartFacts history := by
  funext φ
  rw [chartFacts_push, eq_iff_iff, or_iff_left]
  cases φ <;> simp [Step.Says]

/-! ## References lead to one thing only -/

/-- References lead to one thing only. -/
structure Functional (F : Fact → Prop) : Prop where
  item : ∀ r i i', F (.item r i) → F (.item r i') → i = i'
  predicts : ∀ S X f top X' f' top', F (.predicts S X f top) → F (.predicts S X' f' top') →
    X = X' ∧ f = f' ∧ top = top'
  closes : ∀ C S X f n S' X' f' n', F (.closes C S X f n) → F (.closes C S' X' f' n') →
    S = S' ∧ X = X' ∧ f = f' ∧ n = n'

theorem chartFacts_functional (steps : Array Step) : Functional (chartFacts steps) where
  item := by
    rintro r i i' ⟨k, s, hk, hr, hi⟩ ⟨k', s', hk', hr', hi'⟩
    subst hr hr'
    cases hk.symm.trans hk'
    cases hi.symm.trans hi'
    rfl
  predicts := by
    rintro S X f top X' f' top' ⟨k, s, hk, hr, e, he, rfl, rfl, rfl⟩
      ⟨k', s', hk', hr', e', he', rfl, rfl, rfl⟩
    subst hr hr'
    cases hk.symm.trans hk'
    cases he.symm.trans he'
    exact ⟨rfl, rfl, rfl⟩
  closes := by
    rintro C S X f n S' X' f' n' ⟨k, s, hk, hr, e, he, rfl, rfl, rfl, rfl⟩
      ⟨k', s', hk', hr', e', he', rfl, rfl, rfl, rfl⟩
    subst hr hr'
    cases hk.symm.trans hk'
    cases he.symm.trans he'
    exact ⟨rfl, rfl, rfl, rfl⟩

/-! ## Look-ups -/

/-- What a category offers: the productions of an instance, or those that the chart knows of. -/
def Offers (c : Concrete) (F : Fact → Prop) : CatRef → ChartProduction → Prop
  | .grammar id, q => ∃ p ∈ c.productionsOf id, q = .ofGrammar p
  | .chart done, q => F (.produces done q)

namespace Building

/-- All that is known while a step is built. -/
def facts (b : Building) : Fact → Prop := chartFacts (b.history.push b.step)

theorem step?_eq (b : Building) (k : Nat) : b.step? k = (b.history.push b.step)[k]? := by
  rw [step?, index, Array.getElem?_push]

theorem item?_eq_some_iff {b : Building} {r : ItemRef} {i : Item} :
    b.item? r = some i ↔ b.facts (.item r i) := by
  simp only [item?, Option.bind_eq_some_iff, step?_eq]
  constructor
  · rintro ⟨s, hs, hi⟩
    exact ⟨r.step, s, hs, rfl, hi⟩
  · rintro ⟨k, s, hs, rfl, hi⟩
    exact ⟨s, hs, hi⟩

theorem predicts_iff {b : Building} {S : ItemSetRef} {X : CatRef} {f : Nat}
    {top : Bool} : b.facts (.predicts S X f top) ↔
      ∃ set, b.itemSet? S = some set ∧ set.cat = X ∧ set.field = f ∧ set.top = top := by
  simp only [itemSet?, Option.bind_eq_some_iff, step?_eq]
  constructor
  · rintro ⟨k, s, hs, rfl, set, hset, h⟩
    exact ⟨set, ⟨s, hs, hset⟩, h⟩
  · rintro ⟨set, ⟨s, hs, hset⟩, h⟩
    exact ⟨S.step, s, hs, rfl, set, hset, h⟩

theorem waits_iff {b : Building} {S : ItemSetRef} {r : ItemRef} :
    b.facts (.waits S r) ↔ ∃ set, b.itemSet? S = some set ∧ r ∈ set.waiting := by
  simp only [itemSet?, Option.bind_eq_some_iff, step?_eq]
  constructor
  · rintro ⟨k, s, hs, rfl, set, hset, h⟩
    exact ⟨set, ⟨s, hs, hset⟩, h⟩
  · rintro ⟨set, ⟨s, hs, hset⟩, h⟩
    exact ⟨S.step, s, hs, rfl, set, hset, h⟩

theorem category?_iff {b : Building} {C : ChartCatId} {cat : ChartCat} :
    b.category? C = some cat ↔
      ∃ s, (b.history.push b.step)[C.step]? = some s ∧ s.cats[C.idx]? = some cat := by
  simp only [category?, Option.bind_eq_some_iff, step?_eq]

theorem closes_iff {b : Building} {C : ChartCatId} {S : ItemSetRef} {X : CatRef}
    {f n : Nat} : b.facts (.closes C S X f n) ↔
      ∃ cat, b.category? C = some cat ∧
        cat.set = S ∧ cat.cat = X ∧ cat.field = f ∧ cat.fieldCount = n := by
  simp only [category?_iff]
  constructor
  · rintro ⟨k, s, hs, rfl, cat, hcat, h⟩
    exact ⟨cat, ⟨s, hs, hcat⟩, h⟩
  · rintro ⟨cat, ⟨s, hs, hcat⟩, h⟩
    exact ⟨C.step, s, hs, rfl, cat, hcat, h⟩

theorem produces_iff {b : Building} {C : ChartCatId} {q : ChartProduction} :
    b.facts (.produces C q) ↔ ∃ cat, b.category? C = some cat ∧ q ∈ cat.productions := by
  simp only [category?_iff]
  constructor
  · rintro ⟨k, s, hs, rfl, cat, hcat, h⟩
    exact ⟨cat, ⟨s, hs, hcat⟩, h⟩
  · rintro ⟨cat, ⟨s, hs, hcat⟩, h⟩
    exact ⟨C.step, s, hs, rfl, cat, hcat, h⟩

theorem mem_productions_iff {b : Building} {X : CatRef} {q : ChartProduction} :
    q ∈ b.productions X ↔ Offers b.concrete b.facts X q := by
  cases X with
  | grammar id =>
    simp only [productions, Offers, Concrete.productionsOf, List.mem_map]
    exact exists_congr fun p => and_congr_right fun _ => eq_comm
  | chart done =>
    rw [Offers, produces_iff, productions]
    cases b.category? done <;> simp

/-- The number of fields that a complete category remembers. -/
theorem fieldCount_of_closes {b : Building} {C : ChartCatId} {S : ItemSetRef} {X : CatRef}
    {f n : Nat} (h : b.facts (.closes C S X f n)) : b.fieldCount (.chart C) = n := by
  obtain ⟨cat, hcat, -, -, -, rfl⟩ := closes_iff.1 h
  simp [fieldCount, hcat]

/-- The item set of this step that is found for a field of a category predicts it. -/
theorem predicts_of_findItemSet? {b : Building} {X : CatRef} {f i : Nat}
    (h : b.step.findItemSet? X f = some i) :
    ∃ top, b.facts (.predicts ⟨b.index, i⟩ X f top) := by
  obtain ⟨hi, heq, -⟩ := Array.findIdx?_eq_some_iff_getElem.1 h
  simp only [Bool.and_eq_true, decide_eq_true_eq] at heq
  exact ⟨_, b.index, b.step, by simp [index], rfl, _, Array.getElem?_eq_getElem hi, heq.1, heq.2,
    rfl⟩

/-- If none is found this step does not predict it. -/
theorem not_predicts_of_findItemSet? {b : Building} {X : CatRef} {f : Nat}
    (h : b.step.findItemSet? X f = none) {S : ItemSetRef} (hS : S.step = b.index) {top : Bool} :
    ¬ b.facts (.predicts S X f top) := by
  rintro ⟨k, s, hs, rfl, set, hset, rfl, rfl, -⟩
  rw [hS, index, Array.getElem?_push_size] at hs
  cases hs
  have := Array.findIdx?_eq_none_iff.1 h set (Array.mem_of_getElem? hset)
  simp at this

/-- The category of this step that is found for an item set completes it. -/
theorem closes_of_findCategory? {b : Building} {S : ItemSetRef} {i : Nat}
    (h : b.step.findCategory? S = some i) :
    ∃ X f n, b.facts (.closes ⟨b.index, i⟩ S X f n) := by
  obtain ⟨hi, heq, -⟩ := Array.findIdx?_eq_some_iff_getElem.1 h
  exact ⟨_, _, _, b.index, b.step, by simp [index], rfl, _, Array.getElem?_eq_getElem hi,
    by simpa using heq, rfl, rfl, rfl⟩

/-- If none is found this step does not complete it. -/
theorem not_closes_of_findCategory? {b : Building} {S : ItemSetRef}
    (h : b.step.findCategory? S = none) {C : ChartCatId} (hC : C.step = b.index) {X : CatRef}
    {f n : Nat} : ¬ b.facts (.closes C S X f n) := by
  rintro ⟨k, s, hs, rfl, cat, hcat, rfl, -⟩
  rw [hC, index, Array.getElem?_push_size] at hs
  cases hs
  have := Array.findIdx?_eq_none_iff.1 h cat (Array.mem_of_getElem? hcat)
  simp at this

/-- Places that are still free in this step. -/
theorem not_predicts_size {b : Building} {X : CatRef} {f : Nat} {top : Bool} :
    ¬ b.facts (.predicts ⟨b.index, b.step.itemSets.size⟩ X f top) := by
  rintro ⟨k, s, hs, rfl, set, hset, -⟩
  rw [index, Array.getElem?_push_size] at hs
  cases hs
  simp at hset

/-- All categories come before the next one. -/
theorem before_size {b : Building} {C : ChartCatId} {S : ItemSetRef} {X : CatRef} {f n : Nat}
    (h : b.facts (.closes C S X f n)) : C.Before ⟨b.index, b.step.cats.size⟩ := by
  have hlt := step_lt_of_chartFacts h
  rw [Array.size_push] at hlt
  obtain ⟨k, s, hs, rfl, cat, hcat, -⟩ := h
  by_cases hC : C.step = b.index
  · -- A category of this very step comes before by its place.
    rw [hC, index, Array.getElem?_push_size] at hs
    cases hs
    exact .inr ⟨hC, (Array.getElem?_eq_some_iff.1 hcat).1⟩
  · refine .inl ?_
    change C.step < b.index + 1 at hlt
    show C.step < b.index
    omega

end Building

/-! ## What operations add -/

namespace Step

variable {k : Nat} {s : Step} {φ : Fact}

theorem says_push_item (item : Item) :
    ({ s with items := s.items.push item } : Step).Says k φ ↔
      s.Says k φ ∨ φ = .item ⟨k, s.items.size⟩ item := by
  cases φ with
  | item r i =>
    obtain ⟨step, idx⟩ := r
    simp only [Says, Array.getElem?_push, Fact.item.injEq, ItemRef.mk.injEq]
    have hfree : s.items[s.items.size]? = none := by simp
    grind
  | _ => simp [Says]

theorem says_transition (token : Sym) (idx : Nat) :
    ({ s with transitions := s.transitions ++ [(token, idx)] } : Step).Says k φ ↔
      s.Says k φ ∨ φ = .awaits k token idx := by
  cases φ with
  | awaits step t i =>
    simp only [Says, List.mem_append, List.mem_singleton, Prod.mk.injEq, Fact.awaits.injEq]
    grind
  | _ => simp [Says]

theorem says_push_itemSet (set : ItemSet) :
    ({ s with itemSets := s.itemSets.push set } : Step).Says k φ ↔
      s.Says k φ ∨ φ = .predicts ⟨k, s.itemSets.size⟩ set.cat set.field set.top ∨
        ∃ r ∈ set.waiting, φ = .waits ⟨k, s.itemSets.size⟩ r := by
  have hfree : s.itemSets[s.itemSets.size]? = none := by simp
  cases φ with
  | predicts S X f top =>
    obtain ⟨step, idx⟩ := S
    simp only [Says, Array.getElem?_push, Fact.predicts.injEq, ItemSetRef.mk.injEq]
    grind
  | waits S r =>
    obtain ⟨step, idx⟩ := S
    simp only [Says, Array.getElem?_push, Fact.waits.injEq, ItemSetRef.mk.injEq]
    grind
  | _ => simp [Says]

theorem says_join {i : Nat} (hi : i < s.itemSets.size) (r : ItemRef) :
    ({ s with itemSets := s.itemSets.modify i fun set =>
        { set with waiting := set.waiting ++ [r] } } : Step).Says k φ ↔
      s.Says k φ ∨ φ = .waits ⟨k, i⟩ r := by
  cases φ with
  | predicts S X f top =>
    obtain ⟨step, idx⟩ := S
    simp only [Says, Array.getElem?_modify]
    grind
  | waits S r' =>
    obtain ⟨step, idx⟩ := S
    simp only [Says, Array.getElem?_modify, Fact.waits.injEq, ItemSetRef.mk.injEq]
    by_cases h : i = idx
    · subst h
      simp only [if_true, Array.getElem?_eq_getElem hi, Option.map_some, Option.some.injEq,
        exists_eq_left', List.mem_append, List.mem_singleton]
      grind
    · grind
  | _ => simp [Says]

theorem says_push_cat (cat : ChartCat) (top : Bool) :
    ({ s with
        cats := s.cats.push cat
        completed := if top then s.completed ++ [⟨k, s.cats.size⟩] else s.completed } :
        Step).Says k φ ↔
      s.Says k φ ∨
        φ = .closes ⟨k, s.cats.size⟩ cat.set cat.cat cat.field cat.fieldCount ∨
        (∃ q ∈ cat.productions, φ = .produces ⟨k, s.cats.size⟩ q) ∨
        (top = true ∧ φ = .spans k ⟨k, s.cats.size⟩) := by
  have hfree : s.cats[s.cats.size]? = none := by simp
  cases φ with
  | closes C S X f n =>
    obtain ⟨step, idx⟩ := C
    simp only [Says, Array.getElem?_push, Fact.closes.injEq, ChartCatId.mk.injEq]
    grind
  | produces C q =>
    obtain ⟨step, idx⟩ := C
    simp only [Says, Array.getElem?_push, Fact.produces.injEq, ChartCatId.mk.injEq]
    grind
  | spans step C =>
    simp only [Says, Fact.spans.injEq]
    grind
  | _ => simp [Says]

theorem says_pack {idx : Nat} (hidx : idx < s.cats.size) (q : ChartProduction) :
    ({ s with cats := s.cats.modify idx fun cat =>
        { cat with productions := cat.productions ++ [q] } } : Step).Says k φ ↔
      s.Says k φ ∨ φ = .produces ⟨k, idx⟩ q := by
  cases φ with
  | closes C S X f n =>
    obtain ⟨step, i⟩ := C
    simp only [Says, Array.getElem?_modify]
    grind
  | produces C q' =>
    obtain ⟨step, i⟩ := C
    simp only [Says, Array.getElem?_modify, Fact.produces.injEq, ChartCatId.mk.injEq]
    by_cases h : idx = i
    · subst h
      simp only [if_true, Array.getElem?_eq_getElem hidx, Option.map_some, Option.some.injEq,
        exists_eq_left', List.mem_append, List.mem_singleton]
      grind
    · grind
  | _ => simp [Says]

end Step

namespace Building

/-- An operation adds facts and items for the agenda, and leaves everything else alone, counters
apart. -/
structure Adds (b b' : Building) (new : Fact → Prop) (items : Item → Prop) : Prop where
  concrete : b'.concrete = b.concrete
  history : b'.history = b.history
  fault : b'.fault = b.fault
  facts : ∀ φ, b'.facts φ ↔ b.facts φ ∨ new φ
  agenda : ∀ i, i ∈ b'.agenda ↔ i ∈ b.agenda ∨ items i

variable {b b' b'' : Building} {new new' : Fact → Prop} {items items' : Item → Prop}

theorem facts_iff {φ : Fact} : b.facts φ ↔ chartFacts b.history φ ∨ b.step.Says b.index φ :=
  chartFacts_push

theorem Adds.index (h : b.Adds b' new items) : b'.index = b.index := by
  rw [Building.index, h.history, Building.index]

theorem Adds.trans (h : b.Adds b' new items) (h' : b'.Adds b'' new' items') :
    b.Adds b'' (fun φ => new φ ∨ new' φ) (fun i => items i ∨ items' i) where
  concrete := h'.concrete.trans h.concrete
  history := h'.history.trans h.history
  fault := h'.fault.trans h.fault
  facts φ := by rw [h'.facts, h.facts, or_assoc]
  agenda i := by rw [h'.agenda, h.agenda, or_assoc]

theorem Adds.congr (h : b.Adds b' new items) (hnew : ∀ φ, new φ ↔ new' φ)
    (hitems : ∀ i, items i ↔ items' i) : b.Adds b' new' items' where
  concrete := h.concrete
  history := h.history
  fault := h.fault
  facts φ := by rw [h.facts, hnew]
  agenda i := by rw [h.agenda, hitems]

/-- Counting adds nothing. -/
theorem adds_counters (b : Building) (counters : Counters) :
    b.Adds { b with counters } (fun _ => False) (fun _ => False) :=
  ⟨rfl, rfl, rfl, fun _ => by rw [or_false]; rfl, fun _ => by rw [or_false]⟩

/-- A step that says more adds what it says. -/
theorem adds_step (b : Building) (step : Step) (counters : Counters)
    (h : ∀ φ, step.Says b.index φ ↔ b.step.Says b.index φ ∨ new φ) :
    b.Adds { b with step, counters } new (fun _ => False) where
  concrete := rfl
  history := rfl
  fault := rfl
  facts φ := by
    rw [facts_iff, facts_iff, or_assoc]
    exact or_congr_right (h φ)
  agenda i := by rw [or_false]

theorem adds_push (b : Building) (item : Item) :
    b.Adds (b.push item) (fun _ => False) (· = item) where
  concrete := rfl
  history := rfl
  fault := rfl
  facts _ := by
    rw [or_false]
    rfl
  agenda i := by rw [push, List.mem_cons, or_comm]

theorem adds_store (b : Building) (item : Item) :
    b.Adds (b.store item).2 (· = .item (b.store item).1 item) (fun _ => False) :=
  b.adds_step _ b.counters fun _ => Step.says_push_item item

theorem adds_waitFor (b : Building) (token : Sym) (item : Item) :
    b.Adds (b.waitFor token item)
      (fun φ => φ = .item ⟨b.index, b.step.items.size⟩ item ∨
        φ = .awaits b.index token b.step.items.size) (fun _ => False) := by
  refine b.adds_step _ b.counters fun φ => ?_
  rw [← or_assoc, ← Step.says_push_item item]
  exact Step.says_transition token _

theorem adds_addItemSet (b : Building) (set : ItemSet) :
    b.Adds (b.addItemSet set).2
      (fun φ => φ = .predicts (b.addItemSet set).1 set.cat set.field set.top ∨
        ∃ r ∈ set.waiting, φ = .waits (b.addItemSet set).1 r) (fun _ => False) :=
  b.adds_step _ b.counters fun _ => Step.says_push_itemSet set

/-- Pushing items one by one. -/
theorem adds_pushAll {α : Type} (f : α → Item) (as : List α) (b : Building) :
    b.Adds (as.foldl (fun b a => b.push (f a)) b) (fun _ => False)
      (fun i => ∃ a ∈ as, i = f a) := by
  induction as generalizing b with
  | nil => exact (b.adds_counters b.counters).congr (fun _ => Iff.rfl) (by simp)
  | cons a as ih =>
    refine ((b.adds_push (f a)).trans (ih _)).congr (fun _ => or_self_iff) fun i => ?_
    simp

/-- An item is started for every production that is offered. -/
theorem adds_expand (b : Building) (set : ItemSetRef) (cat : CatRef) (field : Nat) :
    b.Adds (b.expand set cat field) (fun _ => False)
      (fun i => ∃ q, Offers b.concrete b.facts cat q ∧ i = { set, production := q, field }) := by
  refine ((b.adds_counters _).trans (adds_pushAll
    (fun production => { set, production, field }) (b.productions cat) _)).congr
    (fun _ => or_self_iff) fun i => ?_
  simp only [false_or, mem_productions_iff]

end Building

end Polyglot
