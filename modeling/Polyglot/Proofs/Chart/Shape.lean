import Polyglot.Proofs.Chart.Representation

/-!
# What every step of a chart looks like

Item sets and categories are found again by what they are for, productions are packed where they are
new, and references lead to what there is. Later steps index by all of this without a look at it, so
it is said here in terms of the steps themselves.

- `ChartCat.Shaped`: what a category looks like.
- `Step.Shaped`: what a step looks like; `Chart.Upkept.shaped`: every step does.
-/

namespace Polyglot

/-- A category in a chart, and what it refers to. -/
structure ChartCat.Shaped (chart : Chart) (C : ChartCatId) (cat : ChartCat) : Prop where
  /-- It completes an item set that asks for what it says. -/
  completes : ∃ (s : Step) (set : ItemSet), chart.steps[cat.set.step]? = some s ∧
    s.itemSets[cat.set.idx]? = some set ∧ set.cat = cat.cat ∧ set.field = cat.field
  /-- It has productions, each of them once. -/
  inhabited : cat.productions ≠ []
  distinct : cat.productions.Nodup
  /-- Its field is one that it has. -/
  inRange : cat.field < cat.fieldCount
  /-- What a coercion takes over was read. -/
  coerced : ∀ X, .coerce X ∈ cat.productions → ∃ D, X = .chart D ∧ (chart.category? D).isSome
  /-- What it refines was completed before it. -/
  refines : ∀ D, cat.cat = .chart D → D.Before C ∧ (chart.category? D).isSome

/-- An item stands before a token: it is the next one of the constituent that comes next, or of the
form of it that was chosen. -/
def Concrete.StandsBefore (c : Concrete) (item : Item) (token : Sym) : Prop :=
  ∃ x ts, c.constituent? item = some x ∧ x.formAt? item.form = some ts ∧
    ts[item.word]? = some token

/-- The step at a position of a chart for a field of some instances. -/
structure Step.Shaped (chart : Chart) (ids : List InstanceId) (goal k : Nat) (s : Step) :
    Prop where
  /-- No two item sets are for the same field of the same category. -/
  itemSets : (s.itemSets.toList.map fun set => (set.cat, set.field)).Nodup
  /-- No two categories complete the same item set. -/
  sets : (s.cats.toList.map ChartCat.set).Nodup
  /-- So there is one for a field of a category from a position at most. -/
  keys : (s.cats.toList.map fun cat => (cat.cat, cat.field, cat.set.step)).Nodup
  cats : ∀ (idx : Nat) (cat : ChartCat), s.cats[idx]? = some cat → cat.Shaped chart ⟨k, idx⟩
  /-- What waits for a token are items of this step that stand before it, each of them once. -/
  waiting : ∀ token ∈ s.transitions.map Prod.fst, s.waitingFor token ≠ [] ∧
    (s.waitingFor token).Nodup ∧ ∀ idx ∈ s.waitingFor token, ∃ item,
      s.items[idx]? = some item ∧ chart.concrete.StandsBefore item token
  /-- What is completed are the categories of this step that a goal was predicted for. -/
  completed : s.completed.Nodup
  mem_completed : ∀ C, C ∈ s.completed ↔ C.step = k ∧ ∃ cat, s.cats[C.idx]? = some cat ∧
    cat.set.step = 0 ∧ cat.field = goal ∧ ∃ id ∈ ids, cat.cat = .grammar id

/-- A function that tells the places of an array apart makes distinct members of it. -/
theorem nodup_map_toList {α β : Type} {f : α → β} {as : Array α}
    (h : ∀ (i j : Nat) (x y : α), as[i]? = some x → as[j]? = some y → f x = f y → i = j) :
    (as.toList.map f).Nodup := by
  refine List.nodup_iff_getElem?_ne_getElem?.2 fun i j hij hj heq => ?_
  rw [List.length_map, Array.length_toList] at hj
  have hi : i < as.size := Nat.lt_trans hij hj
  simp only [List.getElem?_map, Array.getElem?_toList, Array.getElem?_eq_getElem hi,
    Array.getElem?_eq_getElem hj, Option.map_some, Option.some.injEq] at heq
  exact Nat.ne_of_lt hij (h i j _ _ (Array.getElem?_eq_getElem hi) (Array.getElem?_eq_getElem hj)
    heq)

namespace Chart

variable {c : Concrete} {ids : List InstanceId} {goal k : Nat} {chart : Chart} {s : Step}

theorem facts_of_step (hs : chart.steps[k]? = some s) {φ : Fact} (h : s.Says k φ) :
    chart.facts φ := ⟨k, s, hs, h⟩

/-- A category that was completed is one of the chart. -/
theorem isSome_category?_of_closes {C : ChartCatId} {S : ItemSetRef} {X : CatRef} {f n : Nat}
    (h : chart.facts (.closes C S X f n)) : (chart.category? C).isSome := by
  obtain ⟨k, s, hs, rfl, cat, hcat, -⟩ := h
  simp [category?, hs, hcat]

/-- What the chart knows of a category of a step. -/
theorem closes_of_step (hs : chart.steps[k]? = some s) {idx : Nat} {cat : ChartCat}
    (hcat : s.cats[idx]? = some cat) :
    chart.facts (.closes ⟨k, idx⟩ cat.set cat.cat cat.field cat.fieldCount) :=
  facts_of_step hs ⟨rfl, cat, hcat, rfl, rfl, rfl, rfl⟩

namespace Upkept

variable (h : Upkept c ids goal chart) (hs : chart.steps[k]? = some s)
include h hs

theorem shaped_category {idx : Nat} {cat : ChartCat} (hcat : s.cats[idx]? = some cat) :
    cat.Shaped chart ⟨k, idx⟩ := by
  have hcloses := closes_of_step hs hcat
  obtain ⟨⟨top, hset⟩, hfields, hlt⟩ := h.coherent.rests _ hcloses
  obtain ⟨firstId, hlaid⟩ := h.steps.laid k s hs
  have hfounded := hlaid.founded idx cat hcat
  refine ⟨?_, ?_, ?_, hlt, fun X hX => ?_, fun D hD => ⟨hfounded.refines D hD, ?_⟩⟩
  · obtain ⟨k', s', hs', rfl, set, hset, hX, hf, -⟩ := hset
    exact ⟨s', set, hs', hset, hX, hf⟩
  · obtain ⟨q, hq, -⟩ := hfounded.begun
    intro hnil
    rw [hnil] at hq
    cases hq
  · exact h.steps.distinct s (Array.mem_of_getElem? hs) cat (Array.mem_of_getElem? hcat)
  · have hproduces : chart.facts (.produces ⟨k, idx⟩ (.coerce X)) :=
      facts_of_step hs ⟨rfl, cat, hcat, hX⟩
    obtain ⟨-, -, -, n, -, hsuits, -, hchart⟩ := h.coherent.rests _ hproduces
    obtain ⟨D, rfl⟩ := hchart X rfl
    obtain ⟨m, S, Y, f, hD⟩ := hsuits.args D List.mem_cons_self
    exact ⟨D, rfl, isSome_category?_of_closes hD⟩
  · rw [hD] at hfields
    obtain ⟨S, Y, f, hdone⟩ := hfields
    exact isSome_category?_of_closes hdone

/-- What waits for a token stands before it. -/
theorem waiting {token : Sym} (htoken : token ∈ s.transitions.map Prod.fst) :
    s.waitingFor token ≠ [] ∧ (s.waitingFor token).Nodup ∧ ∀ idx ∈ s.waitingFor token,
      ∃ item, s.items[idx]? = some item ∧ chart.concrete.StandsBefore item token := by
  have hmem : ∀ idx, idx ∈ s.waitingFor token ↔ (token, idx) ∈ s.transitions := by
    intro idx
    simp [Step.waitingFor]
  refine ⟨?_, ?_, fun idx hidx => ?_⟩
  · obtain ⟨⟨t, idx⟩, hentry, rfl⟩ := List.mem_map.1 htoken
    exact List.ne_nil_of_mem ((hmem idx).2 hentry)
  · obtain ⟨firstId, hlaid⟩ := h.steps.laid k s hs
    exact hlaid.once.sublist (List.filter_sublist.map _)
  · have hawaits : chart.facts (.awaits k token idx) :=
      facts_of_step hs ⟨rfl, (hmem idx).1 hidx⟩
    obtain ⟨item, x, ts, hitem, hstands⟩ := h.coherent.rests _ hawaits
    obtain ⟨k', s', hs', rfl, hitem⟩ := hitem
    cases hs.symm.trans hs'
    rw [h.concrete]
    exact ⟨item, hitem, x, ts, hstands⟩

/-- What is completed are the categories of a step that a goal was predicted for. -/
theorem mem_completed (C : ChartCatId) : C ∈ s.completed ↔ C.step = k ∧ ∃ cat,
    s.cats[C.idx]? = some cat ∧ cat.set.step = 0 ∧ cat.field = goal ∧
      ∃ id ∈ ids, cat.cat = .grammar id := by
  constructor
  · intro hC
    have hspans : chart.facts (.spans k C) := facts_of_step hs ⟨rfl, hC⟩
    obtain ⟨rfl, S, X, f, n, hcloses, hset⟩ := h.coherent.rests _ hspans
    obtain ⟨-, htop, -⟩ := h.coherent.rests _ hset
    obtain ⟨hzero, rfl, id, hid, rfl⟩ := htop rfl
    obtain ⟨k', s', hs', rfl, cat, hcat, rfl, hX, rfl, -⟩ := hcloses
    cases hs.symm.trans hs'
    exact ⟨rfl, cat, hcat, hzero, rfl, id, hid, hX⟩
  · rintro ⟨rfl, cat, hcat, hzero, hgoal, id, hid, hX⟩
    have hcloses := closes_of_step hs hcat
    obtain ⟨⟨top, hset⟩, -⟩ := h.coherent.rests _ hcloses
    -- The goal is predicted in the first step, and nothing is predicted twice in a step.
    obtain ⟨S, hS⟩ := h.goals id hid
    obtain ⟨hzero', -⟩ := (h.coherent.rests _ hS).2.1 rfl
    rw [hX, hgoal] at hset hcloses
    have heq := h.coherent.predicts_once _ _ _ _ _ _ hset hS (hzero.trans hzero'.symm)
    obtain ⟨k', s', hs', hk, hC⟩ := h.coherent.spans _ _ _ _ _ hcloses (heq ▸ hS)
    cases hk
    cases hs.symm.trans hs'
    exact hC

/-- **Every step of a chart has its shape.** -/
theorem shaped : s.Shaped chart ids goal k := by
  have hsets : ∀ (i j : Nat) (x y : ChartCat), s.cats[i]? = some x →
      s.cats[j]? = some y → x.set = y.set → i = j := by
    intro i j x y hx hy heq
    have hyset : chart.facts (.closes ⟨k, j⟩ x.set y.cat y.field y.fieldCount) :=
      heq ▸ closes_of_step hs hy
    exact congrArg ChartCatId.idx
      (h.coherent.closes_once _ _ _ _ _ _ _ _ _ (closes_of_step hs hx) hyset rfl)
  refine ⟨nodup_map_toList ?_, nodup_map_toList hsets, nodup_map_toList ?_,
    fun idx cat => h.shaped_category hs, fun token => h.waiting hs,
    (h.steps.tidy s (Array.mem_of_getElem? hs)).nodup, h.mem_completed hs⟩
  · intro i j x y hx hy heq
    obtain ⟨hcat, hfield⟩ := Prod.mk.inj heq
    have hxset : chart.facts (.predicts ⟨k, i⟩ x.cat x.field x.top) :=
      facts_of_step hs ⟨rfl, x, hx, rfl, rfl, rfl⟩
    have hyset : chart.facts (.predicts ⟨k, j⟩ x.cat x.field y.top) :=
      facts_of_step hs ⟨rfl, y, hy, hcat.symm, hfield.symm, rfl⟩
    exact congrArg ItemSetRef.idx (h.coherent.predicts_once _ _ _ _ _ _ hxset hyset rfl)
  · intro i j x y hx hy heq
    obtain ⟨hcat, hrest⟩ := Prod.mk.inj heq
    obtain ⟨hfield, hstep⟩ := Prod.mk.inj hrest
    -- Categories that agree in this complete the same item set.
    obtain ⟨⟨topx, hxset⟩, -⟩ := h.coherent.rests _ (closes_of_step hs hx)
    obtain ⟨⟨topy, hyset⟩, -⟩ := h.coherent.rests _ (closes_of_step hs hy)
    rw [← hcat, ← hfield] at hyset
    exact hsets i j x y hx hy (h.coherent.predicts_once _ _ _ _ _ _ hxset hyset hstep)

end Upkept

end Chart

end Polyglot
