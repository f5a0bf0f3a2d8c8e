import Polyglot.Proofs.Chart.Running

/-!
# References in a chart lead somewhere

Items, item sets and categories refer to each other across steps, and what is looked up is taken to
be there. It is: while a step is built from a grammar that passed its checks, every reference that
is stored or is to be processed leads to what it should lead to, and no item asks for something that
its production or the grammar does not have.

- `Building.Follows`: an item whose references lead somewhere and that can be told what it needs.
- `Building.InRange`: all references of a step in the making and of the steps before it.
- `Building.Runs.inRange`: this holds whenever an item is taken from the agenda.
-/

namespace Polyglot

namespace Building

/-- The set of an item is there, its arguments are, what it needs is known, and if that is a field
of an argument then there is such an argument. -/
structure Follows (b : Building) (i : Item) : Prop where
  set : (b.itemSet? i.set).isSome
  args : ∀ id, .chart id ∈ i.production.args → (b.category? id).isSome
  need : ∃ next, b.concrete.need i = .ok next ∧
    ∀ arg field, next = .category arg field → arg < i.production.args.length

/-- Nothing went wrong, and all references lead to what they should lead to. -/
structure InRange (b : Building) : Prop where
  fault : b.fault = none
  agenda : ∀ i ∈ b.agenda, b.Follows i
  items : ∀ r i, b.item? r = some i → b.Follows i
  /-- What waits for an item set is an item that needs a field of a category. -/
  waiting : ∀ S set, b.itemSet? S = some set → ∀ r ∈ set.waiting, ∃ i arg field,
    b.item? r = some i ∧ b.concrete.need i = .ok (.category arg field)
  predicted : ∀ S set id, b.itemSet? S = some set → set.cat = .chart id → (b.category? id).isSome
  /-- A category completes an item set that is there, and refines a category that is there. -/
  completed : ∀ C cat, b.category? C = some cat → (b.itemSet? cat.set).isSome ∧
    ∀ id, cat.cat = .chart id → (b.category? id).isSome
  productions : ∀ C cat, b.category? C = some cat → ∀ q ∈ cat.productions, ∀ id,
    .chart id ∈ q.args → (b.category? id).isSome
  /-- What waits for a token is an item that needs tokens. -/
  transitions : ∀ k s, b.step? k = some s → ∀ t idx, (t, idx) ∈ s.transitions →
    ∃ i, s.items[idx]? = some i ∧
      ((∃ ts, b.concrete.need i = .ok (.tokens ts)) ∨ ∃ v, b.concrete.need i = .ok (.variants v))
  spanning : ∀ k s, b.step? k = some s → ∀ id ∈ s.completed, (b.category? id).isSome

variable {c : Concrete} {v : Nat → Sym} {ids : List InstanceId} {goal k : Nat} {b : Building}

/-- A category of the chart that comes from somewhere is there. -/
theorem category?_of_chain {C : ChartCatId} {id : InstanceId} {L : List Span}
    (h : Chain b.facts (.chart C) id L) : (b.category? C).isSome := by
  cases h with
  | chart hdone _ =>
    obtain ⟨cat, hcat, -⟩ := closes_iff.1 hdone
    rw [hcat]
    rfl

theorem itemSet?_of_predicts {S : ItemSetRef} {X : CatRef} {f : Nat} {top : Bool}
    (h : b.facts (.predicts S X f top)) : (b.itemSet? S).isSome := by
  obtain ⟨set, hset, -⟩ := predicts_iff.1 h
  rw [hset]
  rfl

/-- An item that stands somewhere can be followed. -/
theorem follows_of_stands (hwf : c.WellFormed) (hc : b.concrete = c)
    (hF : Sound c v ids goal b.facts) {i : Item} (h : Stands c v b.facts k i) : b.Follows i := by
  subst hc
  refine ⟨?_, fun id hid => ?_, ?_⟩
  · obtain ⟨hset, -, -, -, -, -⟩ := h
    exact itemSet?_of_predicts hset
  · obtain ⟨id', L, hchain⟩ := hF.chain_of_mem_args h hid
    exact category?_of_chain hchain
  · obtain ⟨body, hbody⟩ := h.body
    rcases Concrete.constituent?_or_ended hbody with ⟨x, hx⟩ | hended
    · refine ⟨_, Concrete.need_of_constituent? hx, fun arg field hneed => ?_⟩
      obtain rfl : x = .sub arg field := by
        cases x <;> cases hneed
        rfl
      obtain ⟨X, id, L, n, harg, -⟩ := hF.argument hwf h hx
      exact (List.getElem?_eq_some_iff.1 harg).1
    · exact ⟨_, Concrete.need_of_ended hended, nofun⟩

/-- The facts of a step are what it says. -/
theorem facts_of_step {s : Step} (hs : b.step? k = some s) {φ : Fact} (h : s.Says k φ) :
    b.facts φ := ⟨k, s, step?_eq b k ▸ hs, h⟩

/-- **All references are in range** whenever an item is taken from the agenda. -/
theorem Runs.inRange (hwf : c.WellFormed) (h : Runs c v ids goal b) : b.InRange := by
  have hF := h.sound
  have hc := h.concrete
  refine ⟨h.fault, fun i hi => follows_of_stands hwf hc hF (h.agenda i hi), fun r i hi => ?_,
    fun S set hset r hr => ?_, fun S set id hset hcat => ?_, fun C cat hC => ?_,
    fun C cat hC q hq id hid => ?_, fun k s hs t idx ht => ?_, fun k s hs id hid => ?_⟩
  · exact follows_of_stands hwf hc hF (hF.grounded _ (item?_eq_some_iff.1 hi))
  · obtain ⟨-, X, f, top, i, arg, -, hi, hx, -⟩ := hF.grounded _ (waits_iff.2 ⟨set, hset, hr⟩)
    exact ⟨i, arg, f, item?_eq_some_iff.2 hi, hc ▸ Concrete.need_of_constituent? hx⟩
  · obtain ⟨⟨id', L, n, hchain, -⟩, -⟩ :=
      hF.grounded _ (predicts_iff.2 ⟨set, hset, hcat, rfl, rfl⟩)
    exact category?_of_chain hchain
  · obtain ⟨-, ⟨top, hset⟩, ⟨id', L, hchain, -⟩, -⟩ :=
      hF.grounded _ (closes_iff.2 ⟨cat, hC, rfl, rfl, rfl, rfl⟩)
    refine ⟨itemSet?_of_predicts hset, fun id hid => ?_⟩
    rw [hid] at hchain
    exact category?_of_chain hchain
  · have hproduces := produces_iff.2 ⟨cat, hC, hq⟩
    obtain ⟨-, -, ⟨id', L, hchain, -⟩, -⟩ :=
      hF.grounded _ (closes_iff.2 ⟨cat, hC, rfl, rfl, rfl, rfl⟩)
    have hclosed := closes_iff.2 ⟨cat, hC, rfl, rfl, rfl, rfl⟩
    obtain ⟨p, -, hmeans⟩ := hF.means (.chart hclosed hchain) hproduces
    obtain ⟨id'', L', hchain'⟩ := hmeans.chain hid
    exact category?_of_chain hchain'
  · obtain ⟨i, x, ts, hi, hx, hform, -⟩ :=
      hF.grounded (.awaits k t idx) (facts_of_step hs ⟨rfl, ht⟩)
    obtain ⟨s', hs', hi'⟩ := Option.bind_eq_some_iff.1 (item?_eq_some_iff.2 hi)
    cases hs.symm.trans hs'
    refine ⟨i, hi', ?_⟩
    have hneed := hc ▸ Concrete.need_of_constituent? hx
    cases x with
    | tokens ts' => exact .inl ⟨ts', hneed⟩
    | variants w => exact .inr ⟨w, hneed⟩
    | sub | lit | var => cases hform
  · obtain ⟨-, S, X, f, n, hcloses, -⟩ := hF.grounded (.spans k id) (facts_of_step hs ⟨rfl, hid⟩)
    obtain ⟨cat, hcat, -⟩ := closes_iff.1 hcloses
    rw [hcat]
    rfl

end Building

end Polyglot
