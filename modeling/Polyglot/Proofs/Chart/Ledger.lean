import Polyglot.Proofs.Chart.Running

/-!
# Every item is accounted for

Whether something is known can be said with facts, but how often something waits for a token cannot:
an item may come about several times, and each time it waits once more. So the items that have been
processed in a step are kept in a ledger. Together with the agenda they are the items that the step
began with, those that were started for predictions, those that went on with complete categories,
and those that passed over a form without words; each as often as it came about.

The order of work does not show in these sums: whether a prediction or a category comes first, an
item that waits for the category goes on once.

- `Concrete.asked?`, `skips`, `awaits`: what an item does, counted.
- `Building.starts`, `resumes`: what predictions and categories put on the agenda.
- `Building.Ledger`: the accounts of a step in the making.
- `Building.Posts`: what one item does to the accounts, and `Ledger.post`: they stay balanced.
-/

namespace Polyglot

/-! ## What items do -/

namespace Concrete

variable (c : Concrete) (i : Item)

/-- The category that an item asks for, and the field of it. -/
def asked? : Option (CatRef × Nat) :=
  match c.constituent? i with
  | some (.sub arg f) => i.production.args[arg]?.map (·, f)
  | _ => none

/-- An item that asks for a category goes on with it. -/
def resumed (C : ChartCatId) : Item :=
  match c.constituent? i with
  | some (.sub arg _) => i.resume arg C
  | _ => i

/-- What becomes of an item that needs no words. -/
def skips : Multiset Item :=
  match c.constituent? i with
  | some x => if i.word = 0 ∧ [] ∈ x.forms then {i.advanced} else 0
  | none => 0

/-- The words that an item waits for, with the form that each is of. -/
def awaits : List (Sym × Item) :=
  match c.constituent? i with
  | some (.tokens ts) => ts[i.word]?.toList.map (·, i)
  | some (.variants w) =>
    if 0 < i.word then ((w.form? i.form).bind (·[i.word]?)).toList.map (·, i)
    else w.distinctForms.filterMap fun (ts, form) => ts.head?.map (·, { i with form })
  | _ => []

variable {c i}

/-- An item that asks for a category neither waits for words nor skips them. -/
theorem asks_of_sub {arg f : Nat} (hx : c.constituent? i = some (.sub arg f)) {X : CatRef}
    (harg : i.production.args[arg]? = some X) :
    c.asked? i = some (X, f) ∧ c.skips i = 0 ∧ c.awaits i = [] := by
  simp [asked?, skips, awaits, hx, harg, Constituent.formsBy]

theorem resumed_of_sub {arg f : Nat} (hx : c.constituent? i = some (.sub arg f))
    (C : ChartCatId) : c.resumed i C = i.resume arg C := by
  simp [resumed, hx]

/-- An item that asks for a category comes to a field of an argument. -/
theorem exists_of_asked? {X : CatRef} {f : Nat} (h : c.asked? i = some (X, f)) :
    ∃ arg, c.constituent? i = some (.sub arg f) ∧ i.production.args[arg]? = some X := by
  unfold asked? at h
  split at h
  · rename_i arg g hx
    obtain ⟨Y, hY, heq⟩ := Option.map_eq_some_iff.1 h
    cases heq
    exact ⟨arg, hx, hY⟩
  · cases h

/-- An item at its end does nothing of all this. -/
theorem Ended.idle (h : c.Ended i) : c.asked? i = none ∧ c.skips i = 0 ∧ c.awaits i = [] := by
  simp [asked?, skips, awaits, h.constituent?_eq_none]

end Concrete

/-! ## Accounts -/

/-- The words that are waited for in a step, each with the item that does so. -/
def Step.awaiting (s : Step) : Multiset (Sym × Item) :=
  s.transitions.filterMap fun (t, idx) => s.items[idx]?.map (t, ·)

namespace Building

variable (b : Building)

/-- The items that wait for what an item set predicts. -/
def waitingItems (S : ItemSetRef) : List Item :=
  ((b.itemSet? S).map ItemSet.waiting).getD [] |>.filterMap b.item?

/-- The items that are started for the prediction at a place. -/
def startsOf (s : Nat) : Multiset Item :=
  match b.step.itemSets[s]? with
  | some set => (b.productions set.cat : Multiset ChartProduction).map fun production =>
    { set := ⟨b.index, s⟩, production, field := set.field }
  | none => 0

/-- The items that are started in this step. -/
def starts : Multiset Item := ∑ s ∈ Finset.range b.step.itemSets.size, b.startsOf s

/-- The items that go on with the category at a place. -/
def resumesOf (j : Nat) : Multiset Item :=
  match b.step.cats[j]? with
  | some cat => (b.waitingItems cat.set : Multiset Item).map (b.concrete.resumed · ⟨b.index, j⟩)
  | none => 0

/-- The items that go on with categories of this step. -/
def resumes : Multiset Item := ∑ j ∈ Finset.range b.step.cats.size, b.resumesOf j

/-- The accounts of a step that began with the items `first`, where the items `log` have been
processed. -/
structure Ledger (c : Concrete) (first log : Multiset Item) : Prop where
  balance : (b.agenda : Multiset Item) + log = first + b.starts + b.resumes + log.bind c.skips
  asked : ∀ i ∈ log, ∀ X f, c.asked? i = some (X, f) →
    ∃ set ∈ b.step.itemSets, set.cat = X ∧ set.field = f
  waiting : ∀ s set, b.step.itemSets[s]? = some set →
    (b.waitingItems ⟨b.index, s⟩ : Multiset Item) =
      log.filter fun i => c.asked? i = some (set.cat, set.field)
  awaiting : b.step.awaiting = log.bind fun i => c.awaits i

/-- What one item does to the accounts of a step. -/
structure Posts (c : Concrete) (item : Item) (b b' : Building) : Prop where
  index : b'.index = b.index
  balance : (b'.agenda : Multiset Item) + b.starts + b.resumes =
    b.agenda + b'.starts + b'.resumes + c.skips item
  old : ∀ s set, b.step.itemSets[s]? = some set → ∃ set', b'.step.itemSets[s]? = some set' ∧
    set'.cat = set.cat ∧ set'.field = set.field ∧ b'.waitingItems ⟨b.index, s⟩ =
      b.waitingItems ⟨b.index, s⟩ ++
        if c.asked? item = some (set.cat, set.field) then [item] else []
  new : ∀ s set', b'.step.itemSets[s]? = some set' → (∃ set, b.step.itemSets[s]? = some set) ∨
    c.asked? item = some (set'.cat, set'.field) ∧ b'.waitingItems ⟨b.index, s⟩ = [item] ∧
      ∀ set ∈ b.step.itemSets, ¬ (set.cat = set'.cat ∧ set.field = set'.field)
  asked : ∀ X f, c.asked? item = some (X, f) →
    ∃ set ∈ b'.step.itemSets, set.cat = X ∧ set.field = f
  awaiting : b'.step.awaiting = b.step.awaiting + c.awaits item

variable {b} {c : Concrete} {item : Item} {b' : Building} {first log : Multiset Item}
  {agenda : List Item}

/-- The accounts stay balanced. -/
theorem Ledger.post (h : b.Ledger c first log) (hagenda : b.agenda = item :: agenda)
    (hposts : Posts c item { b with agenda } b') : b'.Ledger c first (item ::ₘ log) := by
  obtain ⟨hindex, hbalance, hold, hnew, hasked, hawaiting⟩ := hposts
  change b'.index = b.index at hindex
  refine ⟨?_, ?_, ?_, ?_⟩
  · have hbefore := h.balance
    rw [hagenda, ← Multiset.cons_coe, Multiset.cons_add, ← Multiset.singleton_add] at hbefore
    rw [Multiset.cons_bind, ← Multiset.singleton_add]
    change (b'.agenda : Multiset Item) + b.starts + b.resumes =
      agenda + b'.starts + b'.resumes + c.skips item at hbalance
    -- Both sides with what was started and resumed before.
    refine Multiset.add_right_inj (s := b.starts + b.resumes) |>.1 ?_
    calc b.starts + b.resumes + (b'.agenda + ({item} + log))
      _ = (b'.agenda + b.starts + b.resumes) + ({item} + log) := by ac_rfl
      _ = b'.starts + b'.resumes + c.skips item + ({item} + (agenda + log)) := by
        rw [hbalance]
        ac_rfl
      _ = b'.starts + b'.resumes + c.skips item +
          (first + b.starts + b.resumes + log.bind c.skips) := by rw [hbefore]
      _ = b.starts + b.resumes + (first + b'.starts + b'.resumes +
          (c.skips item + log.bind c.skips)) := by ac_rfl
  · intro i hi X f hX
    rcases Multiset.mem_cons.1 hi with rfl | hi
    · exact hasked X f hX
    · obtain ⟨set, hmem, rfl, rfl⟩ := h.asked i hi X f hX
      obtain ⟨s, hs⟩ := Array.mem_iff_getElem?.1 hmem
      obtain ⟨set', hs', hcat, hfield, -⟩ := hold s set hs
      exact ⟨set', Array.mem_of_getElem? hs', hcat, hfield⟩
  · intro s set' hs'
    rw [hindex, Multiset.filter_cons]
    rcases hnew s set' hs' with ⟨set, hs⟩ | ⟨hX, hwaiting, hnone⟩
    · obtain ⟨set'', hs'', hcat, hfield, hwaiting⟩ := hold s set hs
      cases hs'.symm.trans hs''
      have hbefore := h.waiting s set hs
      change _ = b.waitingItems ⟨b.index, s⟩ ++ _ at hwaiting
      rw [show b'.waitingItems ⟨b.index, s⟩ = _ from hwaiting, ← Multiset.coe_add, hbefore, hcat,
        hfield, add_comm]
      split <;> rfl
    · rw [show b'.waitingItems ⟨b.index, s⟩ = _ from hwaiting, if_pos hX]
      -- Nothing that was processed before asked for what is predicted only now.
      have hempty : log.filter (fun i => c.asked? i = some (set'.cat, set'.field)) = 0 := by
        refine Multiset.filter_eq_nil.2 fun i hi hask => ?_
        obtain ⟨set, hmem, hcat, hfield⟩ := h.asked i hi _ _ hask
        exact hnone set hmem ⟨hcat, hfield⟩
      rw [hempty]
      rfl
  · rw [hawaiting, Multiset.cons_bind, ← h.awaiting, add_comm]

/-! ## What depends on what -/

section Congr

variable {v : Nat → Sym} {ids : List InstanceId} {goal : Nat}

theorem SameChart.accounts (h : b.SameChart b') : b'.starts = b.starts ∧ b'.resumes = b.resumes ∧
    b'.step.awaiting = b.step.awaiting ∧ ∀ S, b'.waitingItems S = b.waitingItems S := by
  obtain ⟨c₁, history, step, agenda, counters, fault⟩ := b
  obtain ⟨c₂, history', step', agenda', counters', fault'⟩ := b'
  obtain ⟨hconcrete, hhistory, hstep⟩ := h
  dsimp only at hconcrete hhistory hstep
  subst hconcrete hhistory hstep
  exact ⟨rfl, rfl, rfl, fun _ => rfl⟩

/-- Items that are put on the agenda one after the other, whatever the order. -/
theorem agenda_foldl {α : Type} (f : Building → α → Building) (items : α → Multiset Item)
    (as : List α) (b : Building)
    (h : ∀ b', b.SameChart b' → ∀ a ∈ as, b'.SameChart (f b' a) ∧
      ((f b' a).agenda : Multiset Item) = items a + b'.agenda) :
    b.SameChart (as.foldl f b) ∧
      ((as.foldl f b).agenda : Multiset Item) = (as : Multiset α).bind items + b.agenda := by
  induction as generalizing b with
  | nil => exact ⟨⟨rfl, rfl, rfl⟩, by simp⟩
  | cons a as ih =>
    obtain ⟨hsame, hagenda⟩ := h b ⟨rfl, rfl, rfl⟩ a List.mem_cons_self
    obtain ⟨hsame', hagenda'⟩ := ih (f b a) fun b' hb' a' ha' =>
      h b' (hsame.trans hb') a' (List.mem_cons_of_mem _ ha')
    refine ⟨hsame.trans hsame', ?_⟩
    rw [List.foldl_cons, hagenda', hagenda, ← Multiset.cons_coe, Multiset.cons_bind]
    ac_rfl

theorem agenda_expand (b : Building) (set : ItemSetRef) (X : CatRef) (f : Nat) :
    b.SameChart (b.expand set X f) ∧ ((b.expand set X f).agenda : Multiset Item) =
      Multiset.map (fun production => ({ set, production, field := f } : Item))
        (b.productions X) + b.agenda := by
  obtain ⟨hsame, hagenda⟩ := agenda_foldl
    (fun b production => b.push { set, production, field := f })
    (fun production => {{ set, production, field := f }}) (b.productions X)
    { b with counters.predictions := b.counters.predictions + 1 }
    (fun b' _ production _ => ⟨⟨rfl, rfl, rfl⟩, rfl⟩)
  refine ⟨⟨hsame.concrete, hsame.history, hsame.step⟩, hagenda.trans ?_⟩
  rw [Multiset.bind_singleton]

theorem agenda_combine {r : ItemRef} {w : Item} (hw : b.item? r = some w) {arg g : Nat}
    (hx : b.concrete.constituent? w = some (.sub arg g)) (C : ChartCatId) :
    b.SameChart (b.combine r C) ∧ (b.combine r C).agenda = b.concrete.resumed w C :: b.agenda := by
  rw [combine, hw]
  dsimp only
  rw [Concrete.need_of_constituent? hx, Concrete.resumed, hx]
  exact ⟨⟨rfl, rfl, rfl⟩, rfl⟩

/-- What waits in a sound step has been stored. -/
theorem exists_item_of_waiting (hF : Sound c v ids goal b.facts) {S : ItemSetRef} {set : ItemSet}
    (hset : b.itemSet? S = some set) {r : ItemRef} (hr : r ∈ set.waiting) :
    ∃ i arg f, b.item? r = some i ∧ c.constituent? i = some (.sub arg f) := by
  obtain ⟨-, X, f, top, i, arg, -, hitem, hx, -⟩ := hF.grounded _ (waits_iff.2 ⟨set, hset, hr⟩)
  exact ⟨i, arg, f, item?_eq_some_iff.2 hitem, hx⟩

theorem itemSet?_congr (hhistory : b'.history = b.history)
    (hsets : b'.step.itemSets = b.step.itemSets) (S : ItemSetRef) :
    b'.itemSet? S = b.itemSet? S := by
  unfold itemSet? step? index
  rw [hhistory]
  split <;> simp [hsets]

theorem productions_congr (hconcrete : b'.concrete = b.concrete) (hhistory : b'.history = b.history)
    (hcats : b'.step.cats = b.step.cats) (X : CatRef) : b'.productions X = b.productions X := by
  cases X with
  | grammar id => rw [productions, productions, hconcrete]
  | chart C =>
    have hcat : b'.category? C = b.category? C := by
      unfold category? step? index
      rw [hhistory]
      split <;> simp [hcats]
    rw [productions, productions, hcat]

theorem item?_mono (hhistory : b'.history = b.history)
    (hitems : ∀ (idx : Nat) (i : Item), b.step.items[idx]? = some i →
      b'.step.items[idx]? = some i) {r : ItemRef} {i : Item} (h : b.item? r = some i) :
    b'.item? r = some i := by
  unfold item? step? index at h ⊢
  rw [hhistory]
  split
  · rename_i heq
    rw [if_pos heq] at h
    exact hitems _ _ h
  · rename_i hne
    rw [if_neg hne] at h
    exact h

theorem waitingItems_of_itemSet? {S : ItemSetRef} {set : ItemSet} (h : b.itemSet? S = some set) :
    b.waitingItems S = set.waiting.filterMap b.item? := by
  rw [waitingItems, h]
  rfl

/-- The same items wait as long as nobody joins them. -/
theorem waitingItems_congr (hF : Sound c v ids goal b.facts) {S : ItemSetRef}
    (hset : b'.itemSet? S = b.itemSet? S)
    (hitem : ∀ r i, b.item? r = some i → b'.item? r = some i) :
    b'.waitingItems S = b.waitingItems S := by
  unfold waitingItems
  rw [hset]
  cases hS : b.itemSet? S with
  | none => rfl
  | some set =>
    refine List.filterMap_congr fun r hr => ?_
    obtain ⟨i, -, -, hi, -⟩ := exists_item_of_waiting hF hS hr
    rw [hi, hitem r i hi]

theorem startsOf_congr {s : Nat} (hindex : b'.index = b.index)
    (hset : (b'.step.itemSets[s]?).map (fun set => (set.cat, set.field)) =
      (b.step.itemSets[s]?).map fun set => (set.cat, set.field))
    (hproductions : ∀ set, b.step.itemSets[s]? = some set →
      b'.productions set.cat = b.productions set.cat) : b'.startsOf s = b.startsOf s := by
  unfold startsOf
  rw [hindex]
  cases hs : b.step.itemSets[s]? with
  | none =>
    rw [hs] at hset
    rw [Option.map_eq_none_iff.1 hset]
  | some set =>
    rw [hs] at hset
    obtain ⟨set', hset', heq⟩ := Option.map_eq_some_iff.1 hset
    obtain ⟨hcat, hfield⟩ := Prod.mk.inj heq
    rw [hset']
    simp only [hcat, hfield, hproductions set hs]

theorem resumesOf_congr {j : Nat} (hconcrete : b'.concrete = b.concrete)
    (hindex : b'.index = b.index)
    (hcat : (b'.step.cats[j]?).map ChartCat.set = (b.step.cats[j]?).map ChartCat.set)
    (hwaiting : ∀ cat, b.step.cats[j]? = some cat →
      b'.waitingItems cat.set = b.waitingItems cat.set) : b'.resumesOf j = b.resumesOf j := by
  unfold resumesOf
  rw [hindex, hconcrete]
  cases hj : b.step.cats[j]? with
  | none =>
    rw [hj] at hcat
    rw [Option.map_eq_none_iff.1 hcat]
  | some cat =>
    rw [hj] at hcat
    obtain ⟨cat', hcat', heq⟩ := Option.map_eq_some_iff.1 hcat
    rw [hcat']
    simp only [heq, hwaiting cat hj]

/-- An item that changes no set. -/
theorem Posts.of_sets (hindex : b'.index = b.index) (hsets : b'.step.itemSets = b.step.itemSets)
    (hwaiting : ∀ s, b'.waitingItems ⟨b.index, s⟩ = b.waitingItems ⟨b.index, s⟩)
    (hasked : c.asked? item = none)
    (hbalance : (b'.agenda : Multiset Item) + b.starts + b.resumes =
      b.agenda + b'.starts + b'.resumes + c.skips item)
    (hawaiting : b'.step.awaiting = b.step.awaiting + c.awaits item) : Posts c item b b' := by
  refine ⟨hindex, hbalance, fun s set hs => ⟨set, hsets ▸ hs, rfl, rfl, ?_⟩,
    fun s set hs => .inl ⟨set, hsets ▸ hs⟩, fun X f h => ?_, hawaiting⟩
  · simp [hasked, hwaiting]
  · cases hasked.symm.trans h

end Congr

end Building

end Polyglot
