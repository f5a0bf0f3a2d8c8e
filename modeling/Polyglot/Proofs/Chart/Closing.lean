import Polyglot.Proofs.Chart.Posting

/-!
# What an item at its end does to the accounts

An item at its end either makes a new category, and all that waits for it goes on, or it adds a
production to one, and the production starts for all fields of the category that are predicted here.
With this every operation of a round has been followed through.

- `Building.packed`, `Building.posts_pack`: a category has one more production.
- `Building.closed`, `Building.posts_addCategory`: a step has one more category.
- `Building.posts_process`: what processing an item does to the accounts.
-/

namespace Polyglot

namespace Building

variable {c : Concrete} {v : Nat → Sym} {ids : List InstanceId} {goal : Nat} {b b' : Building}
  {item : Item}

/-! ## One more production -/

/-- A category that there is keeps its productions when others come. -/
theorem productions_mono (hconcrete : b'.concrete = b.concrete) (hhistory : b'.history = b.history)
    (hcats : ∀ (j : Nat) (cat : ChartCat), b.step.cats[j]? = some cat →
      b'.step.cats[j]? = some cat) {X : CatRef}
    (hX : ∀ C, X = .chart C → (b.category? C).isSome) : b'.productions X = b.productions X := by
  cases X with
  | grammar id => rw [productions, productions, hconcrete]
  | chart C =>
    obtain ⟨cat, hcat⟩ := Option.isSome_iff_exists.1 (hX C rfl)
    have hcat' : b'.category? C = some cat := by
      unfold category? step? index at hcat ⊢
      rw [hhistory]
      split
      · rename_i heq
        rw [if_pos heq] at hcat
        exact hcats _ _ hcat
      · rename_i hne
        rw [if_neg hne] at hcat
        exact hcat
    rw [productions, productions, hcat, hcat']

/-- A category that is predicted is there. -/
theorem category?_of_itemSets (hF : Sound c v ids goal b.facts) {s : Nat} {set : ItemSet}
    (hs : b.step.itemSets[s]? = some set) {C : ChartCatId} (hC : set.cat = .chart C) :
    (b.category? C).isSome := by
  have hset : b.facts (.predicts ⟨b.index, s⟩ set.cat set.field set.top) :=
    predicts_iff.2 ⟨set, by rw [itemSet?_here, hs], rfl, rfl, rfl⟩
  obtain ⟨⟨id, L, n, hchain, -⟩, -⟩ := hF.grounded _ hset
  exact category?_of_chain (hC ▸ hchain)

/-- A field that is predicted of a category of this step is one that the category has. -/
theorem field_lt_of_itemSets (hF : Sound c v ids goal b.facts) {s j : Nat} {set : ItemSet}
    {cat : ChartCat} (hs : b.step.itemSets[s]? = some set) (hj : b.step.cats[j]? = some cat)
    (hC : set.cat = .chart ⟨b.index, j⟩) : set.field < cat.fieldCount := by
  have hset : b.facts (.predicts ⟨b.index, s⟩ set.cat set.field set.top) :=
    predicts_iff.2 ⟨set, by rw [itemSet?_here, hs], rfl, rfl, rfl⟩
  rw [hC] at hset
  obtain ⟨⟨id, L, n, hchain, hn, hfield⟩, -⟩ := hF.grounded _ hset
  cases hchain with
  | chart hdone hchain =>
    obtain ⟨-, -, ⟨id', L', hchain', hn'⟩, -⟩ := hF.grounded _ hdone
    obtain ⟨rfl, -⟩ := hchain.unique hF.functional hchain'
    obtain ⟨cat', hcat', -, -, -, rfl⟩ := closes_iff.1 hdone
    have hcat : b.category? ⟨b.index, j⟩ = some cat := by simp [category?, step?, hj]
    cases hcat.symm.trans hcat'
    rw [hn, Option.getD_some] at hn'
    exact hn' ▸ hfield

/-- A step where a category has one more production. -/
def packed (b : Building) (j : Nat) (q : ChartProduction) : Building :=
  { b with step.cats := b.step.cats.modify j fun cat =>
      { cat with productions := cat.productions ++ [q] } }

/-- The item that a new production of a category begins for the prediction at a place, if that is of
the category. -/
def packedAt (b : Building) (j : Nat) (q : ChartProduction) (s : Nat) : Multiset Item :=
  match b.step.itemSets[s]? with
  | some set => if set.cat = .chart ⟨b.index, j⟩ then {⟨⟨b.index, s⟩, q, set.field, 0, 0, 0⟩} else 0
  | none => 0

/-- What is looked for field by field is found prediction by prediction. -/
theorem sum_packedAt (hF : Sound c v ids goal b.facts) {j : Nat} {cat : ChartCat}
    (hj : b.step.cats[j]? = some cat) (q : ChartProduction) :
    ∑ g ∈ Finset.range cat.fieldCount,
      (match b.step.findItemSet? (.chart ⟨b.index, j⟩) g with
        | some s => {⟨⟨b.index, s⟩, q, g, 0, 0, 0⟩}
        | none => (0 : Multiset Item)) =
      ∑ s ∈ Finset.range b.step.itemSets.size, b.packedAt j q s := by
  let item (s g : Nat) : Multiset Item := {⟨⟨b.index, s⟩, q, g, 0, 0, 0⟩}
  have hfields : ∀ g ∈ Finset.range cat.fieldCount,
      (match b.step.findItemSet? (.chart ⟨b.index, j⟩) g with
        | some s => item s g
        | none => (0 : Multiset Item)) = ∑ s ∈ Finset.range b.step.itemSets.size,
          if b.step.findItemSet? (.chart ⟨b.index, j⟩) g = some s then item s g else 0 := by
    intro g _
    cases hfind : b.step.findItemSet? (.chart ⟨b.index, j⟩) g with
    | none => simp
    | some s =>
      obtain ⟨set, hs, -⟩ := (findItemSet?_eq_some_iff hF).1 hfind
      simp [(Array.getElem?_eq_some_iff.1 hs).1]
  have hsets : ∀ s ∈ Finset.range b.step.itemSets.size, b.packedAt j q s =
      ∑ g ∈ Finset.range cat.fieldCount,
        if b.step.findItemSet? (.chart ⟨b.index, j⟩) g = some s then item s g else 0 := by
    intro s hs
    have hs := Array.getElem?_eq_getElem (Finset.mem_range.1 hs)
    rw [packedAt, hs]
    dsimp only
    split
    · rename_i hC
      have hlt := field_lt_of_itemSets hF hs hj hC
      rw [Finset.sum_eq_single_of_mem _ (Finset.mem_range.2 hlt), if_pos]
      · exact (findItemSet?_eq_some_iff hF).2 ⟨_, hs, hC, rfl⟩
      · intro g _ hne
        rw [if_neg]
        intro hfind
        obtain ⟨set, hs', -, rfl⟩ := (findItemSet?_eq_some_iff hF).1 hfind
        cases hs.symm.trans hs'
        exact hne rfl
    · rename_i hC
      refine (Finset.sum_eq_zero fun g _ => if_neg fun hfind => hC ?_).symm
      obtain ⟨set, hs', hcat, -⟩ := (findItemSet?_eq_some_iff hF).1 hfind
      cases hs.symm.trans hs'
      exact hcat
  rw [Finset.sum_congr rfl hsets, Finset.sum_comm]
  exact Finset.sum_congr rfl hfields

section Packed

variable {j : Nat} {cat : ChartCat} {q : ChartProduction}

theorem cats_packed (b : Building) (j : Nat) (q : ChartProduction) (i : Nat) :
    (b.packed j q).step.cats[i]? = if j = i then
      (b.step.cats[i]?).map fun cat => { cat with productions := cat.productions ++ [q] }
    else b.step.cats[i]? :=
  Array.getElem?_modify ..

theorem productions_packed_self (hj : b.step.cats[j]? = some cat) (q : ChartProduction) :
    (b.packed j q).productions (.chart ⟨b.index, j⟩) =
      b.productions (.chart ⟨b.index, j⟩) ++ [q] := by
  have hcat : b.category? ⟨b.index, j⟩ = some cat := by simp [category?, step?, hj]
  have hhere : (b.packed j q).category? ⟨b.index, j⟩ = (b.packed j q).step.cats[j]? := by
    simp [category?, step?, packed, index]
  have hcat' : (b.packed j q).category? ⟨b.index, j⟩ =
      some { cat with productions := cat.productions ++ [q] } := by
    rw [hhere, cats_packed, if_pos rfl, hj, Option.map_some]
  rw [productions, productions, hcat, hcat']
  rfl

theorem productions_packed_of_ne {X : CatRef} (hX : X ≠ .chart ⟨b.index, j⟩) :
    (b.packed j q).productions X = b.productions X := by
  cases X with
  | grammar id => rfl
  | chart C =>
    have hcat : (b.packed j q).category? C = b.category? C := by
      have hindex : (b.packed j q).index = b.index := rfl
      unfold category? step?
      rw [hindex]
      split
      · rename_i heq
        have hne : j ≠ C.idx := by
          rintro rfl
          exact hX (by rw [← heq])
        simp only [Option.bind_some]
        rw [cats_packed, if_neg hne]
      · rfl
    rw [productions, productions, hcat]

theorem waitingItems_packed (hF : Sound c v ids goal b.facts) (S : ItemSetRef) :
    (b.packed j q).waitingItems S = b.waitingItems S := by
  have hhistory : (b.packed j q).history = b.history := rfl
  exact waitingItems_congr hF (itemSet?_congr hhistory rfl S) fun _ _ =>
    item?_mono hhistory fun _ _ h => h

/-- The new production starts for all predictions of the category. -/
theorem starts_packed (hj : b.step.cats[j]? = some cat) (q : ChartProduction) :
    (b.packed j q).starts =
      b.starts + ∑ s ∈ Finset.range b.step.itemSets.size, b.packedAt j q s := by
  rw [starts, starts, ← Finset.sum_add_distrib]
  refine Finset.sum_congr rfl fun s _ => ?_
  have hs : (b.packed j q).step.itemSets[s]? = b.step.itemSets[s]? := rfl
  have hindex : (b.packed j q).index = b.index := rfl
  rw [startsOf, startsOf, packedAt, hs, hindex]
  cases b.step.itemSets[s]? with
  | none => rfl
  | some set =>
    dsimp only
    split
    · rename_i hC
      rw [hC, productions_packed_self hj, ← Multiset.coe_add, Multiset.map_add]
      rfl
    · rename_i hC
      rw [productions_packed_of_ne hC, add_zero]

/-- What waits for the category goes on only once. -/
theorem resumes_packed (hF : Sound c v ids goal b.facts) :
    (b.packed j q).resumes = b.resumes := by
  have hsize : (b.packed j q).step.cats.size = b.step.cats.size := Array.size_modify ..
  unfold resumes
  rw [hsize]
  refine Finset.sum_congr rfl fun i _ => resumesOf_congr rfl rfl ?_ fun cat _ =>
    waitingItems_packed hF _
  rw [cats_packed]
  split
  · cases b.step.cats[i]? <;> rfl
  · rfl

/-- The new production goes on the agenda field by field. -/
theorem agenda_pack (hF : Sound c v ids goal b.facts) (hj : b.step.cats[j]? = some cat)
    (hnew : q ∉ cat.productions) : (b.packed j q).SameChart (b.pack j cat q) ∧
      ((b.pack j cat q).agenda : Multiset Item) =
        (∑ s ∈ Finset.range b.step.itemSets.size, b.packedAt j q s) + b.agenda := by
  have hpack : b.pack j cat q = (List.range cat.fieldCount).foldl
      (fun (b : Building) field =>
        match b.step.findItemSet? (.chart ⟨b.index, j⟩) field with
        | some set => b.push ⟨⟨b.index, set⟩, q, field, 0, 0, 0⟩
        | none => b) (b.packed j q) := by
    rw [pack, if_neg hnew]
    rfl
  rw [hpack, ← sum_packedAt hF hj q]
  refine agenda_foldl _ (fun g => match b.step.findItemSet? (.chart ⟨b.index, j⟩) g with
    | some s => {⟨⟨b.index, s⟩, q, g, 0, 0, 0⟩}
    | none => (0 : Multiset Item)) (List.range cat.fieldCount) (b.packed j q) ?_
  intro b' hb' g _
  have hindex : b'.index = b.index := hb'.index_eq
  have hfind : b'.step.findItemSet? (.chart ⟨b'.index, j⟩) g =
      b.step.findItemSet? (.chart ⟨b.index, j⟩) g := by
    rw [hb'.step, hindex]
    rfl
  rw [hfind]
  cases b.step.findItemSet? (.chart ⟨b.index, j⟩) g with
  | none => exact ⟨⟨rfl, rfl, rfl⟩, (zero_add _).symm⟩
  | some s =>
    refine ⟨⟨rfl, rfl, rfl⟩, ?_⟩
    rw [hindex]
    rfl

end Packed

/-- A production that is new to a category. -/
theorem posts_pack (hF : Sound c v ids goal b.facts) (hended : c.Ended item) {j : Nat}
    {cat : ChartCat} (hj : b.step.cats[j]? = some cat) (hnew : item.production ∉ cat.productions) :
    Posts c item b (b.pack j cat item.production) := by
  obtain ⟨hasked, hskips, hawaits⟩ := hended.idle
  obtain ⟨hsame, hagenda⟩ := agenda_pack hF hj hnew
  obtain ⟨hstarts, hresumes, hawaiting, hwaiting⟩ := hsame.accounts
  refine .of_sets hsame.index_eq (by rw [hsame.step]; rfl)
    (fun s => (hwaiting _).trans (waitingItems_packed hF _)) hasked ?_ ?_
  · rw [hstarts, hresumes, starts_packed hj, resumes_packed hF, hskips, hagenda, add_zero]
    ac_rfl
  · rw [hawaiting, hawaits]
    exact (add_zero _).symm

/-- A step with one more category. -/
def closed (b : Building) (ref : ItemSetRef) (set : ItemSet) (q : ChartProduction) : Building :=
  { b with
    step.cats := b.step.cats.push
      ⟨⟨b.step.nextId⟩, ref, set.cat, set.field, b.fieldCount set.cat, [q]⟩
    step.completed :=
      if set.top then b.step.completed ++ [⟨b.index, b.step.cats.size⟩] else b.step.completed
    counters.syntheticCategories := b.counters.syntheticCategories + 1 }

/-- What is done for references one by one is done for the items that they lead to. -/
theorem bind_filterMap {α β γ : Type} (look : α → Option β) (f : β → γ) (as : List α) :
    (as : Multiset α).bind (fun a => ((look a).map f : Option γ).elim 0 ({·})) =
      ((as.filterMap look : List β) : Multiset β).map f := by
  induction as with
  | nil => rfl
  | cons a as ih =>
    rw [← Multiset.cons_coe, Multiset.cons_bind, ih]
    cases ha : look a with
    | none => simp [ha]
    | some b => simp [ha]

section Closed

variable {ref : ItemSetRef} {set : ItemSet} {q : ChartProduction}

/-- The categories that there are stay where they are. -/
theorem cats_closed (ref : ItemSetRef) (set : ItemSet) (q : ChartProduction) {j : Nat}
    {cat : ChartCat} (hj : b.step.cats[j]? = some cat) :
    (b.closed ref set q).step.cats[j]? = some cat := by
  have hlt := (Array.getElem?_eq_some_iff.1 hj).1
  rw [← hj]
  exact (Array.getElem?_push_lt hlt).trans (Array.getElem?_eq_getElem hlt).symm

theorem item?_closed (b : Building) (ref : ItemSetRef) (set : ItemSet) (q : ChartProduction)
    {r : ItemRef} {i : Item} (hi : b.item? r = some i) : (b.closed ref set q).item? r = some i := by
  have hhistory : (b.closed ref set q).history = b.history := rfl
  exact item?_mono hhistory (fun _ _ h => h) hi

theorem waitingItems_closed (hF : Sound c v ids goal b.facts) (S : ItemSetRef) :
    (b.closed ref set q).waitingItems S = b.waitingItems S := by
  have hhistory : (b.closed ref set q).history = b.history := rfl
  exact waitingItems_congr hF (itemSet?_congr hhistory rfl S) fun _ _ => b.item?_closed ref set q

/-- Nothing that is predicted is of the new category. -/
theorem starts_closed (hF : Sound c v ids goal b.facts) :
    (b.closed ref set q).starts = b.starts := by
  have hconcrete : (b.closed ref set q).concrete = b.concrete := rfl
  have hhistory : (b.closed ref set q).history = b.history := rfl
  have hindex : (b.closed ref set q).index = b.index := rfl
  exact Finset.sum_congr rfl fun s _ => startsOf_congr hindex rfl fun set' hs =>
    productions_mono hconcrete hhistory (fun _ _ => cats_closed ref set q) fun C hC =>
      category?_of_itemSets hF hs hC

/-- All that waits in the set of the new category goes on. -/
theorem resumes_closed (hF : Sound c v ids goal b.facts) : (b.closed ref set q).resumes =
    b.resumes + Multiset.map (b.concrete.resumed · ⟨b.index, b.step.cats.size⟩)
      (b.waitingItems ref) := by
  have hconcrete : (b.closed ref set q).concrete = b.concrete := rfl
  have hindex : (b.closed ref set q).index = b.index := rfl
  have hsize : (b.closed ref set q).step.cats.size = b.step.cats.size + 1 := Array.size_push ..
  unfold resumes
  rw [hsize, Finset.sum_range_succ]
  congr 1
  · refine Finset.sum_congr rfl fun j hj => resumesOf_congr hconcrete hindex ?_
      fun cat _ => waitingItems_closed hF _
    have hget := Array.getElem?_eq_getElem (Finset.mem_range.1 hj)
    rw [cats_closed ref set q hget, hget]
  · have hlast : (b.closed ref set q).step.cats[b.step.cats.size]? = some ⟨⟨b.step.nextId⟩, ref,
        set.cat, set.field, b.fieldCount set.cat, [q]⟩ := Array.getElem?_push_size ..
    rw [resumesOf, hlast]
    dsimp only
    rw [waitingItems_closed hF]
    rfl

/-- All that waits in a set goes on the agenda when a category is combined with it. -/
theorem agenda_addCategory (hF : Sound b.concrete v ids goal b.facts)
    (hset : b.itemSet? ref = some set) :
    (b.closed ref set q).SameChart (b.addCategory ref set q) ∧
      ((b.addCategory ref set q).agenda : Multiset Item) =
        Multiset.map (b.concrete.resumed · ⟨b.index, b.step.cats.size⟩) (b.waitingItems ref) +
          b.agenda := by
  rw [waitingItems_of_itemSet? hset, ← bind_filterMap]
  refine agenda_foldl (fun b' r => b'.combine r ⟨b.index, b.step.cats.size⟩) _ set.waiting
    (b.closed ref set q) ?_
  intro b' hb' r hr
  obtain ⟨i, arg, f, hi, hx⟩ := exists_item_of_waiting hF hset hr
  have hi' : b'.item? r = some i :=
    item?_mono hb'.history (fun idx j hj => by rw [hb'.step]; exact hj)
      (b.item?_closed ref set q hi)
  have hconcrete : b'.concrete = b.concrete := hb'.concrete
  obtain ⟨hsame, hagenda⟩ := agenda_combine hi' (by rw [hconcrete]; exact hx)
    ⟨b.index, b.step.cats.size⟩
  refine ⟨hsame, ?_⟩
  rw [hagenda, hi, hconcrete]
  rfl

end Closed

/-- An item that is the first one to complete its set. -/
theorem posts_addCategory (hF : Sound c v ids goal b.facts) (hc : b.concrete = c)
    (hended : c.Ended item) {set : ItemSet} (hset : b.itemSet? item.set = some set) :
    Posts c item b (b.addCategory item.set set item.production) := by
  subst hc
  obtain ⟨hasked, hskips, hawaits⟩ := hended.idle
  obtain ⟨hsame, hagenda⟩ := agenda_addCategory (q := item.production) hF hset
  obtain ⟨hstarts, hresumes, hawaiting, hwaiting⟩ := hsame.accounts
  refine .of_sets hsame.index_eq (by rw [hsame.step]; rfl)
    (fun s => (hwaiting _).trans (waitingItems_closed hF _)) hasked ?_ ?_
  · rw [hstarts, hresumes, starts_closed hF, resumes_closed hF, hskips, hagenda, add_zero]
    ac_rfl
  · rw [hawaiting, hawaits]
    exact (add_zero _).symm

/-- Counting changes no accounts. -/
theorem Posts.of_counters (counters : Counters) (h : Posts c item { b with counters } b') :
    Posts c item b b' :=
  ⟨h.index, h.balance, h.old, h.new, h.asked, h.awaiting⟩

/-- An item that does nothing. -/
theorem posts_idle (hskips : c.skips item = 0) (hasked : c.asked? item = none)
    (hawaits : c.awaits item = []) : Posts c item b b := by
  refine .of_sets rfl rfl (fun _ => rfl) hasked ?_ ?_
  · rw [hskips, add_zero]
  · rw [hawaits]
    exact (add_zero _).symm

/-- An item at its end. -/
theorem posts_complete (hF : Sound c v ids goal b.facts) (hc : b.concrete = c)
    (hitem : Stands c v b.facts b.index item) (hended : c.Ended item) :
    Posts c item b (b.complete item) := by
  obtain ⟨hasked, hskips, hawaits⟩ := hended.idle
  rw [complete]
  refine Posts.of_counters { b.counters with completions := b.counters.completions + 1 } ?_
  dsimp only
  cases hfind : b.step.findCategory? item.set with
  | some j =>
    dsimp only
    have hj := (Array.findIdx?_eq_some_iff_getElem.1 hfind).1
    rw [Array.getElem?_eq_getElem hj]
    dsimp only
    by_cases hold : item.production ∈ b.step.cats[j].productions
    · rw [pack, if_pos hold]
      exact posts_idle hskips hasked hawaits
    · exact posts_pack (b := { b with counters.completions := b.counters.completions + 1 }) hF
        hended (Array.getElem?_eq_getElem hj) hold
  | none =>
    dsimp only
    obtain ⟨hpredicts, -, -, -, -, -⟩ := hitem
    obtain ⟨set, hset, -⟩ := predicts_iff.1 hpredicts
    have hset' : ({ b with counters.completions := b.counters.completions + 1 } :
        Building).itemSet? item.set = some set := hset
    rw [hset']
    exact posts_addCategory (b := { b with
      counters.completions := b.counters.completions + 1 }) hF hc hended hset'

/-- **Processing an item posts it to the accounts.** -/
theorem posts_process (hwf : c.WellFormed) (hF : Sound c v ids goal b.facts)
    (hc : b.concrete = c) (hitem : Stands c v b.facts b.index item) :
    Posts c item b (b.process item) := by
  subst hc
  let b₁ : Building := { b with counters.items := b.counters.items + 1 }
  have hF₁ : Sound b.concrete v ids goal b₁.facts := hF
  have hitem₁ : Stands b.concrete v b₁.facts b₁.index item := hitem
  suffices h : Posts b.concrete item b₁ (b.process item) from h.of_counters _
  obtain ⟨body, hbody⟩ := hitem.body
  rcases Concrete.constituent?_or_ended hbody with ⟨x, hx⟩ | hended
  · have hneed := Concrete.need_of_constituent? hx
    cases x with
    | sub arg f =>
      obtain ⟨X, id, L, n, harg, -⟩ := hF.argument hwf hitem hx
      simp only [process, hneed, Item.Need.ofConstituent, predict, harg]
      cases hfind : b₁.step.findItemSet? X f with
      | some s => exact posts_join hF₁ rfl hx harg hfind
      | none => exact posts_predict hF₁ rfl hx harg hfind
    | lit arg f =>
      simp only [process, hneed, Item.Need.ofConstituent]
      exact posts_idle (by simp [Concrete.skips, hx, Constituent.formsBy])
        (by simp [Concrete.asked?, hx]) (by simp [Concrete.awaits, hx])
    | var arg index =>
      simp only [process, hneed, Item.Need.ofConstituent]
      exact posts_idle (by simp [Concrete.skips, hx, Constituent.formsBy])
        (by simp [Concrete.asked?, hx]) (by simp [Concrete.awaits, hx])
    | tokens ts =>
      simp only [process, hneed, Item.Need.ofConstituent]
      exact posts_tokens hF₁ hitem₁ hx
    | variants w =>
      simp only [process, hneed, Item.Need.ofConstituent]
      exact posts_awaitVariants (b := b₁) hF₁ hx
  · simp only [process, Concrete.need_of_ended hended]
    exact posts_complete hF₁ rfl hitem₁ hended

end Building

end Polyglot
