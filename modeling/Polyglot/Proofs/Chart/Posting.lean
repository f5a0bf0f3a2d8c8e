import Polyglot.Proofs.Chart.InRange
import Polyglot.Proofs.Chart.Ledger

/-!
# What an item that waits does to the accounts

The operations on a step in the making are followed through once more, this time for what they put
on the agenda and how often. These are the ones of items that have to wait.

- `Variants.perm_distinctForms`: forms with the same words are tried once.
- `Building.posts_tokens`, `posts_awaitVariants`: an item waits for words, or passes over a form
  that has none.
- `Building.joined`, `Building.posts_join`: an item asks for a category that was predicted before.
  If the category is complete already, then it goes on at once.
- `Building.predicted`, `Building.posts_predict`: an item is the first to ask for a category, and
  its productions start.
-/

namespace Polyglot

/-! ## Forms -/

namespace Variants

theorem mem_distinct_iff {seen : List (List Sym)} {forms : List (List Sym × Nat)}
    {ts : List Sym} :
    ts ∈ (distinct seen forms).map Prod.fst ↔ ts ∉ seen ∧ ts ∈ forms.map Prod.fst := by
  induction forms generalizing seen with
  | nil => simp [distinct]
  | cons form forms ih =>
    obtain ⟨ts', i⟩ := form
    rw [distinct]
    split
    · rw [ih]
      grind
    · rw [List.map_cons, List.mem_cons, ih]
      grind

theorem nodup_distinct (seen : List (List Sym)) (forms : List (List Sym × Nat)) :
    ((distinct seen forms).map Prod.fst).Nodup := by
  induction forms generalizing seen with
  | nil => exact .nil
  | cons form forms ih =>
    obtain ⟨ts', i⟩ := form
    rw [distinct]
    split
    · exact ih seen
    · refine List.nodup_cons.2 ⟨fun hmem => ?_, ih _⟩
      exact (mem_distinct_iff.1 hmem).1 List.mem_cons_self

/-- Forms with the same words are tried once. -/
theorem perm_distinctForms (w : Variants) : (w.distinctForms.map Prod.fst).Perm w.forms.dedup := by
  refine (List.perm_ext_iff_of_nodup (nodup_distinct ..) (List.nodup_dedup _)).2 fun ts => ?_
  rw [mem_distinct_iff, List.mem_dedup, List.zipIdx_map_fst]
  simp

end Variants

namespace Building

variable {c : Concrete} {v : Nat → Sym} {ids : List InstanceId} {goal : Nat} {b b' : Building}
  {item : Item}

/-! ## Items that wait for words -/

/-- Items are stored to wait for tokens, and put on the agenda, and nothing else. -/
structure Stores (b b' : Building) : Prop where
  concrete : b'.concrete = b.concrete
  history : b'.history = b.history
  itemSets : b'.step.itemSets = b.step.itemSets
  cats : b'.step.cats = b.step.cats
  items : ∀ (idx : Nat) (i : Item), b.step.items[idx]? = some i → b'.step.items[idx]? = some i
  range : (∀ e ∈ b.step.transitions, e.2 < b.step.items.size) →
    ∀ e ∈ b'.step.transitions, e.2 < b'.step.items.size

theorem Stores.trans {b'' : Building} (h : Stores b b') (h' : Stores b' b'') : Stores b b'' :=
  ⟨h'.concrete.trans h.concrete, h'.history.trans h.history, h'.itemSets.trans h.itemSets,
    h'.cats.trans h.cats, fun idx i hi => h'.items idx i (h.items idx i hi),
    fun hrange => h'.range (h.range hrange)⟩

theorem stores_push (b : Building) (item : Item) : Stores b (b.push item) :=
  ⟨rfl, rfl, rfl, rfl, fun _ _ h => h, fun h => h⟩

theorem stores_waitFor (b : Building) (t : Sym) (item : Item) : Stores b (b.waitFor t item) := by
  refine ⟨rfl, rfl, rfl, rfl, fun idx i hi => ?_, fun hrange e he => ?_⟩
  · have hlt := (Array.getElem?_eq_some_iff.1 hi).1
    simp only [waitFor, store]
    rw [Array.getElem?_push_lt hlt, ← hi, Array.getElem?_eq_getElem hlt]
  · simp only [waitFor, store, Array.size_push]
    rcases List.mem_append.1 he with he | he
    · exact Nat.lt_succ_of_lt (hrange e he)
    · rw [List.mem_singleton.1 he]
      exact Nat.lt_succ_self _

theorem awaiting_waitFor (hrange : ∀ e ∈ b.step.transitions, e.2 < b.step.items.size) (t : Sym)
    (item : Item) : (b.waitFor t item).step.awaiting = b.step.awaiting + {(t, item)} := by
  have hold : b.step.transitions.filterMap
      (fun e => (b.step.items.push item)[e.2]?.map (e.1, ·)) =
      b.step.transitions.filterMap fun e => b.step.items[e.2]?.map (e.1, ·) := by
    refine List.filterMap_congr fun e he => ?_
    have hlt : e.2 < b.step.items.size := hrange _ he
    rw [Array.getElem?_push_lt hlt, Array.getElem?_eq_getElem hlt]
  simp only [Step.awaiting, waitFor, store, List.filterMap_append, hold]
  rw [← Multiset.coe_add]
  simp

/-- An item that comes to several forms waits for the first word of each, and goes on once for each
that has none. -/
theorem stores_forms (item : Item) (forms : List (List Sym × Nat)) (b : Building)
    (hrange : ∀ e ∈ b.step.transitions, e.2 < b.step.items.size) :
    let b' := forms.foldl
      (fun b (tokens, form) =>
        match tokens with
        | token :: _ => b.waitFor token { item with form }
        | [] => b.push item.advanced) b
    Stores b b' ∧
      b'.step.awaiting = b.step.awaiting +
        ((forms.filterMap fun (ts, form) => ts.head?.map (·, { item with form }) :
          List (Sym × Item)) : Multiset (Sym × Item)) ∧
      (b'.agenda : Multiset Item) =
        Multiset.replicate ((forms.map Prod.fst).count []) item.advanced + b.agenda := by
  induction forms generalizing b with
  | nil => exact ⟨⟨rfl, rfl, rfl, rfl, fun _ _ h => h, fun h => h⟩, by simp, by simp⟩
  | cons entry forms ih =>
    obtain ⟨tokens, form⟩ := entry
    cases tokens with
    | nil =>
      obtain ⟨hstores, hawaiting, hagenda⟩ := ih (b.push item.advanced) hrange
      refine ⟨(b.stores_push _).trans hstores, hawaiting, hagenda.trans ?_⟩
      rw [List.map_cons, List.count_cons_self, Multiset.replicate_succ, push, ← Multiset.cons_coe,
        Multiset.add_cons, Multiset.cons_add]
    | cons t ts =>
      have hfirst := b.stores_waitFor t { item with form }
      obtain ⟨hstores, hawaiting, hagenda⟩ :=
        ih (b.waitFor t { item with form }) (hfirst.range hrange)
      refine ⟨hfirst.trans hstores, ?_, ?_⟩
      · rw [List.foldl_cons, hawaiting, awaiting_waitFor hrange, add_assoc]
        rfl
      · rw [List.map_cons, List.count_cons_of_ne (by simp)]
        exact hagenda

/-- The tokens that are waited for are those of stored items. -/
theorem transitions_lt (hF : Sound c v ids goal b.facts) :
    ∀ e ∈ b.step.transitions, e.2 < b.step.items.size := by
  rintro ⟨t, idx⟩ he
  have hawaits : b.facts (.awaits b.index t idx) := ⟨b.index, b.step, by simp [index], rfl, he⟩
  obtain ⟨i, x, ts, hitem, -⟩ := hF.grounded _ hawaits
  obtain ⟨k, s, hs, rfl, hi⟩ := hitem
  rw [index, Array.getElem?_push_size] at hs
  cases hs
  exact (Array.getElem?_eq_some_iff.1 hi).1

/-- An item that only waits for words, and maybe skips some. -/
theorem posts_words (hF : Sound c v ids goal b.facts) (hstores : Stores b b')
    (hasked : c.asked? item = none)
    (hagenda : (b'.agenda : Multiset Item) = c.skips item + b.agenda)
    (hawaiting : b'.step.awaiting = b.step.awaiting + c.awaits item) : Posts c item b b' := by
  have hindex : b'.index = b.index := by rw [index, index, hstores.history]
  have hwaiting : ∀ S, b'.waitingItems S = b.waitingItems S := fun S =>
    waitingItems_congr hF (itemSet?_congr hstores.history hstores.itemSets S)
      fun _ _ => item?_mono hstores.history hstores.items
  have hstarts : b'.starts = b.starts := by
    rw [starts, starts, hstores.itemSets]
    exact Finset.sum_congr rfl fun s _ => startsOf_congr hindex (by rw [hstores.itemSets])
      fun set _ => productions_congr hstores.concrete hstores.history hstores.cats _
  have hresumes : b'.resumes = b.resumes := by
    rw [resumes, resumes, hstores.cats]
    exact Finset.sum_congr rfl fun j _ => resumesOf_congr hstores.concrete hindex
      (by rw [hstores.cats]) fun _ _ => hwaiting _
  refine .of_sets hindex hstores.itemSets (fun s => hwaiting _) hasked ?_ hawaiting
  rw [hagenda, hstarts, hresumes]
  ac_rfl

/-- An item that comes to words. -/
theorem posts_tokens (hF : Sound c v ids goal b.facts) (hitem : Stands c v b.facts b.index item)
    {ts : List Sym} (hx : c.constituent? item = some (.tokens ts)) :
    Posts c item b (match ts[item.word]? with
      | some token => b.waitFor token item
      | none => b.push item.advanced) := by
  have hasked : c.asked? item = none := by simp [Concrete.asked?, hx]
  have hskips : c.skips item = if item.word = 0 ∧ ts = [] then {item.advanced} else 0 := by
    simp [Concrete.skips, hx, Constituent.formsBy, eq_comm]
  have hawaits : c.awaits item = ts[item.word]?.toList.map (·, item) := by
    simp [Concrete.awaits, hx]
  cases ht : ts[item.word]? with
  | some t =>
    have hsome : ¬ (item.word = 0 ∧ ts = []) := by
      rintro ⟨-, rfl⟩
      simp at ht
    refine posts_words hF (b.stores_waitFor t item) hasked ?_ ?_
    · rw [hskips, if_neg hsome, zero_add]
      rfl
    · rw [awaiting_waitFor (transitions_lt hF), hawaits, ht]
      rfl
  | none =>
    refine posts_words hF (b.stores_push _) hasked ?_ ?_
    · rw [hskips, if_pos (hitem.of_no_token hx ht)]
      rfl
    · rw [hawaits, ht]
      exact (add_zero _).symm

/-- An item that comes to several forms. -/
theorem posts_awaitVariants (hF : Sound c v ids goal b.facts) {w : Variants}
    (hx : c.constituent? item = some (.variants w)) : Posts c item b (b.awaitVariants w item) := by
  have hasked : c.asked? item = none := by simp [Concrete.asked?, hx]
  have hskips : c.skips item = if item.word = 0 ∧ [] ∈ w.forms then {item.advanced} else 0 := by
    simp [Concrete.skips, hx, Constituent.formsBy]
  have hawaits : c.awaits item =
      if 0 < item.word then ((w.form? item.form).bind (·[item.word]?)).toList.map (·, item)
      else w.distinctForms.filterMap fun (ts, form) => ts.head?.map (·, { item with form }) := by
    simp [Concrete.awaits, hx]
  unfold awaitVariants
  by_cases hword : 0 < item.word
  · rw [if_pos hword] at hawaits ⊢
    rw [if_neg (by omega)] at hskips
    cases ht : (w.form? item.form).bind (·[item.word]?) with
    | some t =>
      refine posts_words hF (b.stores_waitFor t item) hasked ?_ ?_
      · rw [hskips, zero_add]
        rfl
      · rw [awaiting_waitFor (transitions_lt hF), hawaits, ht]
        rfl
    | none =>
      refine posts_words hF ⟨rfl, rfl, rfl, rfl, fun _ _ h => h, fun h => h⟩ hasked ?_ ?_
      · rw [hskips, zero_add]
      · rw [hawaits, ht]
        exact (add_zero _).symm
  · rw [if_neg hword] at hawaits ⊢
    obtain ⟨hstores, hawaiting, hagenda⟩ :=
      stores_forms item w.distinctForms b (transitions_lt hF)
    refine posts_words hF hstores hasked ?_ (by rw [hawaits]; exact hawaiting)
    refine Eq.trans hagenda ?_
    rw [hskips, w.perm_distinctForms.count_eq]
    have hzero : item.word = 0 := Nat.eq_zero_of_not_pos hword
    by_cases hempty : [] ∈ w.forms
    · rw [List.count_eq_one_of_mem (List.nodup_dedup _) (List.mem_dedup.2 hempty),
        if_pos ⟨hzero, hempty⟩, Multiset.replicate_one]
    · rw [List.count_eq_zero_of_not_mem (fun h => hempty (List.mem_dedup.1 h)),
        if_neg fun h => hempty h.2, Multiset.replicate_zero]

/-! ## Items that ask for a category -/

theorem itemSet?_here (b : Building) (s : Nat) : b.itemSet? ⟨b.index, s⟩ = b.step.itemSets[s]? := by
  simp [itemSet?, step?]

theorem itemSet?_past (hhistory : b'.history = b.history) {S : ItemSetRef} (hS : S.step ≠ b.index) :
    b'.itemSet? S = b.itemSet? S := by
  have hindex : b'.index = b.index := by rw [index, index, hhistory]
  simp only [itemSet?, step?, hindex, if_neg hS, hhistory]

/-- What was stored before an item is stored after it. -/
theorem item?_push (hhistory : b'.history = b.history)
    (hitems : b'.step.items = b.step.items.push item) :
    (∀ r i, b.item? r = some i → b'.item? r = some i) ∧
      b'.item? ⟨b.index, b.step.items.size⟩ = some item := by
  refine ⟨fun r i => item?_mono hhistory fun idx j hj => ?_, ?_⟩
  · have hlt := (Array.getElem?_eq_some_iff.1 hj).1
    rw [hitems, Array.getElem?_push_lt hlt, ← hj, Array.getElem?_eq_getElem hlt]
  · simp [item?, step?, index, hhistory, hitems]

/-- What was awaited before an item is stored is awaited after it. -/
theorem awaiting_push (hF : Sound c v ids goal b.facts)
    (htransitions : b'.step.transitions = b.step.transitions)
    (hitems : b'.step.items = b.step.items.push item) : b'.step.awaiting = b.step.awaiting := by
  unfold Step.awaiting
  rw [htransitions]
  refine congrArg _ (List.filterMap_congr fun ⟨t, idx⟩ he => ?_)
  have hlt : idx < b.step.items.size := transitions_lt hF _ he
  dsimp only
  rw [hitems, Array.getElem?_push_lt hlt, Array.getElem?_eq_getElem hlt]

/-- The sets of a step predict different things. -/
theorem itemSets_inj (hF : Sound c v ids goal b.facts) {s s' : Nat} {set set' : ItemSet}
    (hs : b.step.itemSets[s]? = some set) (hs' : b.step.itemSets[s']? = some set')
    (hcat : set.cat = set'.cat) (hfield : set.field = set'.field) : s = s' := by
  have hset : b.facts (.predicts ⟨b.index, s⟩ set.cat set.field set.top) :=
    predicts_iff.2 ⟨set, by rw [itemSet?_here, hs], rfl, rfl, rfl⟩
  have hset' : b.facts (.predicts ⟨b.index, s'⟩ set.cat set.field set'.top) :=
    predicts_iff.2 ⟨set', by rw [itemSet?_here, hs'], hcat.symm, hfield.symm, rfl⟩
  exact congrArg ItemSetRef.idx (hF.predicts_once _ _ _ _ _ _ hset hset' rfl)

/-- The place of the set for a field of a category is the one that there is. -/
theorem findItemSet?_eq_some_iff (hF : Sound c v ids goal b.facts) {X : CatRef} {f s : Nat} :
    b.step.findItemSet? X f = some s ↔
      ∃ set, b.step.itemSets[s]? = some set ∧ set.cat = X ∧ set.field = f := by
  have hfound : ∀ {s}, b.step.findItemSet? X f = some s →
      ∃ set, b.step.itemSets[s]? = some set ∧ set.cat = X ∧ set.field = f := by
    intro s h
    obtain ⟨hlt, heq, -⟩ := Array.findIdx?_eq_some_iff_getElem.1 h
    exact ⟨_, Array.getElem?_eq_getElem hlt, by simpa using heq⟩
  refine ⟨hfound, ?_⟩
  rintro ⟨set, hs, rfl, rfl⟩
  cases hfind : b.step.findItemSet? set.cat set.field with
  | none =>
    have := Array.findIdx?_eq_none_iff.1 hfind set (Array.mem_of_getElem? hs)
    simp at this
  | some s' =>
    obtain ⟨set', hs', hcat, hfield⟩ := hfound hfind
    rw [itemSets_inj hF hs hs' hcat.symm hfield.symm]

/-- So is the place of the category that completes a set. -/
theorem findCategory?_eq_some_iff (hF : Sound c v ids goal b.facts) {S : ItemSetRef} {j : Nat} :
    b.step.findCategory? S = some j ↔ ∃ cat, b.step.cats[j]? = some cat ∧ cat.set = S := by
  have hfound : ∀ {j}, b.step.findCategory? S = some j →
      ∃ cat, b.step.cats[j]? = some cat ∧ cat.set = S := by
    intro j h
    obtain ⟨hlt, heq, -⟩ := Array.findIdx?_eq_some_iff_getElem.1 h
    exact ⟨_, Array.getElem?_eq_getElem hlt, by simpa using heq⟩
  have hcloses : ∀ {j cat}, b.step.cats[j]? = some cat →
      b.facts (.closes ⟨b.index, j⟩ cat.set cat.cat cat.field cat.fieldCount) := fun hj =>
    closes_iff.2 ⟨_, by simp [category?, step?, hj], rfl, rfl, rfl, rfl⟩
  refine ⟨hfound, ?_⟩
  rintro ⟨cat, hj, rfl⟩
  cases hfind : b.step.findCategory? cat.set with
  | none =>
    have := Array.findIdx?_eq_none_iff.1 hfind cat (Array.mem_of_getElem? hj)
    simp at this
  | some j' =>
    obtain ⟨cat', hj', heq⟩ := hfound hfind
    have hdone := hcloses hj'
    rw [heq] at hdone
    have hid := hF.closes_once _ _ _ _ _ _ _ _ _ hdone (hcloses hj) rfl
    exact congrArg some (congrArg ChartCatId.idx hid)

/-- If a set gets one more item then the category that completes it lets one more go on. -/
theorem sum_range_update {α : Type} {n j : Nat} {f f' : Nat → Multiset α} {d : Multiset α}
    (hj : j < n) (hself : f' j = f j + d) (hrest : ∀ i < n, i ≠ j → f' i = f i) :
    ∑ i ∈ Finset.range n, f' i = ∑ i ∈ Finset.range n, f i + d := by
  have hsum : ∀ i ∈ Finset.range n, f' i = f i + if i = j then d else 0 := by
    intro i hi
    split
    · rename_i heq
      rw [heq, hself]
    · rename_i hne
      rw [hrest i (Finset.mem_range.1 hi) hne, add_zero]
  rw [Finset.sum_congr rfl hsum, Finset.sum_add_distrib, Finset.sum_ite_eq',
    if_pos (Finset.mem_range.2 hj)]

/-- A step where one more item waits, for the prediction at a place. -/
def joined (b : Building) (item : Item) (s : Nat) : Building :=
  { b with
    step.items := b.step.items.push item
    step.itemSets := b.step.itemSets.modify s fun set =>
      { set with waiting := set.waiting ++ [⟨b.index, b.step.items.size⟩] } }

theorem awaitCategory_of_some {X : CatRef} {f s : Nat}
    (hfind : b.step.findItemSet? X f = some s) : b.awaitCategory item X f =
      match b.step.findCategory? ⟨b.index, s⟩ with
      | some j => (b.joined item s).combine ⟨b.index, b.step.items.size⟩ ⟨b.index, j⟩
      | none => b.joined item s := by
  have hfind' : (b.store item).2.step.findItemSet? X f = some s := hfind
  unfold awaitCategory
  simp only [hfind']
  rfl

section Joined

variable {s : Nat}

theorem itemSets_joined (b : Building) (item : Item) (s s' : Nat) :
    (b.joined item s).step.itemSets[s']? = if s = s' then (b.step.itemSets[s']?).map fun set =>
      { set with waiting := set.waiting ++ [⟨b.index, b.step.items.size⟩] }
    else b.step.itemSets[s']? :=
  Array.getElem?_modify ..

theorem item?_joined (b : Building) (item : Item) (s : Nat) :
    (∀ r i, b.item? r = some i → (b.joined item s).item? r = some i) ∧
      (b.joined item s).item? ⟨b.index, b.step.items.size⟩ = some item := by
  have hhistory : (b.joined item s).history = b.history := rfl
  have hstored : (b.joined item s).step.items = b.step.items.push item := rfl
  exact item?_push hhistory hstored

/-- The set at the place has one more item that waits. -/
theorem waitingItems_joined_self (hF : Sound c v ids goal b.facts) (hs : s < b.step.itemSets.size) :
    (b.joined item s).waitingItems ⟨b.index, s⟩ = b.waitingItems ⟨b.index, s⟩ ++ [item] := by
  obtain ⟨hitems, hitem⟩ := b.item?_joined item s
  have hset : b.itemSet? ⟨b.index, s⟩ = some b.step.itemSets[s] := by
    rw [itemSet?_here, Array.getElem?_eq_getElem hs]
  have hset' : (b.joined item s).itemSet? ⟨b.index, s⟩ = some { b.step.itemSets[s] with
      waiting := b.step.itemSets[s].waiting ++ [⟨b.index, b.step.items.size⟩] } := by
    refine (itemSet?_here (b.joined item s) s).trans ?_
    rw [itemSets_joined, if_pos rfl, Array.getElem?_eq_getElem hs, Option.map_some]
  rw [waitingItems_of_itemSet? hset', waitingItems_of_itemSet? hset, List.filterMap_append,
    List.filterMap_cons_some hitem, List.filterMap_nil]
  congr 1
  refine List.filterMap_congr fun r hr => ?_
  obtain ⟨i, -, -, hi, -⟩ := exists_item_of_waiting hF hset hr
  rw [hi, hitems r i hi]

/-- No other set has. -/
theorem waitingItems_joined_of_ne (hF : Sound c v ids goal b.facts) {S : ItemSetRef}
    (hS : S ≠ ⟨b.index, s⟩) : (b.joined item s).waitingItems S = b.waitingItems S := by
  refine waitingItems_congr hF ?_ (b.item?_joined item s).1
  by_cases hstep : S.step = b.index
  · obtain ⟨k, s'⟩ := S
    dsimp only at hstep
    subst hstep
    have hne : s ≠ s' := fun h => hS (by rw [h])
    rw [itemSet?_here]
    refine (itemSet?_here (b.joined item s) s').trans ?_
    rw [itemSets_joined, if_neg hne]
  · have hhistory : (b.joined item s).history = b.history := rfl
    exact itemSet?_past hhistory hstep

theorem starts_joined : (b.joined item s).starts = b.starts := by
  have hhistory : (b.joined item s).history = b.history := rfl
  have hsize : (b.joined item s).step.itemSets.size = b.step.itemSets.size := Array.size_modify ..
  have hproductions : ∀ X, (b.joined item s).productions X = b.productions X :=
    productions_congr rfl hhistory rfl
  unfold starts
  rw [hsize]
  refine Finset.sum_congr rfl fun s' _ => startsOf_congr rfl ?_ fun set _ => hproductions _
  rw [itemSets_joined]
  split
  · cases b.step.itemSets[s']? <;> rfl
  · rfl

/-- The category that completes the set lets the item go on. -/
theorem resumes_joined_of_some (hF : Sound c v ids goal b.facts) (hs : s < b.step.itemSets.size)
    {j : Nat} (hfind : b.step.findCategory? ⟨b.index, s⟩ = some j) :
    (b.joined item s).resumes = b.resumes + {b.concrete.resumed item ⟨b.index, j⟩} := by
  obtain ⟨cat, hj, hcatset⟩ := (findCategory?_eq_some_iff hF).1 hfind
  have hj' : (b.joined item s).step.cats[j]? = some cat := hj
  refine sum_range_update (Array.getElem?_eq_some_iff.1 hj).1 ?_ fun j' _ hne => ?_
  · simp only [resumesOf, hj', hj, hcatset, waitingItems_joined_self hF hs]
    rw [← Multiset.coe_add, Multiset.map_add]
    rfl
  · refine resumesOf_congr rfl rfl rfl fun cat' hj' => waitingItems_joined_of_ne hF fun heq =>
      hne ?_
    have hfind' := (findCategory?_eq_some_iff hF).2 ⟨cat', hj', heq⟩
    exact Option.some.inj (hfind'.symm.trans hfind)

theorem resumes_joined_of_none (hF : Sound c v ids goal b.facts)
    (hfind : b.step.findCategory? ⟨b.index, s⟩ = none) :
    (b.joined item s).resumes = b.resumes := by
  refine Finset.sum_congr rfl fun j _ => resumesOf_congr rfl rfl rfl fun cat hj =>
    waitingItems_joined_of_ne hF fun heq => ?_
  cases hfind.symm.trans ((findCategory?_eq_some_iff hF).2 ⟨cat, hj, heq⟩)

end Joined

/-- What is done with the agenda leaves the accounts of the step alone. -/
theorem posts_joined (hF : Sound c v ids goal b.facts) {arg f s : Nat} {X : CatRef}
    (hx : c.constituent? item = some (.sub arg f)) (harg : item.production.args[arg]? = some X)
    (hfind : b.step.findItemSet? X f = some s) (hsame : (b.joined item s).SameChart b')
    (hbalance : (b'.agenda : Multiset Item) + b.resumes = b.agenda + (b.joined item s).resumes) :
    Posts c item b b' := by
  obtain ⟨hasked, hskips, hawaits⟩ := Concrete.asks_of_sub hx harg
  obtain ⟨set, hs, rfl, rfl⟩ := (findItemSet?_eq_some_iff hF).1 hfind
  obtain ⟨hstarts, hresumes, hawaiting, hwaiting⟩ := hsame.accounts
  have hself : (b.joined item s).step.itemSets[s]? =
      some { set with waiting := set.waiting ++ [⟨b.index, b.step.items.size⟩] } := by
    rw [itemSets_joined, if_pos rfl, hs, Option.map_some]
  have hstored : (b.joined item s).step.items = b.step.items.push item := rfl
  refine ⟨hsame.index_eq, ?_, fun s' set' hs' => ?_, fun s' set' hs' => .inl ?_, fun Y g hY => ?_,
    ?_⟩
  · rw [hstarts, starts_joined, hresumes, hskips, add_zero, add_right_comm, hbalance]
    ac_rfl
  · rw [hsame.step, hwaiting, hasked]
    by_cases hss : s = s'
    · subst hss
      cases hs.symm.trans hs'
      refine ⟨_, hself, rfl, rfl, ?_⟩
      rw [if_pos rfl, waitingItems_joined_self hF (Array.getElem?_eq_some_iff.1 hs).1]
    · refine ⟨set', by rw [itemSets_joined, if_neg hss, hs'], rfl, rfl, ?_⟩
      have hne : ¬ some (set.cat, set.field) = some (set'.cat, set'.field) := by
        intro heq
        obtain ⟨hcat, hfield⟩ := Prod.mk.inj (Option.some.inj heq)
        exact hss (itemSets_inj hF hs hs' hcat hfield)
      rw [if_neg hne, List.append_nil]
      exact waitingItems_joined_of_ne hF fun heq => hss (congrArg ItemSetRef.idx heq).symm
  · rw [hsame.step] at hs'
    have hlt := (Array.getElem?_eq_some_iff.1 hs').1
    exact ⟨_, Array.getElem?_eq_getElem (by simpa [joined] using hlt)⟩
  · obtain ⟨rfl, rfl⟩ := Prod.mk.inj (Option.some.inj (hasked.symm.trans hY))
    refine ⟨{ set with waiting := set.waiting ++ [⟨b.index, b.step.items.size⟩] }, ?_, rfl, rfl⟩
    rw [hsame.step]
    exact Array.mem_of_getElem? hself
  · have hold : (b.joined item s).step.awaiting = b.step.awaiting := awaiting_push hF rfl hstored
    rw [hawaiting, hold, hawaits]
    exact (add_zero _).symm

/-- An item that asks for a category that was predicted before. -/
theorem posts_join (hF : Sound c v ids goal b.facts) (hc : b.concrete = c) {arg f s : Nat}
    {X : CatRef} (hx : c.constituent? item = some (.sub arg f))
    (harg : item.production.args[arg]? = some X) (hfind : b.step.findItemSet? X f = some s) :
    Posts c item b (b.awaitCategory item X f) := by
  subst hc
  obtain ⟨set, hs, -⟩ := (findItemSet?_eq_some_iff hF).1 hfind
  rw [awaitCategory_of_some hfind]
  cases hcat : b.step.findCategory? ⟨b.index, s⟩ with
  | some j =>
    have hitem := (b.item?_joined item s).2
    obtain ⟨hsame, hagenda⟩ := agenda_combine hitem hx ⟨b.index, j⟩
    refine posts_joined hF hx harg hfind hsame ?_
    rw [resumes_joined_of_some hF (Array.getElem?_eq_some_iff.1 hs).1 hcat, hagenda,
      ← Multiset.cons_coe, ← Multiset.singleton_add]
    change {b.concrete.resumed item ⟨b.index, j⟩} + (b.agenda : Multiset Item) + _ = _
    ac_rfl
  | none =>
    refine posts_joined hF hx harg hfind ⟨rfl, rfl, rfl⟩ ?_
    rw [resumes_joined_of_none hF hcat]
    rfl

/-- A step where a category is predicted for an item that waits for it. -/
def predicted (b : Building) (item : Item) (X : CatRef) (f : Nat) : Building :=
  { b with
    step.items := b.step.items.push item
    step.itemSets := b.step.itemSets.push ⟨X, f, false, [⟨b.index, b.step.items.size⟩]⟩ }

theorem awaitCategory_of_none {X : CatRef} {f : Nat} (hfind : b.step.findItemSet? X f = none) :
    b.awaitCategory item X f =
      (b.predicted item X f).expand ⟨b.index, b.step.itemSets.size⟩ X f := by
  have hfind' : (b.store item).2.step.findItemSet? X f = none := hfind
  unfold awaitCategory
  simp only [hfind']
  rfl

/-- What completes a set is not new, so neither is the set. -/
theorem exists_itemSet_of_cats (hF : Sound c v ids goal b.facts) {j : Nat} {cat : ChartCat}
    (hj : b.step.cats[j]? = some cat) : ∃ set, b.itemSet? cat.set = some set := by
  have hdone : b.facts (.closes ⟨b.index, j⟩ cat.set cat.cat cat.field cat.fieldCount) :=
    closes_iff.2 ⟨_, by simp [category?, step?, hj], rfl, rfl, rfl, rfl⟩
  obtain ⟨-, ⟨top, hset⟩, -⟩ := hF.grounded _ hdone
  exact Option.isSome_iff_exists.1 (itemSet?_of_predicts hset)

section Predicted

variable {X : CatRef} {f : Nat}

/-- The sets that there are stay where they are. -/
theorem itemSets_predicted (item : Item) (X : CatRef) (f : Nat) {s : Nat} {set : ItemSet}
    (hs : b.step.itemSets[s]? = some set) :
    (b.predicted item X f).step.itemSets[s]? = some set := by
  have hlt := (Array.getElem?_eq_some_iff.1 hs).1
  rw [← hs]
  exact (Array.getElem?_push_lt hlt).trans (Array.getElem?_eq_getElem hlt).symm

theorem itemSets_predicted_size (b : Building) (item : Item) (X : CatRef) (f : Nat) :
    (b.predicted item X f).step.itemSets[b.step.itemSets.size]? =
      some ⟨X, f, false, [⟨b.index, b.step.items.size⟩]⟩ :=
  Array.getElem?_push_size ..

theorem item?_predicted (b : Building) (item : Item) (X : CatRef) (f : Nat) :
    (∀ r i, b.item? r = some i → (b.predicted item X f).item? r = some i) ∧
      (b.predicted item X f).item? ⟨b.index, b.step.items.size⟩ = some item := by
  have hhistory : (b.predicted item X f).history = b.history := rfl
  have hstored : (b.predicted item X f).step.items = b.step.items.push item := rfl
  exact item?_push hhistory hstored

/-- Nothing else waits in the sets that there are. -/
theorem waitingItems_predicted (hF : Sound c v ids goal b.facts) {S : ItemSetRef} {set : ItemSet}
    (hS : b.itemSet? S = some set) :
    (b.predicted item X f).waitingItems S = b.waitingItems S := by
  refine waitingItems_congr hF ?_ (b.item?_predicted item X f).1
  by_cases hstep : S.step = b.index
  · obtain ⟨k, s⟩ := S
    dsimp only at hstep
    subst hstep
    rw [itemSet?_here] at hS ⊢
    rw [hS]
    exact (itemSet?_here (b.predicted item X f) s).trans (itemSets_predicted item X f hS)
  · have hhistory : (b.predicted item X f).history = b.history := rfl
    exact itemSet?_past hhistory hstep

/-- In the new set only the item waits. -/
theorem waitingItems_predicted_size (b : Building) (item : Item) (X : CatRef) (f : Nat) :
    (b.predicted item X f).waitingItems ⟨b.index, b.step.itemSets.size⟩ = [item] := by
  have hself : (b.predicted item X f).itemSet? ⟨b.index, b.step.itemSets.size⟩ = some _ :=
    (itemSet?_here (b.predicted item X f) b.step.itemSets.size).trans
      (b.itemSets_predicted_size item X f)
  rw [waitingItems_of_itemSet? hself, List.filterMap_cons_some (b.item?_predicted item X f).2,
    List.filterMap_nil]

theorem productions_predicted (Y : CatRef) :
    (b.predicted item X f).productions Y = b.productions Y := by
  have hconcrete : (b.predicted item X f).concrete = b.concrete := rfl
  have hhistory : (b.predicted item X f).history = b.history := rfl
  exact productions_congr hconcrete hhistory rfl Y

/-- All productions of the category start for the new set. -/
theorem starts_predicted : (b.predicted item X f).starts = b.starts +
    Multiset.map (fun q => (⟨⟨b.index, b.step.itemSets.size⟩, q, f, 0, 0, 0⟩ : Item))
      (b.productions X) := by
  have hsize : (b.predicted item X f).step.itemSets.size = b.step.itemSets.size + 1 :=
    Array.size_push ..
  unfold starts
  rw [hsize, Finset.sum_range_succ]
  congr 1
  · refine Finset.sum_congr rfl fun s hs => startsOf_congr rfl ?_ fun set _ =>
      productions_predicted _
    have hget := Array.getElem?_eq_getElem (Finset.mem_range.1 hs)
    rw [itemSets_predicted item X f hget, hget]
  · rw [startsOf, itemSets_predicted_size]
    simp only [productions_predicted]
    rfl

/-- No category completes the new set yet. -/
theorem resumes_predicted (hF : Sound c v ids goal b.facts) :
    (b.predicted item X f).resumes = b.resumes :=
  Finset.sum_congr rfl fun j _ => resumesOf_congr rfl rfl rfl fun cat hj => by
    obtain ⟨set, hset⟩ := exists_itemSet_of_cats hF hj
    exact waitingItems_predicted hF hset

end Predicted

/-- An item that asks for a category that was not predicted before. -/
theorem posts_predict (hF : Sound c v ids goal b.facts) (hc : b.concrete = c) {arg f : Nat}
    {X : CatRef} (hx : c.constituent? item = some (.sub arg f))
    (harg : item.production.args[arg]? = some X) (hfind : b.step.findItemSet? X f = none) :
    Posts c item b (b.awaitCategory item X f) := by
  subst hc
  obtain ⟨hasked, hskips, hawaits⟩ := Concrete.asks_of_sub hx harg
  have hnone : ∀ set ∈ b.step.itemSets, ¬ (set.cat = X ∧ set.field = f) := by
    rintro set hset ⟨rfl, rfl⟩
    have hne := Array.findIdx?_eq_none_iff.1 hfind set hset
    simp at hne
  have hself := b.itemSets_predicted_size item X f
  have hstored : (b.predicted item X f).step.items = b.step.items.push item := rfl
  have hold : (b.predicted item X f).step.awaiting = b.step.awaiting :=
    awaiting_push hF rfl hstored
  rw [awaitCategory_of_none hfind]
  obtain ⟨hsame, hagenda⟩ :=
    (b.predicted item X f).agenda_expand ⟨b.index, b.step.itemSets.size⟩ X f
  obtain ⟨hstarts, hresumes, hawaiting, hwaiting⟩ := hsame.accounts
  refine ⟨hsame.index_eq, ?_, fun s set hs => ⟨set, ?_, rfl, rfl, ?_⟩, fun s set hs => ?_,
    fun Y g hY => ?_, by rw [hawaiting, hold, hawaits]; exact (add_zero _).symm⟩
  · rw [hstarts, starts_predicted, hresumes, resumes_predicted hF, hskips, add_zero, hagenda,
      productions_predicted]
    change _ + (b.agenda : Multiset Item) + _ + _ = _
    ac_rfl
  · rw [hsame.step]
    exact itemSets_predicted item X f hs
  · have hset : b.itemSet? ⟨b.index, s⟩ = some set := by rw [itemSet?_here, hs]
    rw [hwaiting, waitingItems_predicted hF hset, hasked]
    have hne : ¬ some (X, f) = some (set.cat, set.field) := by
      intro heq
      obtain ⟨hcat, hfield⟩ := Prod.mk.inj (Option.some.inj heq)
      exact hnone set (Array.mem_of_getElem? hs) ⟨hcat.symm, hfield.symm⟩
    rw [if_neg hne, List.append_nil]
  · rw [hsame.step] at hs
    rcases Nat.lt_or_ge s b.step.itemSets.size with hlt | hge
    · exact .inl ⟨_, Array.getElem?_eq_getElem hlt⟩
    · have hlt := (Array.getElem?_eq_some_iff.1 hs).1
      obtain rfl : s = b.step.itemSets.size := by
        simp only [predicted, Array.size_push] at hlt
        omega
      cases hself.symm.trans hs
      exact .inr ⟨hasked, (hwaiting _).trans (b.waitingItems_predicted_size item X f), hnone⟩
  · obtain ⟨rfl, rfl⟩ := Prod.mk.inj (Option.some.inj (hasked.symm.trans hY))
    refine ⟨⟨X, f, false, [⟨b.index, b.step.items.size⟩]⟩, ?_, rfl, rfl⟩
    rw [hsame.step]
    exact Array.mem_of_getElem? hself

end Building

end Polyglot
