import Polyglot.Proofs.Chart.Growth
import Polyglot.Proofs.Chart.Posting

/-!
# What building a step counts

The counters go up in many places while a step is built, on ways that part early. What they come to
can be seen in the finished step: an item set was counted when it was predicted, a category when it
was created, and each item that waits in an item set once for the category that completes the set,
whether it began to wait before the category was there or after.

- `waitingIn`, `Building.awaited`: how many items wait in an item set, and for the categories of a
  step.
- `Counters.built`: what a step with so many item sets, categories and items adds to the counters.
- `Building.Quiet`: an operation counts none of that, and has no part in it.
- `Building.Counted`: the counters are what there is in the step; `Building.Counted.process` and
  `Building.Counted.run` keep it.
- `Building.counted_finish`: so they are when the step is finished.
- `Chart.parse_counts`, `Chart.feed_counts`: what the steps of a chart count.
-/

namespace Polyglot

/-! ## Counters and item sets -/

namespace Counters

/-- The counters without those of single items. -/
def tally (c : Counters) : Counters := { c with items := 0, completions := 0 }

/-- The counters after a step with so many item sets, categories, combinations and scanned items has
been built. -/
def built (c : Counters) (itemSets cats combined scanned : Nat) : Counters :=
  { c.tally with
    predictions := c.predictions + itemSets
    syntheticCategories := c.syntheticCategories + cats
    combinations := c.combinations + combined
    scans := c.scans + scanned }

theorem built_add (c : Counters) (itemSets cats combined more scanned : Nat) :
    c.built itemSets cats (combined + more) scanned =
      { c.built itemSets cats combined scanned with
        combinations := (c.built itemSets cats combined scanned).combinations + more } := by
  simp [built, Nat.add_assoc]

end Counters

/-- How many items wait in an item set. -/
def waitingIn (steps : Array Step) (ref : ItemSetRef) : Nat :=
  (((steps[ref.step]?).bind (·.itemSets[ref.idx]?)).map (·.waiting.length)).getD 0

/-- The item sets that the categories of a step complete. -/
def Step.completes (s : Step) : List ItemSetRef := s.cats.toList.map ChartCat.set

/-- How many items wait for the categories of a step, each in the item set that it completes. -/
def Step.awaited (s : Step) (steps : Array Step) : Nat := (s.completes.map (waitingIn steps)).sum

/-- A change that does not show does not show in a list. -/
theorem map_modify_of_eq {α β : Type} {f : α → α} {g : α → β} (hf : ∀ a, g (f a) = g a)
    (as : List α) (i : Nat) : (as.modify i f).map g = as.map g := by
  refine List.ext_getElem? fun j => ?_
  rw [List.getElem?_map, List.getElem?_map, List.getElem?_modify]
  cases as[j]? with
  | none => rfl
  | some a =>
    by_cases hij : i = j
    · simp [hij, hf]
    · simp [hij]

/-- The items that wait for tokens are stored. -/
def Step.Stored (s : Step) : Prop := ∀ e ∈ s.transitions, e.2 < s.items.size

/-- To add one at one of different places adds one to the sum. -/
theorem sum_map_update {α : Type} [DecidableEq α] {f f' : α → Nat} {a : α} {as : List α}
    (hself : f' a = f a + 1) (hother : ∀ b ∈ as, b ≠ a → f' b = f b) (hnodup : as.Nodup) :
    (as.map f').sum = (as.map f).sum + if a ∈ as then 1 else 0 := by
  induction as with
  | nil => rfl
  | cons b as ih =>
    rw [List.nodup_cons] at hnodup
    have hrest := ih (fun x hx => hother x (List.mem_cons_of_mem _ hx)) hnodup.2
    rw [List.map_cons, List.map_cons, List.sum_cons, List.sum_cons, hrest]
    by_cases heq : b = a
    · subst heq
      rw [hself, if_neg hnodup.1, if_pos List.mem_cons_self]
      omega
    · rw [hother b List.mem_cons_self heq]
      have hmem : a ∈ b :: as ↔ a ∈ as := by
        rw [List.mem_cons]
        exact or_iff_right fun h => heq h.symm
      by_cases ha : a ∈ as
      · rw [if_pos ha, if_pos (hmem.2 ha)]
        omega
      · rw [if_neg ha, if_neg fun h => ha (hmem.1 h)]
        omega

namespace Building

variable {b b' b'' : Building} {c₀ : Counters} {scanned owed : Nat}

/-- The steps up to the one that is being built. -/
def steps (b : Building) : Array Step := b.history.push b.step

/-- How many items wait for the categories of the step so far. -/
def awaited (b : Building) : Nat := b.step.awaited b.steps

theorem waitingIn_steps (b : Building) (ref : ItemSetRef) :
    waitingIn b.steps ref = ((b.itemSet? ref).map (·.waiting.length)).getD 0 := by
  rw [waitingIn, steps, itemSet?, step?, index, Array.getElem?_push]

/-! ## Operations that count nothing -/

/-- An operation leaves the item sets, the number of categories and what is counted alone. -/
structure Quiet (b b' : Building) : Prop where
  history : b'.history = b.history
  itemSets : b'.step.itemSets = b.step.itemSets
  completes : b'.step.completes = b.step.completes
  counters : b'.counters.tally = b.counters.tally
  fault : b'.fault = none → b.fault = none
  stored : b.step.Stored → b'.step.Stored

theorem Quiet.refl (b : Building) : Quiet b b := ⟨rfl, rfl, rfl, rfl, id, id⟩

theorem Quiet.trans (h : Quiet b b') (h' : Quiet b' b'') : Quiet b b'' :=
  ⟨h'.history.trans h.history, h'.itemSets.trans h.itemSets, h'.completes.trans h.completes,
    h'.counters.trans h.counters, fun hnone => h.fault (h'.fault hnone),
    fun hstored => h'.stored (h.stored hstored)⟩

theorem quiet_foldl {α : Type} {f : Building → α → Building} (hf : ∀ b a, Quiet b (f b a))
    (as : List α) (b : Building) : Quiet b (as.foldl f b) := by
  induction as generalizing b with
  | nil => exact .refl b
  | cons a as ih => exact (hf b a).trans (ih (f b a))

theorem quiet_push (b : Building) (item : Item) : Quiet b (b.push item) :=
  ⟨rfl, rfl, rfl, rfl, id, id⟩

theorem quiet_fail (b : Building) (f : Chart.Fault) : Quiet b (b.fail f) := by
  refine ⟨rfl, rfl, rfl, rfl, fun hnone => ?_, id⟩
  exact (Option.or_eq_none_iff.1 hnone).1

theorem fail_ne_none (b : Building) (f : Chart.Fault) : (b.fail f).fault ≠ none := by
  intro hnone
  cases (Option.or_eq_none_iff.1 hnone).2

theorem quiet_store (b : Building) (item : Item) : Quiet b (b.store item).2 := by
  refine ⟨rfl, rfl, rfl, rfl, id, fun hstored e he => ?_⟩
  have := hstored e he
  show e.2 < (b.step.items.push item).size
  rw [Array.size_push]
  omega

theorem quiet_waitFor (b : Building) (token : Sym) (item : Item) :
    Quiet b (b.waitFor token item) := by
  refine ⟨rfl, rfl, rfl, rfl, id, fun hstored e he => ?_⟩
  show e.2 < (b.step.items.push item).size
  rw [Array.size_push]
  rcases List.mem_append.1 he with he | he
  · have := hstored e he
    omega
  · rw [List.mem_singleton.1 he]
    exact Nat.lt_succ_self _

theorem quiet_awaitVariants (b : Building) (v : Variants) (item : Item) :
    Quiet b (b.awaitVariants v item) := by
  unfold awaitVariants
  split
  · split
    · exact b.quiet_waitFor _ _
    · exact .refl b
  · refine quiet_foldl (fun b entry => ?_) _ b
    obtain ⟨tokens, form⟩ := entry
    cases tokens with
    | nil => exact b.quiet_push _
    | cons token rest => exact b.quiet_waitFor _ _

/-- A production more makes no category. -/
theorem quiet_pack (b : Building) (idx : Nat) (cat : ChartCat) (q : ChartProduction) :
    Quiet b (b.pack idx cat q) := by
  let add (cat : ChartCat) : ChartCat := { cat with productions := cat.productions ++ [q] }
  let packed : Building := { b with step.cats := b.step.cats.modify idx add }
  have hpacked : Quiet b packed := by
    refine ⟨rfl, rfl, ?_, rfl, id, id⟩
    show (b.step.cats.modify idx add).toList.map ChartCat.set = b.step.cats.toList.map ChartCat.set
    rw [Array.toList_modify]
    exact map_modify_of_eq (f := add) (fun _ => rfl) _ idx
  unfold pack
  by_cases hold : q ∈ cat.productions
  · rw [if_pos hold]
    exact .refl b
  · rw [if_neg hold]
    refine hpacked.trans (quiet_foldl (fun b field => ?_) _ packed)
    split
    · exact b.quiet_push _
    · exact .refl b

/-! ## The invariant -/

/-- The counters are what there is in the step, but for `owed` items that are still to be combined:
those at the beginning were `c₀`, and `scanned` items were moved over the token. Once something goes
wrong they do not matter any more. -/
structure Counted (c₀ : Counters) (scanned owed : Nat) (b : Building) : Prop where
  counters : b.fault = none →
    { b.counters.tally with combinations := b.counters.combinations + owed } =
      c₀.built b.step.itemSets.size b.step.completes.length b.awaited scanned
  /-- No two categories complete the same item set. -/
  distinct : b.step.completes.Nodup
  /-- Categories complete item sets that are there. -/
  present : ∀ ref ∈ b.step.completes, ∃ set, b.itemSet? ref = some set
  stored : b.step.Stored

theorem counted_start (concrete : Concrete) (history : Array Step) (token : Option Sym)
    (c₀ : Counters) : Counted c₀ 0 0 (start concrete history token c₀) where
  counters := fun _ => rfl
  distinct := .nil
  present := nofun
  stored := nofun

theorem awaited_congr (hcompletes : b'.step.completes = b.step.completes)
    (hitemSet? : ∀ ref ∈ b.step.completes, b'.itemSet? ref = b.itemSet? ref) :
    b'.awaited = b.awaited := by
  show (b'.step.completes.map _).sum = (b.step.completes.map _).sum
  rw [hcompletes]
  refine congrArg List.sum (List.map_congr_left fun ref href => ?_)
  rw [waitingIn_steps, waitingIn_steps, hitemSet? ref href]

theorem Counted.quiet (h : Counted c₀ scanned owed b) (hquiet : Quiet b b') :
    Counted c₀ scanned owed b' := by
  have hitemSet? := itemSet?_congr hquiet.history hquiet.itemSets
  refine ⟨fun hnone => ?_, ?_, fun ref href => ?_, hquiet.stored h.stored⟩
  · have htally := congrArg Counters.combinations hquiet.counters
    have hcombinations : b'.counters.combinations = b.counters.combinations := htally
    rw [hquiet.counters, hcombinations, h.counters (hquiet.fault hnone), hquiet.itemSets,
      hquiet.completes, awaited_congr hquiet.completes fun ref _ => hitemSet? ref]
  · rw [hquiet.completes]
    exact h.distinct
  · rw [hitemSet?]
    exact h.present ref (hquiet.completes ▸ href)

/-! ## Combinations -/

/-- So many items are combined with a category, and nothing else is done that counts. -/
structure Combines (n : Nat) (b b' : Building) : Prop where
  history : b'.history = b.history
  step : b'.step = b.step
  counters : b'.fault = none → b.fault = none ∧
    b'.counters = { b.counters with combinations := b.counters.combinations + n }

theorem combines_combine (b : Building) (waiting : ItemRef) (done : ChartCatId) :
    Combines 1 b (b.combine waiting done) := by
  have hfail : ∀ f, Combines 1 b (b.fail f) := fun f =>
    ⟨rfl, rfl, fun hnone => absurd hnone (b.fail_ne_none f)⟩
  unfold combine
  split
  · exact hfail _
  · split
    · exact hfail _
    · exact ⟨rfl, rfl, fun hnone => ⟨hnone, rfl⟩⟩
    · exact hfail _

theorem combines_foldl (waiting : List ItemRef) (done : ChartCatId) (b : Building) :
    Combines waiting.length b (waiting.foldl (fun b waiting => b.combine waiting done) b) := by
  induction waiting generalizing b with
  | nil => exact ⟨rfl, rfl, fun hnone => ⟨hnone, rfl⟩⟩
  | cons first rest ih =>
    have hfirst := b.combines_combine first done
    have hrest := ih (b.combine first done)
    refine ⟨hrest.history.trans hfirst.history, hrest.step.trans hfirst.step, fun hnone => ?_⟩
    obtain ⟨hnone', hcounters'⟩ := hrest.counters hnone
    obtain ⟨hnone'', hcounters⟩ := hfirst.counters hnone'
    refine ⟨hnone'', ?_⟩
    rw [List.foldl_cons, hcounters', hcounters, List.length_cons, Nat.add_assoc, Nat.add_comm 1]

/-- What was owed is paid when the items are combined. -/
theorem Counted.combines (h : Counted c₀ scanned owed b) (hcombines : Combines owed b b') :
    Counted c₀ scanned 0 b' := by
  obtain ⟨hhistory, hstep, hcounters⟩ := hcombines
  have hitemSet? := itemSet?_congr hhistory (congrArg Step.itemSets hstep)
  refine ⟨fun hnone => ?_, ?_, fun ref href => ?_, hstep ▸ h.stored⟩
  · obtain ⟨hnone', heq⟩ := hcounters hnone
    rw [awaited_congr (congrArg Step.completes hstep) fun ref _ => hitemSet? ref, hstep, heq]
    exact h.counters hnone'
  · exact hstep ▸ h.distinct
  · rw [hitemSet?]
    exact h.present ref (hstep ▸ href)

/-! ## Operations that count -/

/-- A new item set is counted as a prediction. -/
theorem Counted.addItemSet (h : Counted c₀ scanned owed b) (set : ItemSet) (ref : ItemSetRef)
    (cat : CatRef) (field : Nat) :
    Counted c₀ scanned owed ((b.addItemSet set).2.expand ref cat field) := by
  let predicted : Building := { (b.addItemSet set).2 with
    counters.predictions := b.counters.predictions + 1 }
  have hitemSet? : ∀ ref ∈ b.step.completes, predicted.itemSet? ref = b.itemSet? ref := by
    intro ref href
    by_cases hhere : ref.step = b.index
    · obtain ⟨k, s⟩ := ref
      obtain rfl : k = b.index := hhere
      obtain ⟨old, hold⟩ := h.present _ href
      rw [itemSet?_here] at hold
      have hlt := (Array.getElem?_eq_some_iff.1 hold).1
      rw [itemSet?_here, hold]
      exact (itemSet?_here predicted s).trans ((Array.getElem?_push_lt hlt).trans
        ((Array.getElem?_eq_getElem hlt).symm.trans hold))
    · have hpast : predicted.history = b.history := rfl
      exact itemSet?_past hpast hhere
  have hpredicted : Counted c₀ scanned owed predicted := by
    refine ⟨fun hnone => ?_, h.distinct, fun ref href => ?_, h.stored⟩
    · have hcounters := congrArg (fun c : Counters =>
        { c with predictions := c.predictions + 1 }) (h.counters hnone)
      have hsize : predicted.step.itemSets.size = b.step.itemSets.size + 1 := Array.size_push _
      have hawaited : predicted.awaited = b.awaited := awaited_congr rfl hitemSet?
      rw [hawaited, hsize]
      exact hcounters
    · rw [hitemSet? ref href]
      exact h.present ref href
  exact hpredicted.quiet (quiet_foldl (fun b q => b.quiet_push _) _ predicted)

theorem mem_completes_iff {ref : ItemSetRef} :
    ref ∈ b.step.completes ↔ b.step.findCategory? ref ≠ none := by
  rw [Step.findCategory?, ne_eq, Array.findIdx?_eq_none_iff, Step.completes, List.mem_map]
  constructor
  · rintro ⟨cat, hcat, rfl⟩ hnone
    simpa using hnone cat (Array.mem_toList_iff.1 hcat)
  · intro hsome
    by_contra hnot
    refine hsome fun cat hcat => ?_
    have hne : cat.set ≠ ref := fun heq => hnot ⟨cat, Array.mem_toList_iff.2 hcat, heq⟩
    simpa using hne

theorem itemSet?_modify (b : Building) (i : Nat) (f : ItemSet → ItemSet) (ref : ItemSetRef) :
    Building.itemSet? { b with step.itemSets := b.step.itemSets.modify i f } ref =
      if ref = ⟨b.index, i⟩ then (b.itemSet? ref).map f else b.itemSet? ref := by
  let modified : Building := { b with step.itemSets := b.step.itemSets.modify i f }
  by_cases hstep : ref.step = b.index
  · obtain ⟨k, j⟩ := ref
    obtain rfl : k = b.index := hstep
    rw [itemSet?_here]
    refine ((itemSet?_here modified j).trans Array.getElem?_modify).trans ?_
    by_cases hij : i = j
    · simp [hij]
    · simp [hij, Ne.symm hij]
  · have hne : ref ≠ ⟨b.index, i⟩ := fun heq => hstep (congrArg ItemSetRef.step heq)
    have hpast : modified.history = b.history := rfl
    rw [if_neg hne]
    exact itemSet?_past hpast hstep

/-- An item that joins an item set has to be combined with the category that completes the set, if
there is one. Otherwise it waits until there is. -/
theorem Counted.join (h : Counted c₀ scanned 0 b) {i : Nat} (hi : i < b.step.itemSets.size)
    (waiting : ItemRef) :
    Counted c₀ scanned (if b.step.findCategory? ⟨b.index, i⟩ = none then 0 else 1)
      { b with step.itemSets := b.step.itemSets.modify i fun set =>
          { set with waiting := set.waiting ++ [waiting] } } := by
  let join (set : ItemSet) : ItemSet := { set with waiting := set.waiting ++ [waiting] }
  let joined : Building := { b with step.itemSets := b.step.itemSets.modify i join }
  have hjoined : ∀ ref, joined.itemSet? ref =
      if ref = ⟨b.index, i⟩ then (b.itemSet? ref).map join else b.itemSet? ref :=
    b.itemSet?_modify i join
  have hawaited : joined.awaited =
      b.awaited + if ⟨b.index, i⟩ ∈ b.step.completes then 1 else 0 := by
    refine sum_map_update ?_ (fun ref _ hne => ?_) h.distinct
    · rw [waitingIn_steps, waitingIn_steps, hjoined, if_pos rfl, itemSet?_here,
        Array.getElem?_eq_getElem hi]
      simp [join]
    · rw [waitingIn_steps, waitingIn_steps, hjoined, if_neg hne]
  refine ⟨fun hnone => ?_, h.distinct, fun ref href => ?_, h.stored⟩
  · have hsize : joined.step.itemSets.size = b.step.itemSets.size := Array.size_modify
    have howed : (if b.step.findCategory? ⟨b.index, i⟩ = none then 0 else 1) =
        if ⟨b.index, i⟩ ∈ b.step.completes then 1 else 0 := by
      by_cases hfind : b.step.findCategory? ⟨b.index, i⟩ = none
      · rw [if_pos hfind, if_neg fun hmem => mem_completes_iff.1 hmem hfind]
      · rw [if_neg hfind, if_pos (mem_completes_iff.2 hfind)]
    show _ = c₀.built joined.step.itemSets.size _ joined.awaited _
    rw [hsize, hawaited, howed, Counters.built_add]
    exact congrArg (fun c : Counters => { c with
      combinations :=
        c.combinations + if (⟨b.index, i⟩ : ItemSetRef) ∈ b.step.completes then 1 else 0 })
      (h.counters hnone)
  · obtain ⟨set, hset⟩ := h.present ref href
    by_cases hself : ref = ⟨b.index, i⟩
    · exact ⟨join set, (hjoined ref).trans (by rw [if_pos hself, hset, Option.map_some])⟩
    · exact ⟨set, (hjoined ref).trans (by rw [if_neg hself, hset])⟩

/-- A new category is to be combined with all that waits in the item set that it completes. -/
theorem Counted.addCategory (h : Counted c₀ scanned 0 b) {ref : ItemSetRef} {set : ItemSet}
    (hnew : b.step.findCategory? ref = none) (hset : b.itemSet? ref = some set)
    (q : ChartProduction) : Counted c₀ scanned 0 (b.addCategory ref set q) := by
  let cat : ChartCat :=
    { id := ⟨b.step.nextId⟩
      set := ref
      cat := set.cat
      field := set.field
      fieldCount := b.fieldCount set.cat
      productions := [q] }
  let added : Building := { b with
    step.cats := b.step.cats.push cat
    step.completed := if set.top then b.step.completed ++ [⟨b.index, b.step.cats.size⟩]
      else b.step.completed
    counters.syntheticCategories := b.counters.syntheticCategories + 1 }
  have hcompletes : added.step.completes = b.step.completes ++ [ref] := by
    show (b.step.cats.push cat).toList.map ChartCat.set = _
    rw [Array.toList_push, List.map_append]
    rfl
  have hitemSet? : ∀ ref, added.itemSet? ref = b.itemSet? ref := by
    have hhistory : added.history = b.history := rfl
    exact itemSet?_congr hhistory rfl
  have hwaiting : waitingIn added.steps = waitingIn b.steps := by
    funext ref
    rw [waitingIn_steps, waitingIn_steps, hitemSet?]
  have hawaited : added.awaited = b.awaited + set.waiting.length := by
    rw [awaited, Step.awaited, hcompletes, hwaiting, List.map_append, List.sum_append,
      List.map_singleton, List.sum_singleton, waitingIn_steps, hset]
    rfl
  have hadded : Counted c₀ scanned set.waiting.length added := by
    refine ⟨fun hnone => ?_, ?_, fun ref' href' => ?_, h.stored⟩
    · rw [hawaited, hcompletes, List.length_append, Counters.built_add]
      exact congrArg (fun c : Counters => { c with
        syntheticCategories := c.syntheticCategories + 1
        combinations := c.combinations + set.waiting.length }) (h.counters hnone)
    · rw [hcompletes, List.nodup_append]
      refine ⟨h.distinct, List.nodup_singleton _, fun a ha a' ha' heq => ?_⟩
      rw [heq, List.mem_singleton.1 ha'] at ha
      exact mem_completes_iff.1 ha hnew
    · rw [hitemSet?]
      rw [hcompletes] at href'
      rcases List.mem_append.1 href' with href' | href'
      · exact h.present ref' href'
      · exact ⟨set, List.mem_singleton.1 href' ▸ hset⟩
  exact hadded.combines (combines_foldl set.waiting _ added)

/-- An item that asks for a category predicts it, or joins those that wait for it already. -/
theorem Counted.awaitCategory (h : Counted c₀ scanned 0 b) (item : Item) (cat : CatRef)
    (field : Nat) : Counted c₀ scanned 0 (b.awaitCategory item cat field) := by
  have hstored : Counted c₀ scanned 0 (b.store item).2 := h.quiet (b.quiet_store item)
  unfold Building.awaitCategory
  dsimp only
  generalize (b.store item).2 = stored, (b.store item).1 = waiting at hstored
  cases hfind : stored.step.findItemSet? cat field with
  | none => exact hstored.addItemSet ..
  | some i =>
    have hi : i < stored.step.itemSets.size := (Array.findIdx?_eq_some_iff_getElem.1 hfind).1
    have hjoined := hstored.join hi waiting
    let join (set : ItemSet) : ItemSet := { set with waiting := set.waiting ++ [waiting] }
    let joined : Building :=
      { stored with step.itemSets := stored.step.itemSets.modify i join }
    -- Joining leaves the categories alone, so they can be looked for before or after.
    have hsame : joined.step.findCategory? ⟨joined.index, i⟩ =
        stored.step.findCategory? ⟨stored.index, i⟩ := rfl
    rw [← hsame] at hjoined
    dsimp only
    split
    · rename_i done hdone
      have hdone : joined.step.findCategory? ⟨joined.index, i⟩ = some done := hdone
      rw [if_neg (by rw [hdone]; exact Option.some_ne_none done)] at hjoined
      exact hjoined.combines (joined.combines_combine waiting _)
    · rename_i hdone
      have hdone : joined.step.findCategory? ⟨joined.index, i⟩ = none := hdone
      rw [if_pos hdone] at hjoined
      exact hjoined

/-- A complete item makes a category, or adds its production to the one that there is. -/
theorem Counted.complete (h : Counted c₀ scanned 0 b) (item : Item) :
    Counted c₀ scanned 0 (b.complete item) := by
  have hb : Counted c₀ scanned 0
      { b with counters.completions := b.counters.completions + 1 } :=
    h.quiet ⟨rfl, rfl, rfl, rfl, id, id⟩
  unfold Building.complete
  generalize ({ b with counters.completions := b.counters.completions + 1 } : Building) = b at hb
  dsimp only
  split
  · split
    · exact hb.quiet (b.quiet_pack _ _ _)
    · exact hb.quiet (b.quiet_fail _)
  · rename_i hnew
    split
    · rename_i set hset
      exact hb.addCategory hnew hset _
    · exact hb.quiet (b.quiet_fail _)

/-- Whatever is done with an item, the counters go on to be what there is in the step. -/
theorem Counted.process (h : Counted c₀ scanned 0 b) (item : Item) :
    Counted c₀ scanned 0 (b.process item) := by
  have hb : Counted c₀ scanned 0 { b with counters.items := b.counters.items + 1 } :=
    h.quiet ⟨rfl, rfl, rfl, rfl, id, id⟩
  unfold Building.process
  generalize ({ b with counters.items := b.counters.items + 1 } : Building) = b at hb
  dsimp only
  split
  · exact hb.quiet (b.quiet_fail _)
  · exact hb.complete item
  · unfold predict
    split
    · exact hb.quiet (b.quiet_fail _)
    · exact hb.awaitCategory item _ _
  · exact hb
  · split
    · exact hb.quiet (b.quiet_waitFor _ _)
    · exact hb.quiet (b.quiet_push _)
  · exact hb.quiet (b.quiet_awaitVariants _ _)

/-! ## From the beginning to the end -/

/-- The goal of the whole input is predicted like anything else. -/
theorem Counted.predictTop (h : Counted c₀ scanned 0 b) (ids : List InstanceId) (field : Nat) :
    Counted c₀ scanned 0 (b.predictTop ids field) := by
  unfold Building.predictTop
  induction ids generalizing b with
  | nil => exact h
  | cons id ids ih =>
    rw [List.foldl_cons]
    refine ih ?_
    cases b.step.findItemSet? (.grammar id) field with
    | none => exact h.addItemSet ..
    | some i => exact h

/-- Every item that is moved over the token is counted. -/
theorem Counted.scan (h : Counted c₀ scanned 0 b) (item : Item) :
    Counted c₀ (scanned + 1) 0 (b.scan item) := by
  have hfail : ∀ f, Counted c₀ (scanned + 1) 0 (b.fail f) := by
    intro f
    have hfailed := h.quiet (b.quiet_fail f)
    exact ⟨fun hnone => absurd hnone (b.fail_ne_none f), hfailed.distinct, hfailed.present,
      hfailed.stored⟩
  have hmove : ∀ next : Item, Counted c₀ (scanned + 1) 0
      ({ b with counters := { b.counters with scans := b.counters.scans + 1 } }.push next) := by
    intro next
    refine ⟨fun hnone => ?_, h.distinct, h.present, h.stored⟩
    exact congrArg (fun c : Counters => { c with scans := c.scans + 1 }) (h.counters hnone)
  unfold Building.scan
  dsimp only
  split
  · exact hfail _
  · exact hmove _
  · exact hmove _
  · exact hfail _

theorem Counted.scanAll (h : Counted c₀ scanned 0 b) (items : List Item) :
    Counted c₀ (scanned + items.length) 0 (items.foldl Building.scan b) := by
  induction items generalizing b scanned with
  | nil => exact h
  | cons item items ih =>
    have hrest := ih (h.scan item)
    rwa [Nat.add_assoc, Nat.add_comm 1] at hrest

/-- **When a step is finished**, the counters are what there is in the step. -/
theorem counted_finish (h : Counted c₀ scanned 0 b) {limit : Nat} {last : Step}
    {counters : Counters} (hfinish : b.finish limit = (.ok last, counters)) :
    counters.tally = c₀.built last.itemSets.size last.cats.size
        (last.awaited (b.history.push last)) scanned ∧ last.Stored := by
  unfold finish at hfinish
  split at hfinish
  · cases hfinish
  · rename_i b' hrun
    have hcounted : Counted c₀ scanned 0 b' := by
      refine run_invariant (Counted c₀ scanned 0) (fun b₁ b₂ hb₁ hnext => ?_) h hrun
      obtain ⟨item, agenda, -, -, rfl⟩ := next?_eq_some hnext
      have hb₁' : Counted c₀ scanned 0 { b₁ with agenda } :=
        hb₁.quiet ⟨rfl, rfl, rfl, rfl, id, id⟩
      exact hb₁'.process item
    have hhistory : b'.history = b.history := (grows_run hrun).history
    split at hfinish
    · cases hfinish
    · rename_i hnone
      cases hfinish
      have hcounters := hcounted.counters hnone
      rw [awaited, steps, hhistory, Step.completes, List.length_map, Array.length_toList]
        at hcounters
      exact ⟨hcounters, hcounted.stored⟩

end Building

/-! ## Charts -/

namespace Chart

variable {limit : Nat} {symbols : SymbolStore} {chart chart' : Chart}
  {counters counters' : Counters}

/-- What the first step of a chart counts. -/
theorem parse_counts {c : Concrete} {cat : String} {field : Nat}
    (h : parse limit symbols c cat field counters = (.ok chart, counters')) :
    counters'.tally = counters.built chart.last.itemSets.size chart.last.cats.size
      (chart.last.awaited chart.steps) 0 ∧ chart.last.Stored := by
  unfold parse at h
  split at h
  · cases h
  · rename_i category _
    have hstart := (Building.counted_start c #[] none counters).predictTop category.instances field
    dsimp only at h
    split at h
    · rename_i last counters₁ hfinish
      cases h
      have hcounted := Building.counted_finish hstart hfinish
      rwa [(Building.grows_predictTop _ _ _).history] at hcounted
    · cases h

/-- A category or field that is not there is refused before anything is counted. -/
theorem parse_refuses {c : Concrete} {cat : String} {field : Nat} {e : ParseError}
    (h : parse limit symbols c cat field counters = (.error (.error e), counters')) :
    counters' = counters := by
  unfold parse at h
  split at h
  · cases h
    rfl
  · dsimp only at h
    split at h
    · cases h
    · cases h

/-- The items that wait for a token are all there. -/
theorem length_filterMap_items {sym : Sym} {items : List Nat} {token : String}
    (hstored : chart.last.Stored) (h : chart.waitingItems? symbols token = some (sym, items)) :
    (items.filterMap (chart.last.items[·]?)).length = items.length := by
  have hitems : items = chart.last.waitingFor sym := by
    obtain ⟨sym', -, hmatch⟩ := Option.bind_eq_some_iff.1 h
    split at hmatch
    · cases hmatch
    · cases hmatch
      rfl
  have hall : ∀ i ∈ items, (chart.last.items[i]?).isSome := by
    intro i hi
    rw [hitems] at hi
    obtain ⟨e, he, rfl⟩ := List.mem_map.1 hi
    have hlt := hstored e (List.mem_filter.1 he).1
    rw [Array.getElem?_eq_getElem hlt]
    rfl
  rw [List.length_filterMap_eq_countP]
  exact List.countP_eq_length.2 hall

/-- What one more step of a chart counts: every item that waited for the token is scanned. -/
theorem feed_counts {token : String} (hstored : chart.last.Stored)
    (h : chart.feed limit symbols token counters = (.ok (some chart'), counters')) :
    counters'.tally = counters.built chart'.last.itemSets.size chart'.last.cats.size
      (chart'.last.awaited chart'.steps) (chart.waiting symbols token) ∧ chart'.last.Stored := by
  unfold feed at h
  cases hwaiting : chart.waitingItems? symbols token with
  | none =>
    rw [hwaiting] at h
    cases h
  | some entry =>
    obtain ⟨sym, items⟩ := entry
    rw [hwaiting] at h
    dsimp only at h
    split at h
    · rename_i last counters₁ hfinish
      cases h
      have hscanned := (Building.counted_start chart.concrete chart.steps (some sym)
        counters).scanAll (items.filterMap (chart.last.items[·]?))
      have hcounted := Building.counted_finish hscanned hfinish
      have hhistory := (Building.grows_foldl (fun b item => b.grows_scan item)
        (items.filterMap (chart.last.items[·]?))
        (Building.start chart.concrete chart.steps (some sym) counters)).history
      have hlength : chart.waiting symbols token = items.length := by
        rw [waiting, hwaiting]
        rfl
      rw [hhistory, Nat.zero_add, length_filterMap_items hstored hwaiting, ← hlength] at hcounted
      exact hcounted
    · cases h

/-- A token that no item waits for is counted as rejected, and nothing else is. -/
theorem feed_rejects {token : String}
    (h : chart.feed limit symbols token counters = (.ok none, counters')) :
    counters' = { counters with rejectedTokens := counters.rejectedTokens + 1 } := by
  unfold feed at h
  split at h
  · cases h
    rfl
  · dsimp only at h
    split at h
    · cases h
    · cases h

end Chart

end Polyglot
