import Polyglot.Proofs.Chart.Closing

/-!
# A journal of the agenda

Items are put on the agenda in several places while a step is built, and once they are there nothing
tells why. Here the step is built with a journal beside it, where every item is noted with its cause
when it is put on the agenda. The journal has no part in the work, and it misses nothing.

- `Cause`: why an item is put on the agenda.
- `Journaled`: a step in the making with its journal; `Journaled.run` works off the agenda.
- `Journaled.building_run`: without the journal this is how a step is built.
- `Journaled.Balanced`: all that was on the agenda was there at the beginning or is in the journal.
-/

namespace Polyglot

/-- Why an item is put on the agenda. -/
inductive Cause where
  /-- An item that waits goes on with a category that is complete. -/
  | combined (waiting : ItemRef) (done : ChartCatId)
  /-- A production of a category of the chart is started for a prediction of the category. -/
  | started (set : ItemSetRef) (production : ChartProduction)
  /-- A production of an instance of the grammar is started for a prediction of the instance. -/
  | offered (set : ItemSetRef)
  /-- An item comes past a constituent that needs no words. -/
  | passed (item : Item)
  deriving DecidableEq, Repr

namespace Cause

/-- Whether a category of the chart is what gives rise to it. -/
def inChart : Cause → Bool
  | .combined .. | .started .. => true
  | .offered _ | .passed _ => false

/-- Why a production of a category is started. -/
def ofStart (set : ItemSetRef) : CatRef → ChartProduction → Cause
  | .grammar _, _ => .offered set
  | .chart _, production => .started set production

end Cause

/-- A step in the making, and what is noted of it. -/
structure Journaled where
  building : Building
  /-- What was put on the agenda, and why. -/
  posts : List (Cause × Item) := []
  /-- What was taken from the agenda, the last item first. -/
  worked : List Item := []

namespace Journaled

/-- What was put on the agenda for a cause. -/
def posted (j : Journaled) (cause : Cause) : List Item :=
  (j.posts.filter (·.1 = cause)).map Prod.snd

/-! ## Building with a journal -/

/-- Does something that puts nothing on the agenda. -/
def change (j : Journaled) (f : Building → Building) : Journaled :=
  { j with building := f j.building }

/-- Does something, and notes what it puts on the agenda. -/
def note (j : Journaled) (cause : Cause) (f : Building → Building) : Journaled :=
  let b := f j.building
  let new := b.agenda.take (b.agenda.length - j.building.agenda.length)
  { j with building := b, posts := j.posts ++ new.map (cause, ·) }

/-- `Building.combine` with a journal. -/
def combine (j : Journaled) (waiting : ItemRef) (done : ChartCatId) : Journaled :=
  j.note (.combined waiting done) (·.combine waiting done)

/-- `Building.expand` with a journal. -/
def expand (j : Journaled) (set : ItemSetRef) (cat : CatRef) (field : Nat) : Journaled :=
  (j.building.productions cat).foldl
    (fun j production =>
      j.note (.ofStart set cat production) (·.push { set, production, field }))
    (j.change fun b => { b with counters.predictions := b.counters.predictions + 1 })

/-- `Building.awaitCategory` with a journal. -/
def awaitCategory (j : Journaled) (item : Item) (cat : CatRef) (field : Nat) : Journaled :=
  let b := j.building
  match b.step.findItemSet? cat field with
  | some s =>
    let j := j.change (·.joined item s)
    match b.step.findCategory? ⟨b.index, s⟩ with
    | some done => j.combine ⟨b.index, b.step.items.size⟩ ⟨b.index, done⟩
    | none => j
  | none =>
    (j.change (·.predicted item cat field)).expand ⟨b.index, b.step.itemSets.size⟩ cat field

/-- `Building.predict` with a journal. -/
def predict (j : Journaled) (item : Item) (arg field : Nat) : Journaled :=
  match item.production.args[arg]? with
  | none => j.change (·.fail (.missingArgument arg))
  | some cat => j.awaitCategory item cat field

/-- `Building.pack` with a journal. -/
def pack (j : Journaled) (idx : Nat) (cat : ChartCat) (production : ChartProduction) : Journaled :=
  if production ∈ cat.productions then j
  else
    (List.range cat.fieldCount).foldl
      (fun j field =>
        match j.building.step.findItemSet? (.chart ⟨j.building.index, idx⟩) field with
        | some s =>
          let set : ItemSetRef := ⟨j.building.index, s⟩
          j.note (.started set production) (·.push { set, production, field })
        | none => j)
      (j.change (·.packed idx production))

/-- `Building.addCategory` with a journal. -/
def addCategory (j : Journaled) (ref : ItemSetRef) (set : ItemSet) (production : ChartProduction) :
    Journaled :=
  let done : ChartCatId := ⟨j.building.index, j.building.step.cats.size⟩
  set.waiting.foldl (fun j waiting => j.combine waiting done)
    (j.change (·.closed ref set production))

/-- `Building.complete` with a journal. -/
def complete (j : Journaled) (item : Item) : Journaled :=
  let j := j.change fun b => { b with counters.completions := b.counters.completions + 1 }
  match j.building.step.findCategory? item.set with
  | some idx =>
    match j.building.step.cats[idx]? with
    | some cat => j.pack idx cat item.production
    | none => j.change (·.fail .danglingReference)
  | none =>
    match j.building.itemSet? item.set with
    | some set => j.addCategory item.set set item.production
    | none => j.change (·.fail .danglingReference)

/-- `Building.process` with a journal. An item that needs neither a category nor to be completed can
only come past what it is at. -/
def process (j : Journaled) (item : Item) : Journaled :=
  let count (b : Building) : Building := { b with counters.items := b.counters.items + 1 }
  match j.building.concrete.need item with
  | .ok .complete => (j.change count).complete item
  | .ok (.category arg field) => (j.change count).predict item arg field
  | _ => j.note (.passed item) (·.process item)

/-- `Building.next?` with a journal. -/
def next? (j : Journaled) : Option Journaled :=
  match j.building.fault, j.building.agenda with
  | none, item :: agenda =>
    let j : Journaled :=
      { j with building := { j.building with agenda }, worked := item :: j.worked }
    some (j.process item)
  | _, _ => none

/-- `Building.run` with a journal. -/
def run : Nat → Journaled → Option Journaled
  | 0, j => if j.next?.isNone then some j else none
  | limit + 1, j =>
    match j.next? with
    | none => some j
    | some j => run limit j

/-! ## The journal has no part in it -/

variable {j j' j'' : Journaled} {item : Item}

@[simp] theorem building_change (j : Journaled) (f : Building → Building) :
    (j.change f).building = f j.building := rfl

@[simp] theorem building_note (j : Journaled) (cause : Cause) (f : Building → Building) :
    (j.note cause f).building = f j.building := rfl

theorem building_foldl {α : Type} {f : Journaled → α → Journaled}
    {g : Building → α → Building} (h : ∀ j a, (f j a).building = g j.building a) (as : List α)
    (j : Journaled) : (as.foldl f j).building = as.foldl g j.building := by
  induction as generalizing j with
  | nil => rfl
  | cons a as ih => rw [List.foldl_cons, List.foldl_cons, ih, h]

theorem building_expand (j : Journaled) (set : ItemSetRef) (cat : CatRef) (field : Nat) :
    (j.expand set cat field).building = j.building.expand set cat field :=
  building_foldl (fun _ _ => rfl) ..

theorem building_awaitCategory (j : Journaled) (item : Item) (cat : CatRef) (field : Nat) :
    (j.awaitCategory item cat field).building = j.building.awaitCategory item cat field := by
  cases hfind : j.building.step.findItemSet? cat field with
  | some s =>
    rw [Building.awaitCategory_of_some hfind]
    cases hdone : j.building.step.findCategory? ⟨j.building.index, s⟩ <;>
      simp only [awaitCategory, hfind, hdone] <;> rfl
  | none =>
    rw [Building.awaitCategory_of_none hfind]
    simp only [awaitCategory, hfind]
    exact building_expand ..

theorem building_predict (j : Journaled) (item : Item) (arg field : Nat) :
    (j.predict item arg field).building = j.building.predict item arg field := by
  rw [predict, Building.predict]
  cases item.production.args[arg]? with
  | none => rfl
  | some cat => exact building_awaitCategory ..

theorem building_pack (j : Journaled) (idx : Nat) (cat : ChartCat) (production : ChartProduction) :
    (j.pack idx cat production).building = j.building.pack idx cat production := by
  unfold pack Building.pack
  split
  · rfl
  · refine building_foldl (fun j field => ?_) ..
    split <;> simp [*]

theorem building_addCategory (j : Journaled) (ref : ItemSetRef) (set : ItemSet)
    (production : ChartProduction) :
    (j.addCategory ref set production).building = j.building.addCategory ref set production :=
  building_foldl (fun _ _ => rfl) ..

theorem building_complete (j : Journaled) (item : Item) :
    (j.complete item).building = j.building.complete item := by
  rw [complete, Building.complete]
  dsimp only [building_change]
  cases j.building.step.findCategory? item.set with
  | some idx =>
    dsimp only
    cases j.building.step.cats[idx]? with
    | some cat => exact building_pack ..
    | none => rfl
  | none =>
    have hset : ({ j.building with counters.completions :=
        j.building.counters.completions + 1 } : Building).itemSet? item.set =
        j.building.itemSet? item.set := rfl
    rw [hset]
    cases j.building.itemSet? item.set with
    | some set => exact building_addCategory ..
    | none => rfl

/-- **An item is processed as it is without a journal.** -/
theorem building_process (j : Journaled) (item : Item) :
    (j.process item).building = j.building.process item := by
  unfold process
  dsimp only
  split
  · rename_i hneed
    rw [building_complete, Building.process, hneed]
    rfl
  · rename_i hneed
    rw [building_predict, Building.process, hneed]
    rfl
  · rfl

theorem building_next? (j : Journaled) : j.next?.map building = j.building.next? := by
  obtain ⟨⟨concrete, history, step, agenda, counters, fault⟩, posts, worked⟩ := j
  cases fault with
  | some f => rfl
  | none =>
    cases agenda with
    | nil => rfl
    | cons item agenda => exact congrArg some (building_process ..)

/-- **So is the whole agenda.** -/
theorem building_run (limit : Nat) (j : Journaled) :
    (j.run limit).map building = j.building.run limit := by
  induction limit generalizing j with
  | zero =>
    have hnone : j.next?.isNone = j.building.next?.isNone := by
      rw [← building_next?, Option.isNone_map]
    rw [run, Building.run, hnone]
    split <;> rfl
  | succ limit ih =>
    rw [run, Building.run, ← building_next?]
    cases j.next? with
    | none => rfl
    | some j' => exact ih j'

/-- A round of work takes an item from the agenda and processes it. -/
theorem next?_eq_some (h : j.next? = some j') :
    ∃ item agenda, j.building.agenda = item :: agenda ∧ j' = process
      { j with building := { j.building with agenda }, worked := item :: j.worked } item := by
  unfold next? at h
  split at h
  · rename_i item agenda hfault hagenda
    cases h
    exact ⟨item, agenda, hagenda, rfl⟩
  · cases h

/-- What every round of work keeps holds after all of them. -/
theorem run_invariant (P : Journaled → Prop) (hnext : ∀ j j', P j → j.next? = some j' → P j')
    {limit : Nat} (hj : P j) (h : j.run limit = some j') : P j' := by
  induction limit generalizing j with
  | zero =>
    rw [run] at h
    split at h
    · cases h
      exact hj
    · cases h
  | succ limit ih =>
    rw [run] at h
    split at h
    · cases h
      exact hj
    · rename_i j₁ hj₁
      exact ih (hnext j j₁ hj hj₁) h

/-! ## The journal misses nothing -/

/-- Whatever was put on the agenda was noted. -/
structure Notes (j j' : Journaled) : Prop where
  worked : j'.worked = j.worked
  posts : ∃ new, j'.posts = j.posts ++ new ∧ (j'.building.agenda : Multiset Item) =
    (new.map Prod.snd : Multiset Item) + j.building.agenda

theorem Notes.refl (j : Journaled) : Notes j j := ⟨rfl, [], by simp, by simp⟩

theorem Notes.trans (h : Notes j j') (h' : Notes j' j'') : Notes j j'' := by
  obtain ⟨hworked, new, hposts, hagenda⟩ := h
  obtain ⟨hworked', new', hposts', hagenda'⟩ := h'
  refine ⟨hworked'.trans hworked, new ++ new', by rw [hposts', hposts, List.append_assoc], ?_⟩
  rw [hagenda', hagenda, List.map_append, ← Multiset.coe_add]
  ac_rfl

theorem notes_change {f : Building → Building}
    (h : (f j.building).agenda = j.building.agenda) : Notes j (j.change f) :=
  ⟨rfl, [], by simp [change], by simp [change, h]⟩

/-- What is put on the agenda in front of the rest is noted. -/
theorem posts_note {f : Building → Building} {new : List Item}
    (h : (f j.building).agenda = new ++ j.building.agenda) (cause : Cause) :
    (j.note cause f).posts = j.posts ++ new.map (cause, ·) := by
  simp [note, h]

theorem notes_note {f : Building → Building} {new : List Item}
    (h : (f j.building).agenda = new ++ j.building.agenda) (cause : Cause) :
    Notes j (j.note cause f) := by
  refine ⟨rfl, _, posts_note h cause, ?_⟩
  rw [building_note, h, List.map_map, ← Multiset.coe_add]
  simp

theorem notes_push (j : Journaled) (cause : Cause) (i : Item) :
    Notes j (j.note cause (·.push i)) :=
  notes_note (show _ = [i] ++ _ from rfl) cause

theorem notes_foldl {α : Type} {f : Journaled → α → Journaled} (hf : ∀ j a, Notes j (f j a))
    (as : List α) (j : Journaled) : Notes j (as.foldl f j) := by
  induction as generalizing j with
  | nil => exact .refl j
  | cons a as ih => exact (hf j a).trans (ih (f j a))

theorem notes_combine (j : Journaled) (waiting : ItemRef) (done : ChartCatId) :
    Notes j (j.combine waiting done) := by
  obtain ⟨new, hnew⟩ : ∃ new,
      (j.building.combine waiting done).agenda = new ++ j.building.agenda := by
    unfold Building.combine
    split
    · exact ⟨[], rfl⟩
    · split
      · exact ⟨[], rfl⟩
      · exact ⟨[_], rfl⟩
      · exact ⟨[], rfl⟩
  exact notes_note hnew _

theorem notes_expand (j : Journaled) (set : ItemSetRef) (cat : CatRef) (field : Nat) :
    Notes j (j.expand set cat field) := by
  refine Notes.trans ?_ (notes_foldl (fun j production => ?_) _ _)
  · exact notes_change rfl
  · exact notes_push ..

theorem notes_awaitCategory (j : Journaled) (item : Item) (cat : CatRef) (field : Nat) :
    Notes j (j.awaitCategory item cat field) := by
  unfold awaitCategory
  dsimp only
  split
  · split
    · exact Notes.trans (notes_change rfl) (notes_combine ..)
    · exact notes_change rfl
  · exact Notes.trans (notes_change rfl) (notes_expand ..)

theorem notes_complete (j : Journaled) (item : Item) : Notes j (j.complete item) := by
  unfold complete
  dsimp only
  refine Notes.trans (notes_change (f := fun b => { b with
    counters.completions := b.counters.completions + 1 }) rfl) ?_
  split
  · split
    · unfold pack
      split
      · exact .refl _
      · refine Notes.trans ?_ (notes_foldl (fun j field => ?_) _ _)
        · exact notes_change rfl
        · split
          · exact notes_push ..
          · exact .refl j
    · exact notes_change rfl
  · split
    · exact Notes.trans (notes_change rfl) (notes_foldl (fun j r => j.notes_combine r _) _ _)
    · exact notes_change rfl

/-- An item that needs no category waits for a token, or is put on the agenda past what it is at.
Forms without tokens may be several. -/
theorem exists_agenda_awaitVariants (b : Building) (v : Variants) (item : Item) :
    ∃ n, (b.awaitVariants v item).agenda = List.replicate n item.advanced ++ b.agenda := by
  unfold Building.awaitVariants
  split
  · split <;> exact ⟨0, rfl⟩
  · induction v.distinctForms generalizing b with
    | nil => exact ⟨0, rfl⟩
    | cons entry forms ih =>
      obtain ⟨ts, form⟩ := entry
      cases ts with
      | nil =>
        obtain ⟨n, hn⟩ := ih (b.push item.advanced)
        refine ⟨n + 1, ?_⟩
        rw [List.foldl_cons, hn, List.replicate_succ', List.append_assoc]
        rfl
      | cons t ts => exact ih (b.waitFor t { item with form })

theorem exists_agenda_process {b : Building} (hcomplete : b.concrete.need item ≠ .ok .complete)
    (hcategory : ∀ arg field, b.concrete.need item ≠ .ok (.category arg field)) :
    ∃ n, (b.process item).agenda = List.replicate n item.advanced ++ b.agenda := by
  unfold Building.process
  dsimp only
  split
  · exact ⟨0, rfl⟩
  · rename_i hneed
    exact absurd hneed hcomplete
  · rename_i hneed
    exact absurd hneed (hcategory _ _)
  · exact ⟨0, rfl⟩
  · split
    · exact ⟨0, rfl⟩
    · exact ⟨1, rfl⟩
  · exact exists_agenda_awaitVariants ..

/-- **Whatever is done with an item, all that is put on the agenda is noted.** -/
theorem notes_process (j : Journaled) (item : Item) : Notes j (j.process item) := by
  unfold process
  dsimp only
  split
  · exact Notes.trans (notes_change rfl) (notes_complete ..)
  · refine Notes.trans (notes_change (f := fun b => { b with
      counters.items := b.counters.items + 1 }) rfl) ?_
    unfold predict
    split
    · exact notes_change rfl
    · exact notes_awaitCategory ..
  · rename_i hcomplete hcategory
    obtain ⟨n, hagenda⟩ := exists_agenda_process hcomplete hcategory
    exact notes_note hagenda _

/-- What is on the agenda or was taken from it was there at the beginning or is in the journal. -/
def Balanced (first : List Item) (j : Journaled) : Prop :=
  (j.building.agenda : Multiset Item) + j.worked = first + (j.posts.map Prod.snd : Multiset Item)

theorem Balanced.next? {first : List Item} (h : j.Balanced first) (hnext : j.next? = some j') :
    j'.Balanced first := by
  obtain ⟨item, agenda, hagenda, rfl⟩ := next?_eq_some hnext
  obtain ⟨hworked, new, hposts, hnew⟩ := notes_process
    { j with building := { j.building with agenda }, worked := item :: j.worked } item
  unfold Balanced at h ⊢
  rw [hagenda] at h
  rw [hworked, hposts, hnew, List.map_append, ← Multiset.coe_add, ← add_assoc, ← h,
    ← Multiset.cons_coe, ← Multiset.cons_coe, ← Multiset.singleton_add, ← Multiset.singleton_add]
  dsimp only
  ac_rfl

/-- **The journal of a run misses nothing.** -/
theorem balanced_run {b : Building} {limit : Nat}
    (h : Journaled.run limit { building := b } = some j) : j.Balanced b.agenda :=
  run_invariant (Balanced b.agenda) (fun _ _ hj hnext => hj.next? hnext) (by simp [Balanced]) h

end Journaled

end Polyglot
