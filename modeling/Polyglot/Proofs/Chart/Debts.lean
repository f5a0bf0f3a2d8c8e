import Polyglot.Proofs.Chart.Due

/-!
# What is due is put on the agenda once

Whenever something becomes due it is owed, and it is put on the agenda before anything else is done.
So between two rounds of work nothing is owed: what is in the journal is what is due.

- `Journaled.Exact`: what is in the journal and what is still owed make up what is due, each once.
- `Journaled.Exact.owe`, `Journaled.Exact.pay`: how debts are made and settled. `Exact.joined`,
  `predicted`, `packed` and `closed` make them.
- `Journaled.Exact.process`, `Journaled.exact_run`: an item leaves no debts, and neither does a run.
- `Journaled.Exact.exists_posted`: what is in the journal for something that is due.
-/

namespace Polyglot

namespace Journaled

variable {a : Abstract} {c : Concrete} {ids : List InstanceId} {goal : Nat} {firstId : Int}
  {j j' : Journaled} {item : Item} {cause : Cause} {owed : List Cause} {f : Building → Building}

/-! ## Debts -/

/-- The causes of all that is in the journal. -/
def causes (j : Journaled) : List Cause := j.posts.map Prod.fst

/-- What is in the journal and what is owed make up what is due, each of it once, and what is in the
journal is right. -/
structure Exact (owed : List Cause) (j : Journaled) : Prop where
  due : ∀ cause, cause.inChart = true → (cause ∈ j.causes ++ owed ↔ j.building.Due cause)
  once : ((j.causes ++ owed).filter Cause.inChart).Nodup
  right : ∀ entry ∈ j.posts, j.building.Right entry.1 entry.2

theorem causes_note {new : List Item}
    (h : (f j.building).agenda = new ++ j.building.agenda) (cause : Cause) :
    (j.note cause f).causes = j.causes ++ List.replicate new.length cause := by
  simp [causes, posts_note h, Function.comp_def]

/-- Before anything is due nothing is owed. -/
theorem exact_start {b : Building} (h : ∀ cause, ¬ b.Due cause) : Exact [] { building := b } where
  due cause _ := iff_of_false List.not_mem_nil (h cause)
  once := .nil
  right _ hentry := absurd hentry List.not_mem_nil

/-- What makes nothing due makes no debts. -/
theorem Exact.of_steady (h : Exact owed j) (hposts : j'.posts = j.posts)
    (hsteady : j.building.Steady j'.building) : Exact owed j' := by
  have hcauses : j'.causes = j.causes := by rw [causes, hposts, causes]
  refine ⟨fun cause hchart => ?_, by rw [hcauses]; exact h.once, fun entry hentry => ?_⟩
  · rw [hcauses, hsteady.due_iff]
    exact h.due cause hchart
  · exact (h.right entry (hposts ▸ hentry)).mono hsteady.concrete hsteady.facts

theorem Exact.of_sameChart (h : Exact owed j) (hsame : j.building.SameChart (f j.building)) :
    Exact owed (j.change f) := h.of_steady rfl hsame.steady

/-- What was owed is settled when the right item is put on the agenda. -/
theorem Exact.pay (h : Exact (cause :: owed) j) (hsame : j.building.SameChart (f j.building))
    {i : Item} (hagenda : (f j.building).agenda = i :: j.building.agenda)
    (hright : j.building.Right cause i) : Exact owed (j.note cause f) := by
  have hnew : (f j.building).agenda = [i] ++ j.building.agenda := hagenda
  have hcauses : (j.note cause f).causes ++ owed = j.causes ++ cause :: owed := by
    rw [causes_note hnew, List.append_assoc]
    rfl
  have hposts : (j.note cause f).posts = j.posts ++ [(cause, i)] := posts_note hnew cause
  obtain ⟨hdue, honce, hold⟩ := h.of_sameChart hsame
  refine ⟨fun cause' hchart => ?_, by rw [hcauses]; exact h.once, fun entry hentry => ?_⟩
  · rw [hcauses]
    exact hdue cause' hchart
  · rw [hposts] at hentry
    rcases List.mem_append.1 hentry with hentry | hentry
    · exact hold entry hentry
    · rw [List.mem_singleton.1 hentry]
      exact hright.mono hsame.concrete fun φ hφ => by rwa [building_note, hsame.facts_eq]

/-- What becomes due is owed. -/
theorem Exact.owe (h : Exact [] j) (hconcrete : (f j.building).concrete = j.building.concrete)
    (hfacts : ∀ φ, j.building.facts φ → (f j.building).facts φ)
    (hdue : ∀ cause, cause.inChart = true →
      ((f j.building).Due cause ↔ j.building.Due cause ∨ cause ∈ owed))
    (hnodup : (owed.filter Cause.inChart).Nodup)
    (hfresh : ∀ cause ∈ owed, ¬ j.building.Due cause) : Exact owed (j.change f) := by
  obtain ⟨hold, honce, hright⟩ := h
  rw [List.append_nil] at honce
  simp only [List.append_nil] at hold
  refine ⟨fun cause hchart => ?_, ?_, fun entry hentry =>
    (hright entry hentry).mono hconcrete hfacts⟩
  · rw [building_change, hdue cause hchart, ← hold cause hchart]
    exact List.mem_append
  · show ((j.causes ++ owed).filter Cause.inChart).Nodup
    rw [List.filter_append]
    refine List.nodup_append.2 ⟨honce, hnodup, ?_⟩
    rintro cause hcause cause' hcause' rfl
    obtain ⟨hcause, hchart⟩ := List.mem_filter.1 hcause
    exact hfresh cause (List.mem_filter.1 hcause').1 ((hold cause hchart).1 hcause)

/-- Debts are settled one by one. -/
theorem Exact.foldl {α : Type} {g : Journaled → α → Journaled} {owes : α → List Cause}
    {as : List α} (h : Exact (as.flatMap owes) j)
    (hg : ∀ j', j.building.SameChart j'.building → ∀ x ∈ as, ∀ rest, Exact (owes x ++ rest) j' →
      Exact rest (g j' x) ∧ j'.building.SameChart (g j' x).building) :
    Exact [] (as.foldl g j) := by
  induction as generalizing j with
  | nil => exact h
  | cons x as ih =>
    obtain ⟨hrest, hsame⟩ := hg j ⟨rfl, rfl, rfl⟩ x List.mem_cons_self _ h
    exact ih hrest fun j' hj' y hy =>
      hg j' (hsame.trans hj') y (List.mem_cons_of_mem _ hy)

/-! ## What becomes owed -/

theorem Exact.joined (hb : j.building.Accountable c ids goal) (h : Exact [] j) {s : Nat}
    (hs : s < j.building.step.itemSets.size) (item : Item) :
    Exact (j.building.owedJoined s) (j.change (·.joined item s)) := by
  refine h.owe rfl (fun φ hφ => (Building.facts_joined hs item φ).2 (.inl hφ))
    (fun cause _ => Building.due_joined hb.facts hs item cause) ?_ ?_
  · refine List.Nodup.filter _ ?_
    unfold Building.owedJoined
    cases j.building.step.findCategory? ⟨j.building.index, s⟩ <;> simp
  · rintro cause hcause hdue
    obtain ⟨d, -, rfl⟩ : ∃ d, j.building.step.findCategory? ⟨j.building.index, s⟩ = some d ∧
        .combined ⟨j.building.index, j.building.step.items.size⟩ ⟨j.building.index, d⟩ =
          cause := by simpa [Building.owedJoined] using hcause
    -- Nothing that waits already is at the place of the new item.
    obtain ⟨-, S, Y, g, n, -, hwaits⟩ := hdue
    obtain ⟨-, -, -, w, -, -, hw, -⟩ := hb.facts.rests _ hwaits
    exact Building.not_item_size hw

theorem Exact.predicted (hb : j.building.Accountable c ids goal) (h : Exact [] j) (item : Item)
    (X : CatRef) (field : Nat) :
    Exact ((j.building.productions X).map
        (Cause.ofStart ⟨j.building.index, j.building.step.itemSets.size⟩ X))
      (j.change (·.predicted item X field)) := by
  refine h.owe rfl (fun φ hφ => (Building.facts_predicted item X field φ).2 (.inl hφ))
    (fun cause hchart => Building.due_predicted hb.facts item X field hchart) ?_ ?_
  · cases X with
    | grammar id =>
      rw [List.filter_eq_nil_iff.2]
      · exact .nil
      · rintro cause hcause
        obtain ⟨q, -, rfl⟩ := List.mem_map.1 hcause
        exact Bool.false_ne_true
    | chart C =>
      refine List.Nodup.filter _ (List.Nodup.map (fun q q' heq => ?_) (hb.nodup_productions C))
      cases heq
      rfl
  · rintro cause hcause hdue
    obtain ⟨q, -, rfl⟩ := List.mem_map.1 hcause
    cases X with
    | grammar id => exact hdue
    | chart C =>
      -- The place of the new set was free.
      obtain ⟨-, C', g, top, hset, -⟩ := hdue
      exact Building.not_predicts_size hset

theorem Exact.packed (hb : j.building.Accountable c ids goal) (h : Exact [] j) {idx : Nat}
    {cat : ChartCat} (hcat : j.building.step.cats[idx]? = some cat) {q : ChartProduction}
    (hnew : q ∉ cat.productions) :
    Exact ((List.range cat.fieldCount).flatMap (j.building.owedPacked idx q))
      (j.change (·.packed idx q)) := by
  have hidx := (Array.getElem?_eq_some_iff.1 hcat).1
  refine h.owe rfl (fun φ hφ => (Building.facts_packed hidx q φ).2 (.inl hφ))
    (fun cause _ => Building.due_packed hb.facts hcat q cause)
    ((j.building.nodup_owedPacked idx q _).filter _) ?_
  rintro cause hcause hdue
  obtain ⟨g, -, s, hs, rfl⟩ : ∃ g, g < cat.fieldCount ∧ ∃ s,
      j.building.step.findItemSet? (.chart ⟨j.building.index, idx⟩) g = some s ∧
      .started ⟨j.building.index, s⟩ q = cause := by
    simpa [Building.owedPacked] using hcause
  -- What is predicted has been started with the productions that the category had.
  obtain ⟨-, C, g', top', hset', hproduces⟩ := hdue
  obtain ⟨top, hset⟩ := Building.predicts_of_findItemSet? hs
  obtain ⟨heq, -, -⟩ := hb.facts.functional.predicts _ _ _ _ _ _ _ hset hset'
  cases heq
  obtain ⟨cat', hcat', hmem⟩ := Building.produces_iff.1 hproduces
  rw [Building.category?_here, hcat] at hcat'
  cases hcat'
  exact hnew hmem

theorem Exact.closed (hb : j.building.Accountable c ids goal) (h : Exact [] j) {S : ItemSetRef}
    {set : ItemSet} (hset : j.building.itemSet? S = some set) (q : ChartProduction) :
    Exact (set.waiting.map (.combined · ⟨j.building.index, j.building.step.cats.size⟩))
      (j.change (·.closed S set q)) := by
  refine h.owe rfl (fun φ hφ => (j.building.facts_closed S set q φ).2 (.inl hφ))
    (fun cause _ => Building.due_closed hb.facts hset q cause) ?_ ?_
  · refine ((hb.waiting hset).map fun r r' heq => ?_).filter _
    cases heq
    rfl
  · rintro cause hcause hdue
    obtain ⟨r, -, rfl⟩ := List.mem_map.1 hcause
    -- The place of the new category was free.
    obtain ⟨-, S', X, g, n, hdone, -⟩ := hdue
    rcases Building.before_size hdone with hlt | ⟨-, hlt⟩ <;>
      exact absurd hlt (Nat.lt_irrefl _)

/-! ## How it is settled -/

theorem Exact.combine {r : ItemRef} {C : ChartCatId} (h : Exact (.combined r C :: owed) j)
    {w : Item} (hw : j.building.facts (.item r w)) {arg g : Nat}
    (hx : j.building.concrete.constituent? w = some (.sub arg g)) :
    Exact owed (j.combine r C) ∧ j.building.SameChart (j.combine r C).building := by
  obtain ⟨hsame, hagenda⟩ := Building.agenda_combine (Building.item?_eq_some_iff.2 hw) hx C
  rw [Concrete.resumed_of_sub hx] at hagenda
  exact ⟨h.pay hsame hagenda ⟨w, arg, g, hw, hx, rfl⟩, hsame⟩

theorem Exact.expand {S : ItemSetRef} {X : CatRef} {field : Nat} {top : Bool}
    (hset : j.building.facts (.predicts S X field top))
    (h : Exact ((j.building.productions X).map (Cause.ofStart S X)) j) :
    Exact [] (j.expand S X field) := by
  rw [List.map_eq_flatMap] at h
  refine Exact.foldl (h.of_sameChart ⟨rfl, rfl, rfl⟩) fun j' hsame q _ rest hj' => ?_
  have hset' : j'.building.facts (.predicts S X field top) := by
    rw [hsame.facts_eq]
    exact hset
  refine ⟨hj'.pay ⟨rfl, rfl, rfl⟩ rfl ?_, ⟨rfl, rfl, rfl⟩⟩
  cases X with
  | grammar id => exact ⟨rfl, id, field, top, hset'⟩
  | chart C => exact ⟨_, field, top, hset', rfl⟩

/-- An item that waits for a category goes on at once if the category is complete, and begins it if
it was not predicted yet. -/
theorem Exact.awaitCategory (hb : j.building.Accountable c ids goal) (h : Exact [] j)
    {arg field : Nat} (hx : c.constituent? item = some (.sub arg field)) (X : CatRef) :
    Exact [] (j.awaitCategory item X field) := by
  rw [Journaled.awaitCategory]
  cases hfind : j.building.step.findItemSet? X field with
  | some s =>
    have hs := (Array.findIdx?_eq_some_iff_getElem.1 hfind).1
    have howed := h.joined hb hs item
    rw [Building.owedJoined] at howed
    dsimp only
    cases hdone : j.building.step.findCategory? ⟨j.building.index, s⟩ with
    | some d =>
      rw [hdone] at howed
      have hitem : (j.building.joined item s).facts
          (.item ⟨j.building.index, j.building.step.items.size⟩ item) :=
        (Building.facts_joined hs item _).2 (.inr (.inl rfl))
      exact (howed.combine hitem (by exact hb.concrete ▸ hx)).1
    | none =>
      rw [hdone] at howed
      exact howed
  | none =>
    have hproductions : (j.building.predicted item X field).productions X =
        j.building.productions X := by
      have hconcrete : (j.building.predicted item X field).concrete = j.building.concrete := rfl
      have hhistory : (j.building.predicted item X field).history = j.building.history := rfl
      exact Building.productions_congr hconcrete hhistory rfl X
    have hset := (Building.facts_predicted (b := j.building) item X field _).2
      (.inr (.inr (.inl rfl)))
    refine Exact.expand hset ?_
    rw [building_change, hproductions]
    exact h.predicted hb item X field

/-- A production that is new to a category is started for each field of it that is predicted. -/
theorem Exact.pack (hb : j.building.Accountable c ids goal) (h : Exact [] j) {idx : Nat}
    {cat : ChartCat} (hcat : j.building.step.cats[idx]? = some cat) (q : ChartProduction) :
    Exact [] (j.pack idx cat q) := by
  rw [Journaled.pack]
  split
  · exact h
  · rename_i hnew
    have hidx := (Array.getElem?_eq_some_iff.1 hcat).1
    refine (h.packed hb hcat hnew).foldl fun j' hsame g _ rest hj' => ?_
    have hindex : j'.building.index = j.building.index := hsame.index_eq
    have hfind : j'.building.step.findItemSet? (.chart ⟨j.building.index, idx⟩) g =
        j.building.step.findItemSet? (.chart ⟨j.building.index, idx⟩) g := by
      rw [hsame.step]
      rfl
    rw [Building.owedPacked] at hj'
    rw [hindex, hfind]
    cases hs : j.building.step.findItemSet? (.chart ⟨j.building.index, idx⟩) g with
    | none =>
      rw [hs] at hj'
      exact ⟨hj', ⟨rfl, rfl, rfl⟩⟩
    | some s =>
      rw [hs] at hj'
      obtain ⟨top, hset⟩ := Building.predicts_of_findItemSet? hs
      have hset' : j'.building.facts (.predicts ⟨j.building.index, s⟩
          (.chart ⟨j.building.index, idx⟩) g top) := by
        rw [hsame.facts_eq]
        exact (Building.facts_packed hidx q _).2 (.inl hset)
      exact ⟨hj'.pay ⟨rfl, rfl, rfl⟩ rfl ⟨_, g, top, hset', rfl⟩, ⟨rfl, rfl, rfl⟩⟩

/-- A category that is completed lets each item go on that waits for it. -/
theorem Exact.addCategory (hb : j.building.Accountable c ids goal) (h : Exact [] j) {S : ItemSetRef}
    {set : ItemSet} (hset : j.building.itemSet? S = some set) (q : ChartProduction) :
    Exact [] (j.addCategory S set q) := by
  have howed := h.closed hb hset q
  rw [List.map_eq_flatMap] at howed
  refine howed.foldl fun j' hsame r hr rest hj' => ?_
  obtain ⟨X, g, top, w, arg, -, hw, hx, -⟩ :=
    hb.facts.rests _ (Building.waits_iff.2 ⟨set, hset, hr⟩)
  have hw' : j'.building.facts (.item r w) := by
    rw [hsame.facts_eq]
    exact (j.building.facts_closed S set q _).2 (.inl hw)
  have hx' : j'.building.concrete.constituent? w = some (.sub arg g) := by
    rw [hsame.concrete]
    exact hb.concrete ▸ hx
  exact hj'.combine hw' hx'

theorem Exact.complete (hb : j.building.Accountable c ids goal) (h : Exact [] j) (item : Item) :
    Exact [] (j.complete item) := by
  rw [Journaled.complete]
  have hsame : j.building.SameChart { j.building with
      counters.completions := j.building.counters.completions + 1 } := ⟨rfl, rfl, rfl⟩
  have h₁ := h.of_sameChart (f := fun b => { b with
    counters.completions := b.counters.completions + 1 }) hsame
  have hb₁ := hb.of_sameChart hsame
  dsimp only [building_change]
  cases j.building.step.findCategory? item.set with
  | some idx =>
    dsimp only
    cases hcat : j.building.step.cats[idx]? with
    | some cat => exact Exact.pack hb₁ h₁ hcat _
    | none => exact h₁.of_sameChart ⟨rfl, rfl, rfl⟩
  | none =>
    dsimp only
    cases hset : ({ j.building with counters.completions :=
        j.building.counters.completions + 1 } : Building).itemSet? item.set with
    | some set => exact Exact.addCategory hb₁ h₁ hset _
    | none => exact h₁.of_sameChart ⟨rfl, rfl, rfl⟩

/-- An item that needs no category either waits for a token or comes past what it is at. -/
theorem Exact.pass (h : Exact owed j) (hsteady : j.building.Steady (f j.building)) {n : Nat}
    (hagenda : (f j.building).agenda = List.replicate n item.advanced ++ j.building.agenda) :
    Exact owed (j.note (.passed item) f) := by
  have hcauses : (j.note (.passed item) f).causes =
      j.causes ++ List.replicate n (.passed item) := by
    rw [causes_note hagenda, List.length_replicate]
  have hpassed : (List.replicate n (Cause.passed item)).filter Cause.inChart = [] := by
    simp [Cause.inChart]
  refine ⟨fun cause hchart => ?_, ?_, fun entry hentry => ?_⟩
  · have hcause : cause ∉ List.replicate n (.passed item) := by
      intro hmem
      rw [List.eq_of_mem_replicate hmem] at hchart
      cases hchart
    rw [hcauses, building_note, hsteady.due_iff, ← h.due cause hchart]
    simp [hcause]
  · rw [hcauses, List.filter_append, List.filter_append, hpassed, List.append_nil,
      ← List.filter_append]
    exact h.once
  · rw [posts_note hagenda] at hentry
    rcases List.mem_append.1 hentry with hentry | hentry
    · exact (h.right entry hentry).mono hsteady.concrete hsteady.facts
    · obtain ⟨i, hi, rfl⟩ := List.mem_map.1 hentry
      rw [List.eq_of_mem_replicate hi]
      exact Nat.succ_pos _

/-- **Whatever is done with an item, no debts are left.** -/
theorem Exact.process (hb : j.building.Accountable c ids goal) (h : Exact [] j) (item : Item) :
    Exact [] (j.process item) := by
  have hsame : j.building.SameChart { j.building with
      counters.items := j.building.counters.items + 1 } := ⟨rfl, rfl, rfl⟩
  have h₁ := h.of_sameChart (f := fun b => { b with
    counters.items := b.counters.items + 1 }) hsame
  have hb₁ := hb.of_sameChart hsame
  rw [Journaled.process]
  dsimp only
  split
  · exact Exact.complete hb₁ h₁ item
  · rename_i arg field hneed
    rw [hb.concrete] at hneed
    rw [Journaled.predict]
    split
    · exact h₁.of_sameChart ⟨rfl, rfl, rfl⟩
    · rename_i X harg
      exact Exact.awaitCategory hb₁ h₁ (Concrete.constituent?_of_need_category hneed) X
  · rename_i hcomplete hcategory
    obtain ⟨n, hagenda⟩ := exists_agenda_process hcomplete hcategory
    exact h.pass (Building.steady_process hcomplete hcategory) hagenda

/-! ## A whole run -/

/-- Taking an item from the agenda makes no debts, and neither does processing it. -/
theorem Exact.next? (hb : j.building.Accountable c ids goal) (h : Exact [] j)
    (hnext : j.next? = some j') : Exact [] j' := by
  obtain ⟨item, agenda, -, rfl⟩ := next?_eq_some hnext
  have hsame : j.building.SameChart { j.building with agenda } := ⟨rfl, rfl, rfl⟩
  let j₀ : Journaled :=
    { j with building := { j.building with agenda }, worked := item :: j.worked }
  have h₀ : Exact [] j₀ := h.of_steady rfl hsame.steady
  exact Exact.process (j := j₀) (hb.of_sameChart hsame) h₀ item

/-- A step that is well kept before anything is due in it is so at the end of a run, and all that is
due then is in the journal, once. -/
theorem exact_run (hfits : c.Fits a) {b : Building} (hb : b.Upkept c ids goal firstId)
    (hhistory : UpkeptSteps b.history) (hdue : ∀ cause, ¬ b.Due cause) {limit : Nat}
    (h : Journaled.run limit { building := b } = some j) :
    j.building.Accountable c ids goal ∧ Exact [] j := by
  obtain ⟨hupkept, hlearns, hexact⟩ := run_invariant
    (fun j => j.building.Upkept c ids goal firstId ∧ b.Learns j.building ∧ Exact [] j)
    (fun j j' ⟨hupkept, hlearns, hexact⟩ hnext => by
      have hbuilding : j.building.next? = some j'.building := by
        rw [← building_next?, hnext, Option.map_some]
      obtain ⟨hupkept', hlearns'⟩ := hupkept.next? hfits hbuilding
      have haccountable := hupkept.accountable (by rw [hlearns.history]; exact hhistory)
      exact ⟨hupkept', hlearns.trans hlearns', hexact.next? haccountable hnext⟩)
    ⟨hb, .refl b, exact_start hdue⟩ h
  exact ⟨hupkept.accountable (by rw [hlearns.history]; exact hhistory), hexact⟩

/-! ## What the journal says -/

theorem mem_causes_of_posted (h : j.posted cause ≠ []) : cause ∈ j.causes := by
  obtain ⟨i, hi⟩ := List.exists_mem_of_ne_nil _ h
  obtain ⟨entry, hentry, -⟩ := List.mem_map.1 hi
  obtain ⟨hentry, hcause⟩ := List.mem_filter.1 hentry
  exact List.mem_map.2 ⟨entry, hentry, of_decide_eq_true hcause⟩

/-- What is in the journal for a category of the chart is due. -/
theorem Exact.due_of_posted (h : Exact [] j) (hchart : cause.inChart = true)
    (hposted : j.posted cause ≠ []) : j.building.Due cause :=
  (h.due cause hchart).1 (List.mem_append_left _ (mem_causes_of_posted hposted))

/-- **What is due is in the journal once**, with the right item. -/
theorem Exact.exists_posted (h : Exact [] j) (hdue : j.building.Due cause) :
    ∃ i, j.posted cause = [i] ∧ j.building.Right cause i := by
  have hchart : cause.inChart = true := by
    cases cause <;> first | rfl | exact hdue.elim
  have hmem : cause ∈ j.causes := by simpa using (h.due cause hchart).2 hdue
  have hcount : j.causes.count cause = 1 := by
    have honce := h.once
    rw [List.append_nil] at honce
    rw [← List.count_filter hchart]
    exact List.count_eq_one_of_mem honce (List.mem_filter.2 ⟨hmem, hchart⟩)
  have hlength : (j.posts.filter (·.1 = cause)).length = 1 := by
    rw [← hcount, causes, List.count, List.countP_map, List.countP_eq_length_filter]
    rfl
  obtain ⟨entry, hentry⟩ := List.length_eq_one_iff.1 hlength
  obtain ⟨hposts, hcause⟩ := List.mem_filter.1 (hentry ▸ List.mem_singleton_self entry)
  refine ⟨entry.2, by rw [posted, hentry]; rfl, ?_⟩
  exact of_decide_eq_true hcause ▸ h.right entry hposts

end Journaled

end Polyglot
