import Mathlib
import Polyglot.Chart.Building

/-!
# Every round of work makes progress

Whatever is done with an item, the step in the making has more categories, item sets or productions
afterwards, or else the items on the agenda have less of their sequences ahead of them. So the
agenda is emptied if the step cannot grow without end.

- `Step.extent`: how much a step has of what can grow; `Building.Grows`: it never gets less.
- `Building.work`: how much the items on the agenda have ahead of them.
- `Building.process_progress`: what a round brings up or down.
- `Building.exists_run`: bounded growth is enough for an end.
- `Building.token_of_finish`: through all that the step is for the same token.
-/

namespace Polyglot

/-- How many categories, item sets and productions of categories a step has. -/
def Step.extent (s : Step) : Nat :=
  s.cats.size + s.itemSets.size + (s.cats.toList.map (·.productions.length)).sum

/-- How many constituents the field of an item has. -/
def Concrete.bodyLength (c : Concrete) (item : Item) : Nat :=
  match item.production with
  | .coerce _ => 1
  | .apply fn _ => ((c.sequenceOf? fn item.field).map List.length).getD 0

/-- How many constituents an item has ahead of it, and its end. -/
def Concrete.ahead (c : Concrete) (item : Item) : Nat := c.bodyLength item - item.dot + 1

/-- An item that needs something goes on to have less ahead of it, also with a new argument. -/
theorem Concrete.ahead_advanced {c : Concrete} {item : Item} {next : Item.Need}
    (h : c.need item = .ok next) (hnext : next ≠ .complete) {production : ChartProduction}
    (hproduction : production = item.production ∨
      ∃ arg cat, production = item.production.bind arg cat) :
    c.ahead { item with production }.advanced < c.ahead item := by
  have hlength : c.bodyLength { item with production }.advanced = c.bodyLength item := by
    rcases hproduction with rfl | ⟨arg, cat, rfl⟩
    · rfl
    · cases hp : item.production <;> simp [bodyLength, Item.advanced, ChartProduction.bind, hp]
  have hdot : item.dot < c.bodyLength item := by
    cases hp : item.production with
    | coerce cat =>
      simp only [need, hp] at h
      simp only [bodyLength, hp]
      split at h
      · omega
      · cases h
        exact absurd rfl hnext
    | apply fn args =>
      simp only [need, hp] at h
      simp only [bodyLength, hp]
      cases hs : c.sequenceOf? fn item.field with
      | none => simp [hs] at h
      | some s =>
        simp only [hs] at h
        cases hx : s[item.dot]? with
        | none =>
          simp only [hx] at h
          cases h
          exact absurd rfl hnext
        | some x => exact (List.getElem?_eq_some_iff.1 hx).1
  show c.bodyLength { item with production }.advanced - (item.dot + 1) + 1 < _
  rw [hlength, ahead]
  omega

/-- To add one to one member of a list adds one to the sum. -/
theorem sum_map_modify {α : Type} {f : α → α} {g : α → Nat} (hf : ∀ a, g (f a) = g a + 1)
    {as : List α} {i : Nat} (hi : i < as.length) :
    ((as.modify i f).map g).sum = (as.map g).sum + 1 := by
  induction as generalizing i with
  | nil => simp at hi
  | cons a as ih =>
    cases i with
    | zero => simp [hf]; omega
    | succ i =>
      have := ih (Nat.lt_of_succ_lt_succ hi)
      simp [this]
      omega

namespace Building

variable {b b' b'' : Building}

/-- How much the items on the agenda have ahead of them. -/
def work (b : Building) : Nat := (b.agenda.map b.concrete.ahead).sum

/-! ## Growth -/

/-- The step is the same one, for the same token, and has as much as before or more. -/
structure Grows (b b' : Building) : Prop where
  concrete : b'.concrete = b.concrete
  history : b'.history = b.history
  token : b'.step.token = b.step.token
  extent : b.step.extent ≤ b'.step.extent

theorem Grows.refl (b : Building) : Grows b b := ⟨rfl, rfl, rfl, Nat.le_refl _⟩

theorem Grows.trans (h : Grows b b') (h' : Grows b' b'') : Grows b b'' :=
  ⟨h'.concrete.trans h.concrete, h'.history.trans h.history, h'.token.trans h.token,
    Nat.le_trans h.extent h'.extent⟩

theorem grows_foldl {α : Type} {f : Building → α → Building} (hf : ∀ b a, Grows b (f b a))
    (as : List α) (b : Building) : Grows b (as.foldl f b) := by
  induction as generalizing b with
  | nil => exact .refl b
  | cons a as ih => exact (hf b a).trans (ih (f b a))

variable (b) (item : Item)

theorem grows_push : Grows b (b.push item) := ⟨rfl, rfl, rfl, Nat.le_refl _⟩

theorem grows_waitFor (token : Sym) : Grows b (b.waitFor token item) :=
  ⟨rfl, rfl, rfl, Nat.le_refl _⟩

theorem grows_combine (waiting : ItemRef) (done : ChartCatId) :
    Grows b (b.combine waiting done) := by
  unfold combine
  split
  · exact ⟨rfl, rfl, rfl, Nat.le_refl _⟩
  · split <;> exact ⟨rfl, rfl, rfl, Nat.le_refl _⟩

theorem grows_expand (set : ItemSetRef) (cat : CatRef) (field : Nat) :
    Grows b (b.expand set cat field) := by
  refine Grows.trans ?_ (grows_foldl (fun b _ => b.grows_push _) _ _)
  exact ⟨rfl, rfl, rfl, Nat.le_refl _⟩

/-- A new item set is some growth. -/
theorem extent_addItemSet (set : ItemSet) :
    (b.addItemSet set).2.step.extent = b.step.extent + 1 := by
  simp only [addItemSet, Step.extent, Array.size_push]
  omega

theorem grows_addItemSet (set : ItemSet) : Grows b (b.addItemSet set).2 :=
  ⟨rfl, rfl, rfl, by rw [extent_addItemSet]; exact Nat.le_succ _⟩

theorem grows_scan : Grows b (b.scan item) := by
  unfold scan
  dsimp only
  split <;> exact ⟨rfl, rfl, rfl, Nat.le_refl _⟩

theorem grows_predictTop (ids : List InstanceId) (field : Nat) :
    Grows b (b.predictTop ids field) := by
  refine grows_foldl (fun b id => ?_) ids b
  split
  · exact .refl b
  · exact (b.grows_addItemSet _).trans (grows_expand ..)

/-! ## Progress -/

/-- A round brings the step to have more, or the agenda to have less work on it, when the item that
it took up is counted with it. -/
structure Progress (item : Item) (b b' : Building) : Prop extends Grows b b' where
  less : b'.step.extent = b.step.extent → b'.work < b.work + b.concrete.ahead item

variable {b item}

/-- What only takes the item up brings the work down. -/
theorem Progress.of_agenda_eq (h : Grows b b') (hagenda : b'.agenda = b.agenda) :
    Progress item b b' := by
  refine ⟨h, fun _ => ?_⟩
  have hpos : 0 < b.concrete.ahead item := Nat.succ_pos _
  rw [work, work, hagenda, h.concrete]
  omega

/-- So does what puts one item in its place that has less ahead of it. -/
theorem Progress.of_push (h : Grows b b') (next : Item) (hagenda : b'.agenda = next :: b.agenda)
    (hnext : b.concrete.ahead next < b.concrete.ahead item) : Progress item b b' := by
  refine ⟨h, fun _ => ?_⟩
  rw [work, work, hagenda, h.concrete, List.map_cons, List.sum_cons]
  omega

/-- What grows is progress, whatever is then put on the agenda. -/
theorem Progress.of_extent (h : Grows b b') (hmore : b.step.extent < b'.step.extent)
    (hrest : Grows b' b'') : Progress item b b'' := by
  have hle := hrest.extent
  exact ⟨h.trans hrest, fun heq => by omega⟩

/-- Counting does not matter. -/
theorem Progress.of_counters (counters : Counters) (h : Progress item { b with counters } b') :
    Progress item b b' :=
  ⟨⟨h.concrete, h.history, h.token, h.extent⟩, h.less⟩

theorem progress_awaitCategory {arg field : Nat}
    (hneed : b.concrete.need item = .ok (.category arg field)) (cat : CatRef) :
    Progress item b (b.awaitCategory item cat field) := by
  rw [awaitCategory]
  dsimp only [store]
  split
  · rename_i i _
    split
    · -- The item itself goes on.
      rename_i done _
      have hitem : item? { b with
          step.items := b.step.items.push item
          step.itemSets := b.step.itemSets.modify i fun set =>
            { set with waiting := set.waiting ++ [⟨b.index, b.step.items.size⟩] } }
          ⟨b.index, b.step.items.size⟩ = some item := by
        simp [item?, step?, index]
      refine Progress.of_push ?_ ({ item with
        production := item.production.bind arg (.chart ⟨b.index, done⟩) }.advanced : Item) ?_
        (Concrete.ahead_advanced hneed nofun (.inr ⟨_, _, rfl⟩))
      · refine Grows.trans ?_ (grows_combine ..)
        exact ⟨rfl, rfl, rfl, by simp [Step.extent]⟩
      · rw [combine, hitem]
        dsimp only
        rw [hneed]
        rfl
    · refine Progress.of_agenda_eq ⟨rfl, rfl, rfl, ?_⟩ rfl
      simp [Step.extent]
  · refine Progress.of_extent ?_ ?_ (grows_expand ..)
    · exact ⟨rfl, rfl, rfl, by rw [extent_addItemSet]; exact Nat.le_succ _⟩
    · rw [extent_addItemSet]
      exact Nat.lt_succ_self _

theorem progress_predict {arg field : Nat}
    (hneed : b.concrete.need item = .ok (.category arg field)) :
    Progress item b (b.predict item arg field) := by
  unfold predict
  split
  · exact Progress.of_agenda_eq ⟨rfl, rfl, rfl, Nat.le_refl _⟩ rfl
  · exact progress_awaitCategory hneed _

/-- Of the forms that are tried one at most is empty, so the item goes on once at most. -/
theorem grows_awaitForms (item : Item) (forms : List (List Sym × Nat)) (seen : List (List Sym))
    (b : Building) :
    let b' := (Variants.distinct seen forms).foldl
      (fun b (tokens, form) =>
        match tokens with
        | token :: _ => b.waitFor token { item with form }
        | [] => b.push item.advanced) b
    Grows b b' ∧ b'.step.extent = b.step.extent ∧
      (b'.agenda = b.agenda ∨ [] ∉ seen ∧ b'.agenda = item.advanced :: b.agenda) := by
  induction forms generalizing seen b with
  | nil => exact ⟨.refl b, rfl, .inl rfl⟩
  | cons entry forms ih =>
    obtain ⟨tokens, form⟩ := entry
    rw [Variants.distinct]
    split
    · exact ih seen b
    · rename_i hnew
      rw [List.foldl_cons]
      cases tokens with
      | nil =>
        obtain ⟨hgrows, hextent, hagenda⟩ := ih ([] :: seen) (b.push item.advanced)
        refine ⟨(b.grows_push _).trans hgrows, hextent, .inr ⟨hnew, ?_⟩⟩
        rcases hagenda with hagenda | ⟨hseen, -⟩
        · exact hagenda
        · exact absurd List.mem_cons_self hseen
      | cons token rest =>
        obtain ⟨hgrows, hextent, hagenda⟩ :=
          ih ((token :: rest) :: seen) (b.waitFor token { item with form })
        refine ⟨(b.grows_waitFor _ _).trans hgrows, hextent, hagenda.imp_right ?_⟩
        exact fun ⟨hseen, h⟩ => ⟨fun hmem => hseen (List.mem_cons_of_mem _ hmem), h⟩

theorem progress_awaitVariants {v : Variants} (hneed : b.concrete.need item = .ok (.variants v)) :
    Progress item b (b.awaitVariants v item) := by
  unfold awaitVariants
  split
  · split
    · exact Progress.of_agenda_eq (b.grows_waitFor _ _) rfl
    · exact Progress.of_agenda_eq (.refl b) rfl
  · obtain ⟨hgrows, -, hagenda | ⟨-, hagenda⟩⟩ := grows_awaitForms item v.forms.zipIdx [] b
    · exact Progress.of_agenda_eq hgrows hagenda
    · exact Progress.of_push hgrows _ hagenda (Concrete.ahead_advanced hneed nofun (.inl rfl))

/-- A production that is new to a category is some growth. -/
theorem progress_pack {idx : Nat} {cat : ChartCat} (hcat : b.step.cats[idx]? = some cat)
    (q : ChartProduction) : Progress item b (b.pack idx cat q) := by
  unfold pack
  split
  · exact Progress.of_agenda_eq (.refl b) rfl
  · let add (cat : ChartCat) : ChartCat := { cat with productions := cat.productions ++ [q] }
    let packed : Building := { b with step.cats := b.step.cats.modify idx add }
    have hidx : idx < b.step.cats.toList.length := by
      simpa using (Array.getElem?_eq_some_iff.1 hcat).1
    have hextent : packed.step.extent = b.step.extent + 1 := by
      have hsum := sum_map_modify (f := add) (g := (·.productions.length)) (by simp [add]) hidx
      simp only [packed, Step.extent, Array.size_modify, Array.toList_modify, hsum]
      omega
    have hgrows : Grows b packed := ⟨rfl, rfl, rfl, by omega⟩
    refine Progress.of_extent hgrows (by omega) (grows_foldl (fun b field => ?_) _ packed)
    split
    · exact b.grows_push _
    · exact .refl b

/-- So is a new category. -/
theorem progress_addCategory (ref : ItemSetRef) (set : ItemSet) (q : ChartProduction) :
    Progress item b (b.addCategory ref set q) := by
  unfold addCategory
  dsimp only
  refine Progress.of_extent ?_ ?_ (grows_foldl (fun b r => b.grows_combine r _) _ _)
  · refine ⟨rfl, rfl, rfl, ?_⟩
    simp only [Step.extent, Array.size_push, Array.toList_push, List.map_append, List.sum_append]
    omega
  · simp only [Step.extent, Array.size_push, Array.toList_push, List.map_append, List.sum_append]
    omega

theorem progress_complete (b : Building) (item : Item) : Progress item b (b.complete item) := by
  unfold complete
  refine .of_counters { b.counters with completions := b.counters.completions + 1 } ?_
  generalize ({ b with counters.completions := b.counters.completions + 1 } : Building) = b
  dsimp only
  split
  · split
    · rename_i cat hcat
      exact progress_pack hcat _
    · exact Progress.of_agenda_eq ⟨rfl, rfl, rfl, Nat.le_refl _⟩ rfl
  · split
    · exact progress_addCategory ..
    · exact Progress.of_agenda_eq ⟨rfl, rfl, rfl, Nat.le_refl _⟩ rfl

/-- **Every round makes progress.** -/
theorem process_progress (b : Building) (item : Item) : Progress item b (b.process item) := by
  unfold process
  refine .of_counters { b.counters with items := b.counters.items + 1 } ?_
  generalize ({ b with counters.items := b.counters.items + 1 } : Building) = b
  dsimp only
  split
  · exact Progress.of_agenda_eq ⟨rfl, rfl, rfl, Nat.le_refl _⟩ rfl
  · exact progress_complete b item
  · rename_i hneed
    exact progress_predict hneed
  · exact Progress.of_agenda_eq (.refl b) rfl
  · rename_i hneed
    split
    · exact Progress.of_agenda_eq (b.grows_waitFor _ _) rfl
    · exact Progress.of_push (b.grows_push _) _ rfl
        (Concrete.ahead_advanced hneed nofun (.inl rfl))
  · rename_i hneed
    exact progress_awaitVariants hneed

/-! ## Bounded growth is enough for an end -/

/-- A run that ends does so with any higher limit, and in the same way. -/
theorem run_mono {limit limit' : Nat} (hle : limit ≤ limit') (h : b.run limit = some b') :
    b.run limit' = some b' := by
  induction limit generalizing b limit' with
  | zero =>
    rw [run] at h
    split at h
    · rename_i hnone
      cases limit' with
      | zero => rw [run, if_pos hnone, h]
      | succ limit' => rw [run, Option.isNone_iff_eq_none.1 hnone]; exact h
    · cases h
  | succ limit ih =>
    obtain ⟨limit', rfl⟩ : ∃ k, limit' = k + 1 := ⟨limit' - 1, by omega⟩
    rw [run] at h ⊢
    cases hnext : b.next? with
    | none => rw [hnext] at h; exact h
    | some b₁ =>
      rw [hnext] at h
      exact ih (Nat.le_of_succ_le_succ hle) h

/-- A round is the work on the next item. -/
theorem next?_eq_some (h : b.next? = some b') :
    ∃ item agenda, b.fault = none ∧ b.agenda = item :: agenda ∧
      b' = { b with agenda }.process item := by
  unfold next? at h
  split at h
  · rename_i item agenda hfault hagenda
    cases h
    exact ⟨item, agenda, hfault, hagenda, rfl⟩
  · cases h

theorem grows_next? (h : b.next? = some b') : Grows b b' := by
  obtain ⟨item, agenda, -, -, rfl⟩ := next?_eq_some h
  have h := process_progress { b with agenda } item
  exact ⟨h.concrete, h.history, h.token, h.extent⟩

/-- What every round keeps is kept until the end. -/
theorem run_invariant (Inv : Building → Prop)
    (hnext : ∀ b b', Inv b → b.next? = some b' → Inv b') (h : Inv b) {limit : Nat}
    (hrun : b.run limit = some b') : Inv b' := by
  induction limit generalizing b with
  | zero =>
    rw [run] at hrun
    split at hrun
    · cases hrun
      exact h
    · cases hrun
  | succ limit ih =>
    rw [run] at hrun
    split at hrun
    · cases hrun
      exact h
    · rename_i b₁ hb
      exact ih (hnext _ _ h hb) hrun

theorem grows_run {limit : Nat} (h : b.run limit = some b') : Grows b b' :=
  run_invariant (Grows b) (fun _ _ hgrows hnext => hgrows.trans (grows_next? hnext)) (.refl b) h

/-- A finished step is for the token that it was begun for. -/
theorem token_of_finish {limit : Nat} {s : Step} (h : (b.finish limit).1 = .ok s) :
    s.token = b.step.token := by
  unfold finish at h
  split at h
  · cases h
  · rename_i b' hrun
    split at h
    · cases h
    · cases h
      exact (grows_run hrun).token

/-- If something that every round keeps bounds the growth of the step then the agenda is emptied:
either the step comes closer to its bound, or there is less to do. -/
theorem exists_run {Inv : Building → Prop} {bound : Nat}
    (hnext : ∀ b b', Inv b → b.next? = some b' → Inv b')
    (hbound : ∀ b, Inv b → b.step.extent ≤ bound) (h : Inv b) :
    ∃ limit b', b.run limit = some b' := by
  induction hroom : bound - b.step.extent using Nat.strong_induction_on generalizing b with
  | _ room ihRoom =>
    induction hwork : b.work using Nat.strong_induction_on generalizing b with
    | _ work ihWork =>
      cases hb : b.next? with
      | none => exact ⟨0, b, by rw [run, hb]; rfl⟩
      | some b₁ =>
        have hrest : ∃ limit b', b₁.run limit = some b' := by
          obtain ⟨item, agenda, -, hagenda, rfl⟩ := next?_eq_some hb
          have hprogress := process_progress { b with agenda } item
          have hinv := hnext b _ h hb
          have hle := hprogress.extent
          rcases Nat.lt_or_ge b.step.extent ({ b with agenda }.process item).step.extent with
            hmore | hsame
          · refine ihRoom _ ?_ hinv rfl
            have := hbound _ hinv
            omega
          · have heq := Nat.le_antisymm hsame hle
            refine ihWork _ ?_ hinv (by rw [heq]; exact hroom) rfl
            have hless := hprogress.less heq
            have hsum : b.work = Building.work { b with agenda } + b.concrete.ahead item := by
              simp only [Building.work, hagenda, List.map_cons, List.sum_cons]
              exact Nat.add_comm _ _
            exact hwork ▸ hsum ▸ hless
        obtain ⟨limit, b', hrun⟩ := hrest
        exact ⟨limit + 1, b', by rw [run, hb]; exact hrun⟩

end Building

end Polyglot
