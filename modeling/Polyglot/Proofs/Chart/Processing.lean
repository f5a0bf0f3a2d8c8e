import Polyglot.Proofs.Chart.Saturation

/-!
# Processing an item has one of the effects

Here the operations on a step in the making are followed through, for an item that stands where it
is processed in a sound chart. None of them runs into a fault, because whatever is looked up is
there, and what they add up to is one of the effects.

- `Building.adds_combine`, `adds_pack`, `adds_addCategory`: what single operations add.
- `Building.exists_effect_waitFor`, `exists_effect_awaitVariants`: an item that comes to words.
- `Building.exists_effect`: what processing an item adds.
-/

namespace Polyglot

/-! ## Forms -/

namespace Variants

theorem mem_of_mem_distinct {seen : List (List Sym)} {forms : List (List Sym × Nat)}
    {entry : List Sym × Nat} (h : entry ∈ distinct seen forms) : entry ∈ forms := by
  induction forms generalizing seen with
  | nil => exact h
  | cons form forms ih =>
    obtain ⟨ts, i⟩ := form
    rw [distinct] at h
    split at h
    · exact List.mem_cons_of_mem _ (ih h)
    · rcases List.mem_cons.1 h with rfl | h
      · exact List.mem_cons_self
      · exact List.mem_cons_of_mem _ (ih h)

theorem exists_mem_distinct {seen : List (List Sym)} {forms : List (List Sym × Nat)}
    {ts : List Sym} {i : Nat} (h : (ts, i) ∈ forms) (hseen : ts ∉ seen) :
    ∃ j, (ts, j) ∈ distinct seen forms := by
  induction forms generalizing seen with
  | nil => cases h
  | cons form forms ih =>
    obtain ⟨ts', i'⟩ := form
    rw [distinct]
    split
    · rename_i hold
      rcases List.mem_cons.1 h with heq | h
      · cases heq
        exact absurd hold hseen
      · exact ih h hseen
    · by_cases heq : ts = ts'
      · exact ⟨i', by rw [heq]; exact List.mem_cons_self⟩
      · rcases List.mem_cons.1 h with h | h
        · cases h
          exact absurd rfl heq
        · have hseen' : ts ∉ ts' :: seen := by simp [heq, hseen]
          obtain ⟨j, hj⟩ := ih h hseen'
          exact ⟨j, List.mem_cons_of_mem _ hj⟩

/-- The forms that are tried are forms, under their numbers. -/
theorem form?_of_mem_distinctForms {v : Variants} {ts : List Sym} {i : Nat}
    (h : (ts, i) ∈ v.distinctForms) : v.form? i = some ts :=
  List.mem_zipIdx_iff_getElem?.1 (mem_of_mem_distinct h)

/-- The words of every form are tried. -/
theorem exists_mem_distinctForms {v : Variants} {ts : List Sym} (h : ts ∈ v.forms) :
    ∃ i, (ts, i) ∈ v.distinctForms := by
  obtain ⟨i, hi⟩ := List.mem_iff_getElem?.1 h
  exact exists_mem_distinct (List.mem_zipIdx_iff_getElem?.2 hi) (by simp)

end Variants

namespace Building

variable {c : Concrete} {v : Nat → Sym} {ids : List InstanceId} {goal : Nat} {b b' : Building}
  {item : Item}

/-! ## Operations that put items on the agenda -/

/-- Nothing but counters and the agenda has changed. -/
structure SameChart (b b' : Building) : Prop where
  concrete : b'.concrete = b.concrete
  history : b'.history = b.history
  step : b'.step = b.step

theorem SameChart.facts_eq (h : b.SameChart b') : b'.facts = b.facts := by
  rw [facts, facts, h.history, h.step]

theorem SameChart.index_eq (h : b.SameChart b') : b'.index = b.index := by
  rw [index, index, h.history]

theorem SameChart.trans {b'' : Building} (h : b.SameChart b') (h' : b'.SameChart b'') :
    b.SameChart b'' :=
  ⟨h'.concrete.trans h.concrete, h'.history.trans h.history, h'.step.trans h.step⟩

/-- Operations that only put items on the agenda, one after the other. -/
theorem adds_foldl {α : Type} (f : Building → α → Building) (items : α → Item → Prop)
    (as : List α) (b : Building)
    (h : ∀ b', b.SameChart b' → ∀ a ∈ as,
      b'.SameChart (f b' a) ∧ b'.Adds (f b' a) (fun _ => False) (items a)) :
    b.Adds (as.foldl f b) (fun _ => False) (fun i => ∃ a ∈ as, items a i) := by
  induction as generalizing b with
  | nil => exact (b.adds_counters b.counters).congr (fun _ => Iff.rfl) (by simp)
  | cons a as ih =>
    obtain ⟨hsame, hadds⟩ := h b ⟨rfl, rfl, rfl⟩ a List.mem_cons_self
    have hrest := ih (f b a) fun b' hb' a' ha' =>
      h b' (hsame.trans hb') a' (List.mem_cons_of_mem _ ha')
    exact (hadds.trans hrest).congr (fun _ => or_self_iff) (by simp)

/-- A waiting item goes on. -/
theorem adds_combine {r : ItemRef} {w : Item} {arg g : Nat} (hw : b.facts (.item r w))
    (hx : b.concrete.constituent? w = some (.sub arg g)) (done : ChartCatId) :
    b.SameChart (b.combine r done) ∧
      b.Adds (b.combine r done) (fun _ => False) (· = w.resume arg done) := by
  rw [combine, item?_eq_some_iff.2 hw]
  dsimp only
  rw [Concrete.need_of_constituent? hx]
  refine ⟨⟨rfl, rfl, rfl⟩, ?_⟩
  exact ((b.adds_counters _).trans (adds_push _ _)).congr (fun _ => or_self_iff) fun _ => by
    rw [false_or]
    rfl

/-! ## Items that wait -/

/-- Before the first word an item waits for the first words of all its forms. -/
theorem exists_adds_forms (item : Item) (forms : List (List Sym × Nat)) (b : Building) :
    ∃ waits : Sym → Item → Nat → Prop,
      (∀ t i idx, waits t i idx → ∃ ts form, (t :: ts, form) ∈ forms ∧ i = { item with form }) ∧
      (∀ t ts form, (t :: ts, form) ∈ forms → ∃ idx, waits t { item with form } idx) ∧
      b.Adds
        (forms.foldl
          (fun b (tokens, form) =>
            match tokens with
            | token :: _ => b.waitFor token { item with form }
            | [] => b.push item.advanced)
          b)
        (fun φ => ∃ t i idx, waits t i idx ∧
          (φ = .item ⟨b.index, idx⟩ i ∨ φ = .awaits b.index t idx))
        (fun i => i = item.advanced ∧ ∃ form, ([], form) ∈ forms) := by
  induction forms generalizing b with
  | nil =>
    exact ⟨fun _ _ _ => False, nofun, nofun,
      (b.adds_counters b.counters).congr (by simp) (by simp)⟩
  | cons entry forms ih =>
    obtain ⟨tokens, form⟩ := entry
    cases tokens with
    | nil =>
      obtain ⟨waits, hfrom, hall, hadds⟩ := ih (b.push item.advanced)
      refine ⟨waits, fun t i idx h => ?_, fun t ts form h => ?_, ?_⟩
      · obtain ⟨ts, form, hmem, rfl⟩ := hfrom t i idx h
        exact ⟨ts, form, List.mem_cons_of_mem _ hmem, rfl⟩
      · exact hall t ts form (by simpa using h)
      · refine ((b.adds_push item.advanced).trans hadds).congr (fun φ => ?_) fun i => ?_
        · rw [false_or]
          rfl
        · simp only [List.mem_cons, Prod.mk.injEq, true_and]
          grind
    | cons t₀ ts₀ =>
      have hfirst := b.adds_waitFor t₀ { item with form }
      obtain ⟨waits, hfrom, hall, hadds⟩ := ih (b.waitFor t₀ { item with form })
      refine ⟨fun t i idx => (t = t₀ ∧ i = { item with form } ∧ idx = b.step.items.size) ∨
        waits t i idx, ?_, ?_, ?_⟩
      · rintro t i idx (⟨rfl, rfl, rfl⟩ | h)
        · exact ⟨ts₀, form, List.mem_cons_self, rfl⟩
        · obtain ⟨ts, form', hmem, rfl⟩ := hfrom t i idx h
          exact ⟨ts, form', List.mem_cons_of_mem _ hmem, rfl⟩
      · intro t ts form' h
        rcases List.mem_cons.1 h with h | h
        · cases h
          exact ⟨_, .inl ⟨rfl, rfl, rfl⟩⟩
        · obtain ⟨idx, hwaits⟩ := hall t ts form' h
          exact ⟨idx, .inr hwaits⟩
      · refine (hfirst.trans hadds).congr (fun φ => ?_) fun i => ?_
        · rw [hfirst.index]
          constructor
          · rintro (h | ⟨t, i, idx, hwaits, h⟩)
            · exact ⟨t₀, _, _, .inl ⟨rfl, rfl, rfl⟩, h⟩
            · exact ⟨t, i, idx, .inr hwaits, h⟩
          · rintro ⟨t, i, idx, ⟨rfl, rfl, rfl⟩ | hwaits, h⟩
            · exact .inl h
            · exact .inr ⟨t, i, idx, hwaits, h⟩
        · simp

/-! ## Items that ask for a category -/

/-- The number of fields of a category is that of the instance it comes from. -/
theorem fieldCount_eq (hF : Sound c v ids goal b.facts) (hc : b.concrete = c) {X : CatRef}
    {id : InstanceId} {L : List Span} (h : Chain b.facts X id L) :
    b.fieldCount X = (c.fieldCount? id).getD 0 := by
  cases h with
  | grammar id => rw [fieldCount, hc]
  | chart hdone hchain =>
    obtain ⟨-, -, ⟨id', L', hchain', hn⟩, -⟩ := hF.grounded _ hdone
    obtain ⟨rfl, -⟩ := hchain.unique hF.functional hchain'
    rw [fieldCount_of_closes hdone, hn]

/-- What was predicted and completed is the same before and after an item is stored. -/
structure SameSets (b b' : Building) : Prop where
  findItemSet? (X : CatRef) (f : Nat) : b'.step.findItemSet? X f = b.step.findItemSet? X f
  findCategory? (S : ItemSetRef) : b'.step.findCategory? S = b.step.findCategory? S
  size : b'.step.itemSets.size = b.step.itemSets.size

theorem sameSets_store (b : Building) (item : Item) : b.SameSets (b.store item).2 :=
  ⟨fun _ _ => rfl, fun _ => rfl, rfl⟩

/-- An item that asks for a category that was predicted before joins the items that wait for it. -/
theorem exists_effect_join (hF : Sound c v ids goal b.facts) (hc : b.concrete = c)
    {arg f i : Nat} {X : CatRef} (hx : c.constituent? item = some (.sub arg f))
    (harg : item.production.args[arg]? = some X) (hset : b.step.findItemSet? X f = some i) :
    ∃ new items, Effect c b.index b.facts item new items ∧
      b.Adds (b.awaitCategory item X f) new items := by
  have hstore := b.adds_store item
  have hsame := b.sameSets_store item
  have hindex := hstore.index
  have hr : (b.store item).1.step = b.index := rfl
  rw [awaitCategory]
  generalize b.store item = stored at hstore hsame hindex hr
  obtain ⟨r, b₁⟩ := stored
  dsimp only at hstore hsame hindex hr ⊢
  rw [hsame.findItemSet?, hset]
  have hi : i < b₁.step.itemSets.size :=
    hsame.size ▸ (Array.findIdx?_eq_some_iff_getElem.1 hset).1
  have hjoin := b₁.adds_step _ b₁.counters fun _ => Step.says_join hi r
  have hfindCat : ∀ sets S, Step.findCategory? { b₁.step with itemSets := sets } S =
      b.step.findCategory? S := fun _ => hsame.findCategory?
  obtain ⟨top, hpredicts⟩ := predicts_of_findItemSet? hset
  refine ⟨_, _, .join hx harg hpredicts rfl hr, ?_⟩
  dsimp only at hfindCat ⊢
  generalize ({ b₁ with
    step.itemSets := b₁.step.itemSets.modify i fun set =>
      { set with waiting := set.waiting ++ [r] } } : Building) = b₂ at hjoin ⊢
  have hboth := hstore.trans hjoin
  have hindex₂ : b₂.index = b.index := hboth.index
  rw [hindex₂, hfindCat]
  cases hcat : b.step.findCategory? ⟨b.index, i⟩ with
  | some j =>
    obtain ⟨X', f', n, hcloses⟩ := closes_of_findCategory? hcat
    have hitem := (hboth.facts (.item r item)).2 (.inr (.inl rfl))
    obtain ⟨-, hcombine⟩ := adds_combine hitem (by rw [hboth.concrete, hc]; exact hx) ⟨b.index, j⟩
    refine (hboth.trans hcombine).congr (fun φ => by simp [hindex]) fun i' => ?_
    simp only [false_or]
    constructor
    · rintro rfl
      exact ⟨_, _, _, _, hcloses, rfl, rfl⟩
    · -- there is only one category that completes a set in this step
      rintro ⟨C, X'', f'', n', hcloses', hC, rfl⟩
      rw [hF.closes_once _ _ _ _ _ _ _ _ _ hcloses' hcloses hC]
  | none =>
    refine hboth.congr (fun φ => by simp [hindex]) fun i' => ?_
    simp only [or_self, false_iff]
    rintro ⟨C, X'', f'', n', hcloses, hC, -⟩
    exact not_closes_of_findCategory? hcat hC hcloses

/-- An item that asks for a category that was not predicted before has it started. -/
theorem exists_effect_predict (hc : b.concrete = c) {arg f : Nat} {X : CatRef}
    (hx : c.constituent? item = some (.sub arg f)) (harg : item.production.args[arg]? = some X)
    (hset : b.step.findItemSet? X f = none) :
    ∃ new items, Effect c b.index b.facts item new items ∧
      b.Adds (b.awaitCategory item X f) new items := by
  have hstore := b.adds_store item
  have hsame := b.sameSets_store item
  have hindex := hstore.index
  have hr : (b.store item).1.step = b.index := rfl
  rw [awaitCategory]
  generalize b.store item = stored at hstore hsame hindex hr
  obtain ⟨r, b₁⟩ := stored
  dsimp only at hstore hsame hindex hr ⊢
  rw [hsame.findItemSet?, hset]
  have hadd := b₁.adds_addItemSet { cat := X, field := f, top := false, waiting := [r] }
  dsimp only at hadd ⊢
  refine ⟨_, _, .predict hx harg (fun S top hS => not_predicts_of_findItemSet? hset hS)
    rfl hr (S := ⟨b.index, b.step.itemSets.size⟩) (fun _ _ _ => not_predicts_size), ?_⟩
  have hboth := hstore.trans hadd
  refine (hboth.trans (adds_expand _ _ X f)).congr (fun φ => ?_) fun i' => ?_
  · simp [addItemSet, hindex, hsame.size]
  · simp only [or_self, false_or, addItemSet, hindex, hsame.size]
    refine exists_congr fun q => and_congr_left fun _ => ?_
    -- nothing is offered by what was stored
    have hoffers : Offers b.concrete (b₁.addItemSet ⟨X, f, false, [r]⟩).2.facts X q ↔
        Offers c b.facts X q := by
      rw [hc]
      cases X with
      | grammar id => exact Iff.rfl
      | chart C =>
        refine (hboth.facts _).trans ?_
        simp [Offers]
    have hconcrete : b₁.concrete = b.concrete := hstore.concrete
    rw [← hoffers, ← hconcrete]
    exact Iff.rfl

/-- An item that asks for a category waits for it. -/
theorem exists_effect_awaitCategory (hF : Sound c v ids goal b.facts) (hc : b.concrete = c)
    {arg f : Nat} {X : CatRef} (hx : c.constituent? item = some (.sub arg f))
    (harg : item.production.args[arg]? = some X) :
    ∃ new items, Effect c b.index b.facts item new items ∧
      b.Adds (b.awaitCategory item X f) new items := by
  cases hset : b.step.findItemSet? X f with
  | some i => exact exists_effect_join hF hc hx harg hset
  | none => exact exists_effect_predict hc hx harg hset

/-! ## Items at their end -/

/-- A production that is new to a category is started for all that was predicted of it here. -/
theorem adds_pack (hF : Sound c v ids goal b.facts) {idx : Nat} {cat : ChartCat}
    {q : ChartProduction} (hcat : b.step.cats[idx]? = some cat) (hnew : q ∉ cat.productions) :
    b.Adds (b.pack idx cat q) (· = .produces ⟨b.index, idx⟩ q)
      (fun i => ∃ S g top, b.facts (.predicts S (.chart ⟨b.index, idx⟩) g top) ∧
        S.step = b.index ∧ i = { set := S, production := q, field := g }) := by
  have hidx := (Array.getElem?_eq_some_iff.1 hcat).1
  rw [pack, if_neg hnew]
  have hstep := b.adds_step _ b.counters fun _ => Step.says_pack hidx q
  have hfold := fun f => adds_foldl f
    (fun field i => ∃ set, b.step.findItemSet? (.chart ⟨b.index, idx⟩) field = some set ∧
      i = { set := ⟨b.index, set⟩, production := q, field })
    (List.range cat.fieldCount)
    { b with step.cats := b.step.cats.modify idx fun cat =>
        { cat with productions := cat.productions ++ [q] } }
  refine (hstep.trans (hfold _ fun b' hsame field _ => ?_)).congr (fun φ => by rw [or_false])
    fun i => ?_
  · have hindex : b'.index = b.index := hsame.index_eq
    have hfind : b'.step.findItemSet? (.chart ⟨b'.index, idx⟩) field =
        b.step.findItemSet? (.chart ⟨b.index, idx⟩) field := by
      rw [hsame.step, hindex]
      rfl
    rw [hfind]
    cases b.step.findItemSet? (.chart ⟨b.index, idx⟩) field with
    | none =>
      exact ⟨⟨rfl, rfl, rfl⟩, (b'.adds_counters _).congr (fun _ => Iff.rfl) (by simp)⟩
    | some set =>
      exact ⟨⟨rfl, rfl, rfl⟩, (b'.adds_push _).congr (fun _ => Iff.rfl) (by simp [hindex])⟩
  · simp only [false_or, List.mem_range]
    constructor
    · rintro ⟨field, -, set, hset, rfl⟩
      obtain ⟨top, hpredicts⟩ := predicts_of_findItemSet? hset
      exact ⟨_, field, top, hpredicts, rfl, rfl⟩
    · rintro ⟨S, g, top, hpredicts, hS, rfl⟩
      refine ⟨g, ?_, ?_⟩
      · -- a field that is predicted is one that the category has
        obtain ⟨⟨id, L, n, hchain, hn, hg⟩, -⟩ := hF.grounded _ hpredicts
        cases hchain with
        | chart hdone hchain =>
          obtain ⟨-, -, ⟨id', L', hchain', hn'⟩, -⟩ := hF.grounded _ hdone
          obtain ⟨rfl, -⟩ := hchain.unique hF.functional hchain'
          have hcat' : b.category? ⟨b.index, idx⟩ = some cat := by
            simp [category?_iff, index, hcat]
          obtain ⟨cat'', hcat'', -, -, -, rfl⟩ := closes_iff.1 hdone
          cases hcat'.symm.trans hcat''
          rw [hn, Option.getD_some] at hn'
          exact hn' ▸ hg
      · cases hset : b.step.findItemSet? (.chart ⟨b.index, idx⟩) g with
        | none => exact absurd hpredicts (not_predicts_of_findItemSet? hset hS)
        | some set =>
          obtain ⟨top', hpredicts'⟩ := predicts_of_findItemSet? hset
          obtain rfl := hF.predicts_once _ _ _ _ _ _ hpredicts hpredicts' hS
          exact ⟨set, rfl, rfl⟩

/-- A category that is completed lets all that waits for it go on. -/
theorem adds_addCategory (hF : Sound c v ids goal b.facts) (hc : b.concrete = c)
    {ref : ItemSetRef} {set : ItemSet} (hset : b.itemSet? ref = some set) (q : ChartProduction) :
    b.Adds (b.addCategory ref set q)
      (fun φ => φ = .closes ⟨b.index, b.step.cats.size⟩ ref set.cat set.field
          (b.fieldCount set.cat) ∨
        φ = .produces ⟨b.index, b.step.cats.size⟩ q ∨
        (set.top = true ∧ φ = .spans b.index ⟨b.index, b.step.cats.size⟩))
      (fun i => ∃ r w arg g, b.facts (.waits ref r) ∧ b.facts (.item r w) ∧
        c.constituent? w = some (.sub arg g) ∧
        i = w.resume arg ⟨b.index, b.step.cats.size⟩) := by
  rw [addCategory]
  have hstep := b.adds_step _
    { b.counters with syntheticCategories := b.counters.syntheticCategories + 1 }
    fun _ => Step.says_push_cat
      { id := ⟨b.step.nextId⟩, set := ref, cat := set.cat, field := set.field,
        fieldCount := b.fieldCount set.cat, productions := [q] } set.top
  refine (hstep.trans (adds_foldl
    (fun b' waiting => b'.combine waiting ⟨b.index, b.step.cats.size⟩)
    (fun r i => ∃ w arg g, b.facts (.item r w) ∧ c.constituent? w = some (.sub arg g) ∧
      i = w.resume arg ⟨b.index, b.step.cats.size⟩)
    set.waiting _ ?_)).congr (fun φ => by simp) fun i => ?_
  · intro b' hsame r hr
    obtain ⟨-, X, f, top, w, arg, -, hw, hx, -⟩ := hF.grounded _ (waits_iff.2 ⟨set, hset, hr⟩)
    have hw' : b'.facts (.item r w) := by
      rw [hsame.facts_eq]
      exact (hstep.facts _).2 (.inl hw)
    have hx' : b'.concrete.constituent? w = some (.sub arg f) := by
      rw [hsame.concrete, hstep.concrete, hc]
      exact hx
    obtain ⟨hsame', hadds⟩ := adds_combine hw' hx' ⟨b.index, b.step.cats.size⟩
    refine ⟨hsame', hadds.congr (fun _ => Iff.rfl) fun i => ?_⟩
    constructor
    · rintro rfl
      exact ⟨w, arg, f, hw, hx, rfl⟩
    · rintro ⟨w', arg', f', hwe, hxe, rfl⟩
      obtain rfl := hF.functional.item _ _ _ hw hwe
      cases hx.symm.trans hxe
      rfl
  · simp only [false_or]
    constructor
    · rintro ⟨r, hr, w, arg, g, hw⟩
      exact ⟨r, w, arg, g, waits_iff.2 ⟨set, hset, hr⟩, hw⟩
    · rintro ⟨r, w, arg, g, hr, hw⟩
      obtain ⟨set', hset', hr⟩ := waits_iff.1 hr
      cases hset.symm.trans hset'
      exact ⟨r, hr, w, arg, g, hw⟩

/-- An item at its end completes its category, or adds to it. -/
theorem exists_effect_complete (hF : Sound c v ids goal b.facts) (hc : b.concrete = c)
    (hitem : Stands c v b.facts b.index item) (hended : c.Ended item) :
    ∃ new items, Effect c b.index b.facts item new items ∧ b.Adds (b.complete item) new items := by
  rw [complete]
  have hcount := b.adds_counters { b.counters with completions := b.counters.completions + 1 }
  dsimp only
  cases hfind : b.step.findCategory? item.set with
  | some idx =>
    dsimp only
    obtain ⟨X, f, n, hdone⟩ := closes_of_findCategory? hfind
    have hidx := (Array.findIdx?_eq_some_iff_getElem.1 hfind).1
    rw [Array.getElem?_eq_getElem hidx]
    dsimp only
    by_cases hold : item.production ∈ b.step.cats[idx].productions
    · have hproduces : b.facts (.produces ⟨b.index, idx⟩ item.production) :=
        produces_iff.2 ⟨_, category?_iff.2 ⟨b.step, by simp [index],
          Array.getElem?_eq_getElem hidx⟩, hold⟩
      refine ⟨_, _, .found hended hdone rfl hproduces, ?_⟩
      rw [pack, if_pos hold]
      exact hcount
    · refine ⟨_, _, .pack hended hdone rfl, ?_⟩
      have hpack := adds_pack (b := { b with
        counters.completions := b.counters.completions + 1 }) hF
        (Array.getElem?_eq_getElem hidx) hold
      exact (hcount.trans hpack).congr (fun φ => by rw [false_or]; rfl)
        fun i => by rw [false_or]; rfl
  | none =>
    dsimp only
    obtain ⟨hpredicts, -, -, -, -, -⟩ := hitem
    obtain ⟨set, hset, rfl, hfield, rfl⟩ := predicts_iff.1 hpredicts
    have hset' : ({ b with counters.completions := b.counters.completions + 1 } :
        Building).itemSet? item.set = some set := hset
    rw [hset']
    refine ⟨_, _, .close hended (fun C X f n hC => not_closes_of_findCategory? hfind hC)
      (hfield ▸ hpredicts) rfl (fun C' S X f n h => before_size h)
      (fun id L hchain => (fieldCount_eq hF hc hchain).symm), ?_⟩
    have hadd := adds_addCategory (b := { b with
      counters.completions := b.counters.completions + 1 }) hF hc hset' item.production
    exact (hcount.trans hadd).congr (fun φ => by rw [false_or]; rfl) fun i => by rw [false_or]; rfl

/-! ## Items that come to words -/

/-- An item waits for the token that comes next in its form. If it has not begun a form, then there
is only one. -/
theorem exists_effect_waitFor {x : Constituent} (hx : c.constituent? item = some x) {ts : List Sym}
    {t : Sym} (hform : x.formAt? item.form = some ts) (ht : ts[item.word]? = some t)
    (honly : item.word = 0 → x.forms = [ts]) :
    ∃ new items, Effect c b.index b.facts item new items ∧
      b.Adds (b.waitFor t item) new items := by
  have hforms : x.forms ≠ [] := List.ne_nil_of_mem (Constituent.mem_forms_iff.2 ⟨_, hform⟩)
  refine ⟨_, _, .read hx hforms
    (fun t' i idx => t' = t ∧ i = item ∧ idx = b.step.items.size) ?_ ?_ ?_, ?_⟩
  · rintro t' i idx ⟨rfl, rfl, rfl⟩
    exact ⟨i.form, ts, rfl, .inr rfl, hform, ht⟩
  · intro hzero t' ts' hmem
    rw [honly hzero] at hmem
    obtain rfl := List.mem_singleton.1 hmem
    rw [hzero] at ht
    cases ht
    exact ⟨item.form, _, hform, rfl, rfl, rfl⟩
  · intro _ ts' t' hform' ht'
    cases hform.symm.trans hform'
    cases ht.symm.trans ht'
    exact ⟨_, rfl, rfl, rfl⟩
  · refine (b.adds_waitFor t item).congr (fun φ => ?_) fun i => ?_
    · simp only [and_assoc, exists_and_left, exists_eq_left]
    · simp only [false_iff, not_and]
      intro _ hzero hmem
      rw [honly hzero, List.mem_singleton] at hmem
      simp [← hmem] at ht

/-- Before or within one of several forms, an item waits for words. -/
theorem exists_effect_awaitVariants {w : Variants}
    (hx : c.constituent? item = some (.variants w)) :
    ∃ new items, Effect c b.index b.facts item new items ∧
      b.Adds (b.awaitVariants w item) new items := by
  have hforms : (Constituent.variants w).forms ≠ [] := by
    simp [Constituent.formsBy, Variants.forms]
  rw [awaitVariants]
  by_cases hword : 0 < item.word
  · rw [if_pos hword]
    cases htoken : (w.form? item.form).bind (·[item.word]?) with
    | some t =>
      obtain ⟨ts, hts, ht⟩ := Option.bind_eq_some_iff.1 htoken
      exact exists_effect_waitFor hx hts ht fun hzero => by omega
    | none =>
      refine ⟨_, _, .read hx hforms (fun _ _ _ => False) (fun _ _ _ h => h.elim) ?_ ?_, ?_⟩
      · intro hzero
        omega
      · intro _ ts' t' hform ht'
        have hsome : (w.form? item.form).bind (·[item.word]?) = some t' :=
          Option.bind_eq_some_iff.2 ⟨ts', hform, ht'⟩
        cases htoken.symm.trans hsome
      · exact (b.adds_counters b.counters).congr (by simp) (by simp [Nat.ne_of_gt hword])
  · rw [if_neg hword]
    have hzero : item.word = 0 := Nat.eq_zero_of_not_pos hword
    obtain ⟨waits, hfrom, hall, hadds⟩ := exists_adds_forms item w.distinctForms b
    refine ⟨_, _, .read hx hforms waits ?_ ?_ ?_, hadds.congr (fun φ => Iff.rfl) fun i => ?_⟩
    · intro t i idx h
      obtain ⟨ts, form, hmem, rfl⟩ := hfrom t i idx h
      exact ⟨form, t :: ts, rfl, .inl hzero, Variants.form?_of_mem_distinctForms hmem,
        by simp [hzero]⟩
    · intro _ t ts hform
      obtain ⟨form, hmem⟩ := Variants.exists_mem_distinctForms hform
      obtain ⟨idx, hwaits⟩ := hall t ts form hmem
      exact ⟨form, idx, Variants.form?_of_mem_distinctForms hmem, hwaits⟩
    · intro hpos
      omega
    · refine and_congr_right fun _ => ?_
      constructor
      · rintro ⟨form, hmem⟩
        exact ⟨hzero, List.mem_of_getElem? (Variants.form?_of_mem_distinctForms hmem)⟩
      · rintro ⟨-, hmem⟩
        exact Variants.exists_mem_distinctForms hmem

/-- An item that comes to tokens waits for the next one, or passes over none. -/
theorem exists_effect_tokens (hitem : Stands c v b.facts b.index item) {ts : List Sym}
    (hx : c.constituent? item = some (.tokens ts)) :
    ∃ new items, Effect c b.index b.facts item new items ∧
      b.Adds (match ts[item.word]? with
        | some token => b.waitFor token item
        | none => b.push item.advanced) new items := by
  cases ht : ts[item.word]? with
  | some t => exact exists_effect_waitFor hx rfl ht fun _ => rfl
  | none =>
    obtain ⟨hzero, rfl⟩ := hitem.of_no_token hx ht
    have hforms : (Constituent.tokens []).forms ≠ [] := by simp [Constituent.formsBy]
    refine ⟨_, _, .read hx hforms (fun _ _ _ => False) (fun _ _ _ h => h.elim) ?_ ?_, ?_⟩
    · intro _ t' ts' hmem
      cases List.mem_singleton.1 hmem
    · intro hpos
      omega
    · exact (b.adds_push item.advanced).congr (by simp) (by simp [hzero, Constituent.formsBy])

/-! ## All items -/

/-- **Processing an item has one of the effects**, and never runs into a fault. -/
theorem exists_effect (hwf : c.WellFormed) (hF : Sound c v ids goal b.facts)
    (hc : b.concrete = c) (hitem : Stands c v b.facts b.index item) :
    ∃ new items, Effect c b.index b.facts item new items ∧ b.Adds (b.process item) new items := by
  subst hc
  let b₁ : Building := { b with counters.items := b.counters.items + 1 }
  have hcount : b.Adds b₁ (fun _ => False) (fun _ => False) := b.adds_counters _
  have hF₁ : Sound b.concrete v ids goal b₁.facts := hF
  have hitem₁ : Stands b.concrete v b₁.facts b₁.index item := hitem
  -- counting aside, it is enough to look at what the item needs
  suffices h : ∃ new items, Effect b.concrete b₁.index b₁.facts item new items ∧
      b₁.Adds (b.process item) new items by
    obtain ⟨new, items, heffect, hadds⟩ := h
    exact ⟨new, items, heffect, (hcount.trans hadds).congr (fun φ => by rw [false_or])
      fun i => by rw [false_or]⟩
  obtain ⟨body, hbody⟩ := hitem.body
  rcases Concrete.constituent?_or_ended hbody with ⟨x, hx⟩ | hended
  · have hneed := Concrete.need_of_constituent? hx
    cases x with
    | sub arg f =>
      obtain ⟨X, id, L, n, harg, -⟩ := hF.argument hwf hitem hx
      obtain ⟨new, items, heffect, hadds⟩ := exists_effect_awaitCategory hF₁ rfl hx harg
      refine ⟨new, items, heffect, ?_⟩
      simp only [process, hneed, Item.Need.ofConstituent, predict, harg]
      exact hadds
    | lit arg f =>
      refine ⟨_, _, .stall hx rfl (fun _ _ h => by cases h), ?_⟩
      simp only [process, hneed, Item.Need.ofConstituent]
      exact b₁.adds_counters _
    | var arg index =>
      refine ⟨_, _, .stall hx rfl (fun _ _ h => by cases h), ?_⟩
      simp only [process, hneed, Item.Need.ofConstituent]
      exact b₁.adds_counters _
    | tokens ts =>
      obtain ⟨new, items, heffect, hadds⟩ := exists_effect_tokens hitem₁ hx
      refine ⟨new, items, heffect, ?_⟩
      simp only [process, hneed, Item.Need.ofConstituent]
      exact hadds
    | variants w =>
      obtain ⟨new, items, heffect, hadds⟩ := exists_effect_awaitVariants (b := b₁) hx
      refine ⟨new, items, heffect, ?_⟩
      simp only [process, hneed, Item.Need.ofConstituent]
      exact hadds
  · obtain ⟨new, items, heffect, hadds⟩ := exists_effect_complete hF₁ rfl hitem₁ hended
    refine ⟨new, items, heffect, ?_⟩
    simp only [process, Concrete.need_of_ended hended]
    exact hadds

end Building

end Polyglot
