import Polyglot.Proofs.Chart.Soundness

/-!
# What processing an item adds

There are only a few things that can happen to an item, and each adds a few facts and some items to
the agenda. `Effect` lists them, for a chart that knows `F`; what an effect does to soundness, and
later to completeness, is then a matter of facts alone.

- `Effect`: one constructor for each thing that can happen.
- `Effect.sound`: a sound chart stays sound, and the new items stand where they should.
-/

namespace Polyglot

/-- What processing an item at position `k` adds to the facts `F` and to the agenda. -/
inductive Effect (c : Concrete) (k : Nat) (F : Fact → Prop) (item : Item) :
    (Fact → Prop) → (Item → Prop) → Prop where
  /-- What comes next is never provided. -/
  | stall {x : Constituent} (hx : c.constituent? item = some x) (hforms : x.forms = [])
      (hsub : ∀ arg f, x ≠ .sub arg f) : Effect c k F item (fun _ => False) (fun _ => False)
  /-- Words come next. The item waits for the next word of every form that is still possible, and an
  empty form is passed over. -/
  | read {x : Constituent} (hx : c.constituent? item = some x) (hforms : x.forms ≠ [])
      (waits : Sym → Item → Nat → Prop)
      (hnext : ∀ t i idx, waits t i idx → ∃ form ts, i = { item with form } ∧
        (item.word = 0 ∨ form = item.form) ∧ x.formAt? form = some ts ∧ ts[item.word]? = some t)
      (hfirst : item.word = 0 → ∀ t ts, t :: ts ∈ x.forms → ∃ form idx,
        x.formAt? form = some (t :: ts) ∧ waits t { item with form } idx)
      (hlater : 0 < item.word → ∀ ts t, x.formAt? item.form = some ts → ts[item.word]? = some t →
        ∃ idx, waits t item idx) :
      Effect c k F item
        (fun φ => ∃ t i idx, waits t i idx ∧ (φ = .item ⟨k, idx⟩ i ∨ φ = .awaits k t idx))
        (fun i => i = item.advanced ∧ item.word = 0 ∧ [] ∈ x.forms)
  /-- A field of a category comes next that was predicted in this step before. The item waits with
  the others, and goes on at once if the category is complete. -/
  | join {arg f : Nat} {X : CatRef} {S : ItemSetRef} {r : ItemRef} {top : Bool}
      (hx : c.constituent? item = some (.sub arg f)) (harg : item.production.args[arg]? = some X)
      (hset : F (.predicts S X f top)) (hS : S.step = k) (hr : r.step = k) :
      Effect c k F item (fun φ => φ = .item r item ∨ φ = .waits S r)
        (fun i => ∃ C X f n, F (.closes C S X f n) ∧ C.step = k ∧ i = item.resume arg C)
  /-- A field of a category comes next that was not predicted yet. Its productions are started. -/
  | predict {arg f : Nat} {X : CatRef} {S : ItemSetRef} {r : ItemRef}
      (hx : c.constituent? item = some (.sub arg f)) (harg : item.production.args[arg]? = some X)
      (hnone : ∀ S top, S.step = k → ¬ F (.predicts S X f top)) (hS : S.step = k) (hr : r.step = k)
      (hfree : ∀ X f top, ¬ F (.predicts S X f top)) :
      Effect c k F item
        (fun φ => φ = .item r item ∨ φ = .predicts S X f false ∨ φ = .waits S r)
        (fun i => ∃ q, Offers c F X q ∧ i = { set := S, production := q, field := f })
  /-- The item is at its end, and its production was found before. -/
  | found {C : ChartCatId} {X : CatRef} {f n : Nat} (hended : c.Ended item)
      (hdone : F (.closes C item.set X f n)) (hC : C.step = k)
      (hproduces : F (.produces C item.production)) :
      Effect c k F item (fun _ => False) (fun _ => False)
  /-- The item is at its end, and its production is new to the category that it completes. It is
  started for the fields of this category that were predicted in this step. -/
  | pack {C : ChartCatId} {X : CatRef} {f n : Nat} (hended : c.Ended item)
      (hdone : F (.closes C item.set X f n)) (hC : C.step = k) :
      Effect c k F item (fun φ => φ = .produces C item.production)
        (fun i => ∃ S g top, F (.predicts S (.chart C) g top) ∧ S.step = k ∧
          i = { set := S, production := item.production, field := g })
  /-- The item is at its end, and is the first one to complete its category. All that waits for the
  category goes on. -/
  | close {C : ChartCatId} {X : CatRef} {f n : Nat} {top : Bool} (hended : c.Ended item)
      (hnone : ∀ C X f n, C.step = k → ¬ F (.closes C item.set X f n))
      (hset : F (.predicts item.set X f top)) (hC : C.step = k)
      (hfree : ∀ C' S X f n, F (.closes C' S X f n) → C'.Before C)
      (hn : ∀ id L, Chain F X id L → (c.fieldCount? id).getD 0 = n) :
      Effect c k F item
        (fun φ => φ = .closes C item.set X f n ∨ φ = .produces C item.production ∨
          (top = true ∧ φ = .spans k C))
        (fun i => ∃ r w arg g, F (.waits item.set r) ∧ F (.item r w) ∧
          c.constituent? w = some (.sub arg g) ∧ i = w.resume arg C)

namespace Sound

variable {c : Concrete} {v : Nat → Sym} {ids : List InstanceId} {goal k : Nat}
  {F F' : Fact → Prop} {item : Item} {new : Fact → Prop} {items : Item → Prop}

/-- A category that an item asks for exists, and has the field that is asked for. -/
theorem argument (hwf : c.WellFormed) (hF : Sound c v ids goal F) (hitem : Stands c v F k item)
    {arg f : Nat} (hx : c.constituent? item = some (.sub arg f)) :
    ∃ X id L n, item.production.args[arg]? = some X ∧ Chain F X id L ∧
      c.fieldCount? id = some n ∧ f < n := by
  obtain ⟨hset, hoffers, hbody, htraced, -, -⟩ := hitem
  obtain ⟨⟨id₀, L₀, n₀, hchain₀, hn₀, hf₀⟩, -⟩ := hF.grounded _ hset
  obtain ⟨body, hbody', hsubs⟩ := hF.body_of_offers hwf hchain₀ hn₀ hf₀ hoffers
  cases hbody.symm.trans hbody'
  simp only [Concrete.constituent?, htraced.head_eq, hbody, Option.bind_some] at hx
  obtain ⟨Y, id, L, n, hY, hchain, hn, hf⟩ := hsubs arg f (List.mem_of_getElem? hx)
  obtain ⟨X, L', hX, hchain', -⟩ := htraced.chain hY hchain
  exact ⟨X, id, L', n, hX, hchain', hn, hf⟩

/-- The arguments of an item's production exist. -/
theorem chain_of_mem_args (hF : Sound c v ids goal F) (hitem : Stands c v F k item) {X : CatRef}
    (hX : X ∈ item.production.args) : ∃ id L, Chain F X id L := by
  obtain ⟨hset, hoffers, -, htraced, -, -⟩ := hitem
  obtain ⟨⟨id₀, L₀, n₀, hchain₀, -, -⟩, -⟩ := hF.grounded _ hset
  obtain ⟨p, -, hmeans⟩ := hF.means hchain₀ hoffers
  obtain ⟨arg, harg, rfl⟩ := List.mem_iff_getElem.1 hX
  have hlt := htraced.length_args ▸ harg
  obtain ⟨id, L, hchain⟩ := hmeans.chain (List.getElem_mem hlt)
  obtain ⟨X, L', hX, hchain', -⟩ := htraced.chain (List.getElem?_eq_getElem hlt) hchain
  rw [List.getElem?_eq_getElem harg, Option.some.injEq] at hX
  exact ⟨id, L', hX ▸ hchain'⟩

/-- More facts leave a chart sound if they are grounded and neither predict nor complete anything
twice. -/
theorem extend (hF : Sound c v ids goal F) (hF' : ∀ φ, F' φ ↔ F φ ∨ new φ)
    (hfun : Functional F') (hgrounded : ∀ φ, new φ → Grounded c v ids goal F' φ)
    (hpredicts : ∀ S X f top, new (.predicts S X f top) → ∀ S' top',
      F' (.predicts S' X f top') → S'.step = S.step → S' = S)
    (hcloses : ∀ C S X f n, new (.closes C S X f n) → ∀ C' X' f' n',
      F' (.closes C' S X' f' n') → C'.step = C.step → C' = C)
    (hspans : ∀ C S X f n, F' (.closes C S X f n) → F' (.predicts S X f true) →
      new (.closes C S X f n) ∨ new (.predicts S X f true) → F' (.spans C.step C)) :
    Sound c v ids goal F' where
  functional := hfun
  grounded φ hφ := by
    rcases (hF' φ).1 hφ with hold | hnew
    · exact (hF.grounded φ hold).mono fun φ h => (hF' φ).2 (.inl h)
    · exact hgrounded φ hnew
  predicts_once S S' X f top top' h h' hstep := by
    rcases (hF' _).1 h with hold | hnew
    · rcases (hF' _).1 h' with hold' | hnew'
      · exact hF.predicts_once S S' X f top top' hold hold' hstep
      · exact hpredicts _ _ _ _ hnew' _ _ h hstep
    · exact (hpredicts _ _ _ _ hnew _ _ h' hstep.symm).symm
  closes_once C C' S X f n X' f' n' h h' hstep := by
    rcases (hF' _).1 h with hold | hnew
    · rcases (hF' _).1 h' with hold' | hnew'
      · exact hF.closes_once C C' S X f n X' f' n' hold hold' hstep
      · exact hcloses _ _ _ _ _ hnew' _ _ _ _ h hstep
    · exact (hcloses _ _ _ _ _ hnew _ _ _ _ h' hstep.symm).symm
  spans C S X f n h h' := by
    rcases (hF' _).1 h with hold | hnew
    · rcases (hF' _).1 h' with hold' | hnew'
      · exact (hF' _).2 (.inl (hF.spans C S X f n hold hold'))
      · exact hspans _ _ _ _ _ h h' (.inr hnew')
    · exact hspans _ _ _ _ _ h h' (.inl hnew)

/-- Starting a category for one of its fields keeps a chart sound. -/
theorem predict (hwf : c.WellFormed) (hF : Sound c v ids goal F) (hbound : ∀ φ, F φ → φ.step ≤ k)
    (hitem : Stands c v F k item) {arg f : Nat} {X : CatRef} {S : ItemSetRef} {r : ItemRef}
    (hx : c.constituent? item = some (.sub arg f)) (harg : item.production.args[arg]? = some X)
    (hnone : ∀ S top, S.step = k → ¬ F (.predicts S X f top)) (hS : S.step = k) (hr : r.step = k)
    (hF' : ∀ φ, F' φ ↔ F φ ∨ φ = .item r item ∨ φ = .predicts S X f false ∨ φ = .waits S r)
    (hfun : Functional F') : Sound c v ids goal F' := by
  obtain ⟨X', id, L, n, harg', hchain, hn, hf⟩ := hF.argument hwf hitem hx
  cases harg.symm.trans harg'
  have hmono : ∀ φ, F φ → F' φ := fun φ h => (hF' φ).2 (.inl h)
  refine hF.extend hF' hfun ?_ ?_ nofun ?_
  · rintro φ (rfl | rfl | rfl)
    · show Stands c v F' r.step item
      exact hr ▸ hitem.mono hmono
    · refine ⟨⟨id, L, n, hchain.mono hmono, hn, hf⟩, ?_, nofun⟩
      rintro done rfl
      cases hchain with
      | chart hdone _ => exact hS ▸ hbound _ hdone
    · exact ⟨hr.trans hS.symm, X, f, false, item, arg, (hF' _).2 (.inr (.inr (.inl rfl))),
        (hF' _).2 (.inr (.inl rfl)), hx, harg⟩
  · rintro S₁ X₁ f₁ top₁ (hφ | hφ | hφ) S₂ top₂ h hstep
    · cases hφ
    · cases hφ
      -- The only other set for this category and field is the one that is added.
      rcases (hF' _).1 h with h | h | h | h
      · exact absurd h (hnone _ _ (hstep.trans hS))
      · cases h
      · cases h
        rfl
      · cases h
    · cases hφ
  · rintro C S₁ X₁ f₁ n₁ - - (h | h)
    · rcases h with h | h | h <;> cases h
    · rcases h with h | h | h <;> cases h

/-- Predicting a goal before the input keeps a chart sound. -/
theorem predictGoal (hF : Sound c v ids goal F) {id : InstanceId} (hid : id ∈ ids) {n : Nat}
    (hn : c.fieldCount? id = some n) (hgoal : goal < n) {S : ItemSetRef} (hS : S.step = 0)
    (hnone : ∀ S' top, S'.step = S.step → ¬ F (.predicts S' (.grammar id) goal top))
    (hfree : ∀ X f top, ¬ F (.predicts S X f top))
    (hF' : ∀ φ, F' φ ↔ F φ ∨ φ = .predicts S (.grammar id) goal true) (hfun : Functional F') :
    Sound c v ids goal F' := by
  refine hF.extend hF' hfun ?_ ?_ (by simp) ?_
  · rintro φ rfl
    exact ⟨⟨id, [], n, .grammar id, hn, hgoal⟩, by simp, fun _ => ⟨hS, rfl, id, hid, rfl⟩⟩
  · rintro S₁ X₁ f₁ top₁ hφ S₂ top₂ h₂ hstep
    cases hφ
    rcases (hF' _).1 h₂ with h₂ | h₂
    · exact absurd h₂ (hnone _ _ hstep)
    · cases h₂
      rfl
  · rintro C S₁ X₁ f₁ n₁ hdone - (h₁ | h₁)
    · cases h₁
    · cases h₁
      -- Nothing completes a set that is only predicted now.
      rcases (hF' _).1 hdone with hdone | hdone
      · obtain ⟨-, ⟨top, hset⟩, -⟩ := hF.grounded _ hdone
        exact absurd hset (hfree _ _ _)
      · cases hdone

/-- Completing a category that nothing completed in this step keeps a chart sound. -/
theorem close (hF : Sound c v ids goal F) (hitem : Stands c v F k item) {C : ChartCatId}
    {X : CatRef} {f n : Nat} {top : Bool} (hended : c.Ended item)
    (hnone : ∀ C X f n, C.step = k → ¬ F (.closes C item.set X f n))
    (hset : F (.predicts item.set X f top)) (hC : C.step = k)
    (hfree : ∀ C' S X f n, F (.closes C' S X f n) → C'.Before C)
    (hn : ∀ id L, Chain F X id L → (c.fieldCount? id).getD 0 = n)
    (hF' : ∀ φ, F' φ ↔ F φ ∨ φ = .closes C item.set X f n ∨ φ = .produces C item.production ∨
      (top = true ∧ φ = .spans k C)) (hfun : Functional F') : Sound c v ids goal F' := by
  obtain ⟨q₀, body, hoffers, hbody, htraced⟩ := hitem.completes hended hF.functional hset
  have hmono : ∀ φ, F φ → F' φ := fun φ h => (hF' φ).2 (.inl h)
  have hdone : F' (.closes C item.set X f n) := (hF' _).2 (.inr (.inl rfl))
  have hproduces : F' (.produces C item.production) := (hF' _).2 (.inr (.inr (.inl rfl)))
  have hset_le : item.set.step ≤ C.step := hC ▸ hitem.set_le
  refine hF.extend hF' hfun ?_ ?_ ?_ ?_
  · rintro φ (rfl | rfl | ⟨rfl, rfl⟩)
    · obtain ⟨⟨id, L, m, hchain, -, -⟩, -⟩ := hF.grounded _ hset
      refine ⟨hset_le, ⟨top, hmono _ hset⟩, ⟨id, L, hchain.mono hmono, hn id L hchain⟩,
        item.production, hproduces, fun done hmem => ?_⟩
      -- What the production is made of was complete before, and so stands before the new category.
      obtain ⟨id', L', hchain'⟩ := hF.chain_of_mem_args hitem hmem
      cases hchain' with
      | chart hdone' _ => exact hfree _ _ _ _ _ hdone'
    · exact ⟨item.set, X, f, n, q₀, body, hdone, hoffers.mono hmono, hbody,
        hC ▸ htraced.mono hmono⟩
    · exact ⟨hC, item.set, X, f, n, hdone, hmono _ hset⟩
  · rintro S₁ X₁ f₁ top₁ (h | h | ⟨-, h⟩) <;> cases h
  · rintro C₁ S₁ X₁ f₁ n₁ (h | h | ⟨-, h⟩) C₂ X₂ f₂ n₂ h₂ hstep
    · cases h
      rcases (hF' _).1 h₂ with h₂ | h₂ | h₂ | ⟨-, h₂⟩
      · exact absurd h₂ (hnone _ _ _ _ (hstep.trans hC))
      · cases h₂
        rfl
      · cases h₂
      · cases h₂
    · cases h
    · cases h
  · rintro C₁ S₁ X₁ f₁ n₁ - hset₁ (h | h)
    · rcases h with h | h | ⟨-, h⟩
      · cases h
        obtain ⟨-, -, rfl⟩ := hfun.predicts _ _ _ _ _ _ _ hset₁ (hmono _ hset)
        exact (hF' _).2 (.inr (.inr (.inr ⟨rfl, by rw [hC]⟩)))
      · cases h
      · cases h
    · rcases h with h | h | ⟨-, h⟩ <;> cases h

/-- What waits for a category goes on when the category is complete. -/
theorem stands_resume (hF : Sound c v ids goal F) (hmono : ∀ φ, F φ → F' φ) {C : ChartCatId}
    {S : ItemSetRef} {X : CatRef} {f n : Nat} {top : Bool} (hset : F (.predicts S X f top))
    (hdone : F' (.closes C S X f n)) (hle : S.step ≤ C.step) {r : ItemRef} {w : Item} {arg g : Nat}
    (hwaits : F (.waits S r)) (hw : F (.item r w)) (hx : c.constituent? w = some (.sub arg g)) :
    Stands c v F' C.step (w.resume arg C) := by
  obtain ⟨hr, X', f', top', w', arg', hset', hw', hx', harg'⟩ := hF.grounded _ hwaits
  obtain rfl := hF.functional.item _ _ _ hw hw'
  cases hx.symm.trans hx'
  obtain ⟨rfl, rfl, -⟩ := hF.functional.predicts _ _ _ _ _ _ _ hset hset'
  have hstands : Stands c v F S.step w := hr ▸ hF.grounded _ hw
  exact (hstands.mono hmono).resume hx harg' hdone hle

/-- **Processing an item keeps a chart sound**, and the items that it adds stand where they
should. -/
theorem effect (hwf : c.WellFormed) (hF : Sound c v ids goal F) (hbound : ∀ φ, F φ → φ.step ≤ k)
    (hitem : Stands c v F k item) (heffect : Effect c k F item new items)
    (hF' : ∀ φ, F' φ ↔ F φ ∨ new φ) (hfun : Functional F') :
    Sound c v ids goal F' ∧ ∀ i, items i → Stands c v F' k i := by
  have hmono : ∀ φ, F φ → F' φ := fun φ h => (hF' φ).2 (.inl h)
  have hnew : ∀ φ, new φ → F' φ := fun φ h => (hF' φ).2 (.inr h)
  cases heffect with
  | stall => exact ⟨hF.extend hF' hfun nofun nofun nofun (fun _ _ _ _ _ _ _ => nofun), nofun⟩
  | found => exact ⟨hF.extend hF' hfun nofun nofun nofun (fun _ _ _ _ _ _ _ => nofun), nofun⟩
  | @read x hx hforms waits hnext hfirst hlater =>
    refine ⟨hF.extend hF' hfun ?_ nofun nofun (fun _ _ _ _ _ _ _ => nofun), ?_⟩
    · rintro φ ⟨t, i, idx, hwaits, rfl | rfl⟩
      · obtain ⟨form, ts, rfl, hform, hts, ht⟩ := hnext t i idx hwaits
        obtain ⟨hset, hoffers, hbody, htraced, hposition, hword⟩ := hitem.mono hmono
        refine ⟨hset, hoffers, hbody, htraced, hposition, ?_⟩
        rcases hform with hzero | rfl
        · exact .inl hzero
        · exact hword
      · obtain ⟨form, ts, rfl, hform, hts, ht⟩ := hnext t i idx hwaits
        exact ⟨_, x, ts, hnew _ ⟨t, _, idx, hwaits, .inl rfl⟩, hx, hts, ht⟩
    · rintro i ⟨rfl, hword, hform⟩
      exact (hitem.mono hmono).skip hx hword hform
  | @join arg f X S r top hx harg hset hS hr =>
    refine ⟨hF.extend hF' hfun ?_ nofun nofun (fun _ _ _ _ _ _ _ => nofun), ?_⟩
    · rintro φ (rfl | rfl)
      · show Stands c v F' r.step item
        exact hr ▸ hitem.mono hmono
      · exact ⟨hr.trans hS.symm, X, f, top, item, arg, hmono _ hset, hnew _ (.inl rfl), hx, harg⟩
    · rintro i ⟨C, X', f', n, hdone, hC, rfl⟩
      obtain ⟨-, ⟨top', hset'⟩, -⟩ := hF.grounded _ hdone
      obtain ⟨rfl, rfl, -⟩ := hF.functional.predicts _ _ _ _ _ _ _ hset hset'
      subst hS
      exact hC ▸ (hitem.mono hmono).resume hx harg (hmono _ hdone) (Nat.le_of_eq hC.symm)
  | @predict arg f X S r hx harg hnone hS hr hfree =>
    have hsound := hF.predict hwf hbound hitem hx harg hnone hS hr hF' hfun
    refine ⟨hsound, ?_⟩
    rintro i ⟨q, hq, rfl⟩
    exact hS ▸ hsound.stands_start hwf (hnew _ (.inr (.inl rfl))) (hq.mono hmono)
  | @pack C X f n hended hdone hC =>
    have hsound : Sound c v ids goal F' := by
      refine hF.extend hF' hfun ?_ nofun nofun (fun _ _ _ _ _ _ _ => nofun)
      rintro φ rfl
      obtain ⟨-, ⟨top, hset⟩, -⟩ := hF.grounded _ hdone
      obtain ⟨q₀, body, hoffers, hbody, htraced⟩ := hitem.completes hended hF.functional hset
      exact ⟨item.set, X, f, n, q₀, body, hmono _ hdone, hoffers.mono hmono, hbody,
        hC ▸ htraced.mono hmono⟩
    refine ⟨hsound, ?_⟩
    rintro i ⟨S, g, top, hset, hS, rfl⟩
    have hoffers : Offers c F' (.chart C) item.production := hnew _ rfl
    exact hS ▸ hsound.stands_start hwf (hmono _ hset) hoffers
  | @close C X f n top hended hnone hset hC hfree hn =>
    refine ⟨hF.close hitem hended hnone hset hC hfree hn hF' hfun, ?_⟩
    rintro i ⟨r, w, arg, g, hwaits, hw, hx, rfl⟩
    have hdone : F' (.closes C item.set X f n) := hnew _ (.inl rfl)
    exact hC ▸ hF.stands_resume hmono hset hdone (hC ▸ hitem.set_le) hwaits hw hx

end Sound

end Polyglot
