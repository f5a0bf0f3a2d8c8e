import Polyglot.Proofs.Chart.Effect

/-!
# Nothing that is due in a chart is left out

What a chart knows makes further items due: a production that is offered for a prediction is to be
started, an item that waits for a complete category is to go on, and so is an item that waits for
the token that was read. Every such item is on the agenda or has been processed; and what has been
processed has left its traces.

- `Due`: the items that are to be processed at a position.
- `Served`: the traces of an item that has been processed.
- `Effect.brings`: what goes with a fact that is new, for each kind of fact.
- `Effect.due`: what is due after an effect was due before or is put on the agenda.
- `Saturated.effect`: processing an item keeps track of all that is due. No other order of work is
  needed for this than that of the agenda: what a category offers to an item that came too early is
  due when the category gets it.
-/

namespace Polyglot

/-- An item is to be processed at a position. -/
inductive Due (c : Concrete) (v : Nat → Sym) (F : Fact → Prop) : Nat → Item → Prop where
  /-- A production that is offered for a prediction. -/
  | start {S : ItemSetRef} {X : CatRef} {f : Nat} {top : Bool} {q : ChartProduction}
      (hset : F (.predicts S X f top)) (hoffers : Offers c F X q) :
      Due c v F S.step { set := S, production := q, field := f }
  /-- An item that waits for a category that is complete. -/
  | resume {C : ChartCatId} {S : ItemSetRef} {X : CatRef} {f n arg g : Nat} {r : ItemRef} {w : Item}
      (hdone : F (.closes C S X f n)) (hwaits : F (.waits S r)) (hw : F (.item r w))
      (hx : c.constituent? w = some (.sub arg g)) : Due c v F C.step (w.resume arg C)
  /-- An item that waits for the token that is read next. -/
  | scan {k idx : Nat} {w : Item} {x : Constituent} {ts : List Sym}
      (hawaits : F (.awaits k (v k) idx)) (hw : F (.item ⟨k, idx⟩ w))
      (hx : c.constituent? w = some x) (hform : x.formAt? w.form = some ts) :
      Due c v F (k + 1) (w.moved ts.length)

/-- When a goal is predicted, only the productions of the goal become due. -/
theorem Due.of_predictGoal {c : Concrete} {v : Nat → Sym} {F F' : Fact → Prop} {k goal : Nat}
    {i : Item} {S : ItemSetRef} {id : InstanceId} (hdue : Due c v F' k i)
    (hF' : ∀ φ, F' φ ↔ F φ ∨ φ = .predicts S (.grammar id) goal true) :
    Due c v F k i ∨ (k = S.step ∧ ∃ q, Offers c F' (.grammar id) q ∧
      i = { set := S, production := q, field := goal }) := by
  have hold : ∀ φ, F' φ → (∀ S X f top, φ ≠ .predicts S X f top) → F φ := by
    intro φ hφ hne
    rcases (hF' φ).1 hφ with hφ | rfl
    · exact hφ
    · exact absurd rfl (hne _ _ _ _)
  cases hdue with
  | @start S₁ X f top q hset hoffers =>
    rcases (hF' _).1 hset with hset | hset
    · refine .inl (.start hset ?_)
      cases X with
      | grammar id => exact hoffers
      | chart C => exact hold _ hoffers (by simp)
    · cases hset
      exact .inr ⟨rfl, q, hoffers, rfl⟩
  | resume hdone hwaits hw hx =>
    exact .inl (.resume (hold _ hdone (by simp)) (hold _ hwaits (by simp))
      (hold _ hw (by simp)) hx)
  | scan hawaits hw hx hform =>
    exact .inl (.scan (hold _ hawaits (by simp)) (hold _ hw (by simp)) hx hform)

/-- The traces of an item that has been processed at a position; `todo` are the items that are to be
processed there or have been. -/
structure Served (c : Concrete) (F : Fact → Prop) (todo : Item → Prop) (k : Nat) (i : Item) :
    Prop where
  complete : c.Ended i → ∃ C X f n, F (.closes C i.set X f n) ∧ C.step = k ∧
    F (.produces C i.production)
  category : ∀ arg f, c.constituent? i = some (.sub arg f) → ∃ X S top r,
    i.production.args[arg]? = some X ∧ S.step = k ∧ F (.predicts S X f top) ∧ F (.waits S r) ∧
      F (.item r i)
  skip : ∀ x, c.constituent? i = some x → i.word = 0 → [] ∈ x.forms → todo i.advanced
  first : ∀ x t ts, c.constituent? i = some x → i.word = 0 → t :: ts ∈ x.forms → ∃ form idx,
    x.formAt? form = some (t :: ts) ∧ F (.awaits k t idx) ∧ F (.item ⟨k, idx⟩ { i with form })
  later : ∀ x ts t, c.constituent? i = some x → 0 < i.word → x.formAt? i.form = some ts →
    ts[i.word]? = some t → ∃ idx, F (.awaits k t idx) ∧ F (.item ⟨k, idx⟩ i)

/-- All that is due up to a position has been processed, or is on the agenda of that position; and
what has been processed is served. -/
structure Saturated (c : Concrete) (v : Nat → Sym) (F : Fact → Prop) (k : Nat)
    (agenda : Item → Prop) (done : Nat → Item → Prop) : Prop where
  due : ∀ k' i, k' ≤ k → Due c v F k' i → done k' i ∨ (k' = k ∧ agenda i)
  served : ∀ k' i, done k' i → Served c F (fun i => done k' i ∨ (k' = k ∧ agenda i)) k' i

variable {c : Concrete} {v : Nat → Sym} {ids : List InstanceId} {goal k : Nat}
  {F F' : Fact → Prop} {item : Item} {new : Fact → Prop} {items agenda agenda' rest : Item → Prop}
  {done : Nat → Item → Prop}

theorem Concrete.Ended.constituent?_eq_none {i : Item} (h : c.Ended i) :
    c.constituent? i = none := by
  obtain ⟨body, hbody, hlength⟩ := h
  simp [constituent?, hbody, List.getElem?_eq_none hlength]

theorem Served.mono {todo todo' : Item → Prop} {i : Item} (hF : ∀ φ, F φ → F' φ)
    (htodo : ∀ i, todo i → todo' i) (h : Served c F todo k i) : Served c F' todo' k i where
  complete hended := by
    obtain ⟨C, X, f, n, hdone, hC, hproduces⟩ := h.complete hended
    exact ⟨C, X, f, n, hF _ hdone, hC, hF _ hproduces⟩
  category arg f hx := by
    obtain ⟨X, S, top, r, harg, hS, hset, hwaits, hitem⟩ := h.category arg f hx
    exact ⟨X, S, top, r, harg, hS, hF _ hset, hF _ hwaits, hF _ hitem⟩
  skip x hx hword hform := htodo _ (h.skip x hx hword hform)
  first x t ts hx hword hform := by
    obtain ⟨form, idx, hts, hawaits, hitem⟩ := h.first x t ts hx hword hform
    exact ⟨form, idx, hts, hF _ hawaits, hF _ hitem⟩
  later x ts t hx hword hform ht := by
    obtain ⟨idx, hawaits, hitem⟩ := h.later x ts t hx hword hform ht
    exact ⟨idx, hF _ hawaits, hF _ hitem⟩

/-- What serves an item that comes to a constituent is up to the constituent. -/
theorem Served.of_constituent {todo : Item → Prop} {i : Item} {x : Constituent}
    (hx : c.constituent? i = some x)
    (hcategory : ∀ arg f, x = .sub arg f → ∃ X S top r, i.production.args[arg]? = some X ∧
      S.step = k ∧ F (.predicts S X f top) ∧ F (.waits S r) ∧ F (.item r i))
    (hskip : i.word = 0 → [] ∈ x.forms → todo i.advanced)
    (hfirst : ∀ t ts, i.word = 0 → t :: ts ∈ x.forms → ∃ form idx,
      x.formAt? form = some (t :: ts) ∧ F (.awaits k t idx) ∧ F (.item ⟨k, idx⟩ { i with form }))
    (hlater : ∀ ts t, 0 < i.word → x.formAt? i.form = some ts → ts[i.word]? = some t →
      ∃ idx, F (.awaits k t idx) ∧ F (.item ⟨k, idx⟩ i)) : Served c F todo k i where
  complete hended := nomatch hx.symm.trans hended.constituent?_eq_none
  category arg f hx' := hcategory arg f (Option.some.inj (hx.symm.trans hx'))
  skip _ hx' := Option.some.inj (hx.symm.trans hx') ▸ hskip
  first _ t ts hx' := Option.some.inj (hx.symm.trans hx') ▸ hfirst t ts
  later _ ts t hx' := Option.some.inj (hx.symm.trans hx') ▸ hlater ts t

/-- An item that asks for a category is served when it waits for it. -/
theorem Served.of_sub {todo : Item → Prop} {i : Item} {arg f : Nat}
    (hx : c.constituent? i = some (.sub arg f))
    (h : ∃ X S top r, i.production.args[arg]? = some X ∧ S.step = k ∧
      F (.predicts S X f top) ∧ F (.waits S r) ∧ F (.item r i)) : Served c F todo k i := by
  refine .of_constituent hx (fun arg' f' heq => ?_) nofun nofun nofun
  cases heq
  exact h

/-- An item at its end is served when its production is known. -/
theorem Served.of_ended {todo : Item → Prop} {i : Item} (hended : c.Ended i)
    (h : ∃ C X f n, F (.closes C i.set X f n) ∧ C.step = k ∧ F (.produces C i.production)) :
    Served c F todo k i := by
  have hnone := hended.constituent?_eq_none
  refine ⟨fun _ => h, fun arg f hx => ?_, fun x hx _ _ => ?_, fun x t ts hx _ _ => ?_,
    fun x ts t hx _ _ _ => ?_⟩
  all_goals exact nomatch hnone.symm.trans hx

theorem ChartCatId.Before.irrefl (C : ChartCatId) : ¬ C.Before C := by
  rintro (h | ⟨-, h⟩) <;> exact Nat.lt_irrefl _ h

/-! ## What is new after an effect -/

namespace Effect

/-- What goes with a fact that an effect adds, for each kind of fact. -/
def Brings (c : Concrete) (k : Nat) (F : Fact → Prop) (item : Item) (new : Fact → Prop)
    (items : Item → Prop) : Fact → Prop
  -- Only the item itself begins to wait, and it goes on with what is complete already.
  | .waits S r => S.step = k ∧ new (.item r item) ∧
      ∃ arg f, c.constituent? item = some (.sub arg f) ∧
        ∀ X f' top, F (.predicts S X f' top) → ∀ C X' g n, F (.closes C S X' g n) → C.step = k →
          items (item.resume arg C)
  -- All that waits goes on with a category that is completed.
  | .closes C S _ _ _ => C.step = k ∧ (∀ r, ¬ new (.waits S r)) ∧
      ∀ r w arg g, F (.waits S r) → F (.item r w) → c.constituent? w = some (.sub arg g) →
        items (w.resume arg C)
  -- All that is offered is started for a category that is predicted.
  | .predicts S X f _ => S.step = k ∧ (∀ C q, ¬ new (.produces C q)) ∧
      ∀ q, Offers c F X q → items { set := S, production := q, field := f }
  -- A production that is new to a category is started for all that was predicted of it.
  | .produces C q => C.step = k ∧ ∀ S g top, F (.predicts S (.chart C) g top) → S.step = k →
      items { set := S, production := q, field := g }
  | .awaits k' _ _ => k' = k
  | .item _ _ | .spans _ _ => True

/-- What is added by an effect brings all that goes with it. -/
theorem brings (hF : Sound c v ids goal F) (heffect : Effect c k F item new items) {φ : Fact}
    (h : new φ) : Brings c k F item new items φ := by
  cases heffect with
  | stall => cases h
  | found => cases h
  | read =>
    obtain ⟨t, i, idx, -, rfl | rfl⟩ := h
    · trivial
    · rfl
  | @join arg f X S r top hx harg hset hS hr =>
    rcases h with rfl | rfl
    · trivial
    · refine ⟨hS, .inl rfl, arg, f, hx, fun _ _ _ _ C X' g n hdone hC => ?_⟩
      exact ⟨C, X', g, n, hdone, hC, rfl⟩
  | @predict arg f X S r hx harg hnone hS hr hfree =>
    rcases h with rfl | rfl | rfl
    · trivial
    · exact ⟨hS, by simp, fun q hoffers => ⟨q, hoffers, rfl⟩⟩
    · exact ⟨hS, .inl rfl, arg, f, hx, fun X' f' top hset => absurd hset (hfree X' f' top)⟩
  | pack hended hdone hC =>
    cases h
    exact ⟨hC, fun S g top hset hS => ⟨S, g, top, hset, hS, rfl⟩⟩
  | @close C X f n top hended hnone hset' hC hfree hn =>
    rcases h with rfl | rfl | ⟨-, rfl⟩
    · refine ⟨hC, by simp, fun r w arg g hwaits hw hx => ?_⟩
      exact ⟨r, w, arg, g, hwaits, hw, hx, rfl⟩
    · refine ⟨hC, fun S g top hset _ => ?_⟩
      -- Nothing can have been predicted of a category that is only completed now.
      obtain ⟨⟨id, L, n, hchain, -, -⟩, -⟩ := hF.grounded _ hset
      cases hchain with
      | chart hdone _ => exact absurd (hfree _ _ _ _ _ hdone) (ChartCatId.Before.irrefl C)
    · trivial

/-! ## What an effect makes due -/

/-- What goes on at a category that was complete before was due before, unless it is the item that
begins to wait for it. -/
theorem due_resume (hF : Sound c v ids goal F) (heffect : Effect c k F item new items)
    (hF' : ∀ φ, F' φ ↔ F φ ∨ new φ) (hfun : Functional F') {C : ChartCatId} {S : ItemSetRef}
    {X : CatRef} {f n arg g : Nat} {r : ItemRef} {w : Item} (hdone : F' (.closes C S X f n))
    (hwaits : F' (.waits S r)) (hw : F' (.item r w))
    (hx : c.constituent? w = some (.sub arg g)) (hle : C.step ≤ k) :
    Due c v F C.step (w.resume arg C) ∨ (C.step = k ∧ items (w.resume arg C)) := by
  -- an item that waited before was stored before
  have hold : F (.waits S r) → F (.item r w) := by
    intro hwaits
    obtain ⟨-, X', f', top', w', arg', -, hw', -⟩ := hF.grounded _ hwaits
    obtain rfl := hfun.item _ _ _ hw ((hF' _).2 (.inl hw'))
    exact hw'
  rcases (hF' _).1 hdone with hdone | hdone
  · rcases (hF' _).1 hwaits with hwaits | hwaits
    · exact .inl (.resume hdone hwaits (hold hwaits) hx)
    · obtain ⟨hstep, ⟨top, hset⟩, -⟩ := hF.grounded _ hdone
      obtain ⟨hS, hitem, arg', f', hx', hresume⟩ := heffect.brings hF hwaits
      obtain rfl := hfun.item _ _ _ hw ((hF' _).2 (.inr hitem))
      cases hx.symm.trans hx'
      have hC : C.step = k := Nat.le_antisymm hle (hS ▸ hstep)
      exact .inr ⟨hC, hresume X f top hset C X f n hdone hC⟩
  · obtain ⟨hC, hnone, hresume⟩ := heffect.brings hF hdone
    rcases (hF' _).1 hwaits with hwaits | hwaits
    · exact .inr ⟨hC, hresume r w arg g hwaits (hold hwaits) hx⟩
    · exact absurd hwaits (hnone r)

/-- What is to be started for a prediction was due before, unless the prediction or the production
is new. -/
theorem due_start (hF : Sound c v ids goal F) (hbound : ∀ φ, F φ → φ.step ≤ k)
    (heffect : Effect c k F item new items) (hF' : ∀ φ, F' φ ↔ F φ ∨ new φ) {S : ItemSetRef}
    {X : CatRef} {f : Nat} {top : Bool} {q : ChartProduction} (hset : F' (.predicts S X f top))
    (hoffers : Offers c F' X q) :
    Due c v F S.step { set := S, production := q, field := f } ∨
      (S.step = k ∧ items { set := S, production := q, field := f }) := by
  have hoffers' : Offers c F X q ∨ ∃ C, X = .chart C ∧ new (.produces C q) := by
    cases X with
    | grammar id => exact .inl hoffers
    | chart C => exact ((hF' _).1 hoffers).imp id fun hnew => ⟨C, rfl, hnew⟩
  rcases (hF' _).1 hset with hset | hset
  · rcases hoffers' with hoffers | ⟨C, rfl, hnew⟩
    · exact .inl (.start hset hoffers)
    · obtain ⟨hC, hstart⟩ := heffect.brings hF hnew
      obtain ⟨-, hstep, -⟩ := hF.grounded _ hset
      have hS : S.step = k := Nat.le_antisymm (hbound _ hset) (hC ▸ hstep C rfl)
      exact .inr ⟨hS, hstart S f top hset hS⟩
  · obtain ⟨hS, hnone, hstart⟩ := heffect.brings hF hset
    rcases hoffers' with hoffers | ⟨C, rfl, hnew⟩
    · exact .inr ⟨hS, hstart q hoffers⟩
    · exact absurd hnew (hnone C q)

/-- What is due after an effect was due before or is on the agenda. -/
theorem due (hF : Sound c v ids goal F) (hbound : ∀ φ, F φ → φ.step ≤ k)
    (heffect : Effect c k F item new items) (hF' : ∀ φ, F' φ ↔ F φ ∨ new φ) (hfun : Functional F')
    {k' : Nat} {i : Item} (hle : k' ≤ k) (h : Due c v F' k' i) :
    Due c v F k' i ∨ (k' = k ∧ items i) := by
  cases h with
  | start hset hoffers => exact heffect.due_start hF hbound hF' hset hoffers
  | resume hdone hwaits hw hx => exact heffect.due_resume hF hF' hfun hdone hwaits hw hx hle
  | @scan k₀ idx w x ts hawaits hw hx hform =>
    rcases (hF' _).1 hawaits with hawaits | hawaits
    · obtain ⟨w', x', ts', hw', -⟩ := hF.grounded _ hawaits
      obtain rfl := hfun.item _ _ _ hw ((hF' _).2 (.inl hw'))
      exact .inl (.scan hawaits hw' hx hform)
    · obtain rfl : k₀ = k := heffect.brings hF hawaits
      exact absurd hle (Nat.not_succ_le_self _)

/-- An item that has been processed is served. -/
theorem served (heffect : Effect c k F item new items) (hF' : ∀ φ, F' φ ↔ F φ ∨ new φ)
    {todo : Item → Prop} (htodo : ∀ i, items i → todo i) : Served c F' todo k item := by
  have hmono : ∀ φ, F φ → F' φ := fun φ h => (hF' φ).2 (.inl h)
  have hnew : ∀ φ, new φ → F' φ := fun φ h => (hF' φ).2 (.inr h)
  cases heffect with
  | @stall x hx hforms hsub =>
    refine .of_constituent hx (fun arg f heq => absurd heq (hsub arg f)) (fun _ hform => ?_)
      (fun t ts _ hform => ?_) (fun ts t _ hform _ => ?_)
    · exact absurd hform (by simp [hforms])
    · exact absurd hform (by simp [hforms])
    · exact absurd (Constituent.mem_forms_iff.2 ⟨_, hform⟩) (by simp [hforms])
  | @read x hx hforms waits hnext hfirst hlater =>
    refine .of_constituent hx (fun arg f heq => ?_) (fun hword hform => ?_)
      (fun t ts hword hform => ?_) (fun ts t hword hform ht => ?_)
    · exact absurd (heq ▸ rfl) hforms
    · exact htodo _ ⟨rfl, hword, hform⟩
    · obtain ⟨form, idx, hts, hwaits⟩ := hfirst hword t ts hform
      exact ⟨form, idx, hts, hnew _ ⟨t, _, idx, hwaits, .inr rfl⟩,
        hnew _ ⟨t, _, idx, hwaits, .inl rfl⟩⟩
    · obtain ⟨idx, hwaits⟩ := hlater hword ts t hform ht
      exact ⟨idx, hnew _ ⟨t, _, idx, hwaits, .inr rfl⟩, hnew _ ⟨t, _, idx, hwaits, .inl rfl⟩⟩
  | @join arg f X S r top hx harg hset hS hr =>
    exact .of_sub hx ⟨X, S, top, r, harg, hS, hmono _ hset, hnew _ (.inr rfl),
      hnew _ (.inl rfl)⟩
  | @predict arg f X S r hx harg hnone hS hr hfree =>
    exact .of_sub hx ⟨X, S, false, r, harg, hS, hnew _ (.inr (.inl rfl)),
      hnew _ (.inr (.inr rfl)), hnew _ (.inl rfl)⟩
  | @found C X f n hended hdone hC hproduces =>
    exact .of_ended hended ⟨C, X, f, n, hmono _ hdone, hC, hmono _ hproduces⟩
  | @pack C X f n hended hdone hC =>
    exact .of_ended hended ⟨C, X, f, n, hmono _ hdone, hC, hnew _ rfl⟩
  | @close C X f n top hended hnone hset hC hfree hn =>
    exact .of_ended hended ⟨C, X, f, n, hnew _ (.inl rfl), hC, hnew _ (.inr (.inl rfl))⟩

end Effect

namespace Saturated

/-- **Processing an item keeps track of all that is due.** -/
theorem effect (hsat : Saturated c v F k agenda done) (hF : Sound c v ids goal F)
    (hbound : ∀ φ, F φ → φ.step ≤ k) (heffect : Effect c k F item new items)
    (hF' : ∀ φ, F' φ ↔ F φ ∨ new φ) (hfun : Functional F')
    (hagenda : ∀ i, agenda i → i = item ∨ rest i)
    (hagenda' : ∀ i, rest i ∨ items i → agenda' i) :
    Saturated c v F' k agenda' fun k' i => done k' i ∨ (k' = k ∧ i = item) := by
  have htodo : ∀ k' i, done k' i ∨ (k' = k ∧ agenda i) →
      (done k' i ∨ (k' = k ∧ i = item)) ∨ (k' = k ∧ agenda' i) := by
    rintro k' i (h | ⟨hk, h⟩)
    · exact .inl (.inl h)
    · rcases hagenda i h with h | h
      · exact .inl (.inr ⟨hk, h⟩)
      · exact .inr ⟨hk, hagenda' i (.inl h)⟩
  refine ⟨fun k' i hle h => ?_, ?_⟩
  · rcases heffect.due hF hbound hF' hfun hle h with h | ⟨hk, h⟩
    · exact htodo k' i (hsat.due k' i hle h)
    · exact .inr ⟨hk, hagenda' i (.inr h)⟩
  · rintro k' i (h | ⟨rfl, rfl⟩)
    · exact (hsat.served k' i h).mono (fun φ h => (hF' φ).2 (.inl h)) (htodo k')
    · exact heffect.served hF' fun i h => .inr ⟨rfl, hagenda' i (.inr h)⟩

/-- When a token has been read, the items that waited for it are due, and nothing else. -/
theorem advance (hsat : Saturated c v F k (fun _ => False) done)
    (hbound : ∀ φ, F φ → φ.step ≤ k)
    (hagenda : ∀ idx w x ts, F (.awaits k (v k) idx) → F (.item ⟨k, idx⟩ w) →
      c.constituent? w = some x → x.formAt? w.form = some ts → agenda (w.moved ts.length)) :
    Saturated c v F (k + 1) agenda done := by
  refine ⟨fun k' i hle h => ?_, fun k' i h => ?_⟩
  · by_cases hk : k' ≤ k
    · rcases hsat.due k' i hk h with h | ⟨-, h⟩
      · exact .inl h
      · exact h.elim
    · have hk : k' = k + 1 := by omega
      refine .inr ⟨hk, ?_⟩
      cases h with
      | start hset _ => exact absurd (hbound _ hset) (by simp only [Fact.step]; omega)
      | resume hdone _ _ _ => exact absurd (hbound _ hdone) (by simp only [Fact.step]; omega)
      | scan hawaits hw hx hform =>
        cases hk
        exact hagenda _ _ _ _ hawaits hw hx hform
  · refine (hsat.served k' i h).mono (fun _ h => h) ?_
    rintro j (hj | ⟨-, hj⟩)
    · exact .inl hj
    · exact hj.elim

end Saturated

end Polyglot
