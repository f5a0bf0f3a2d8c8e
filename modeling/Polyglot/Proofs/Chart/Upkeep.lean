import Polyglot.Proofs.Chart.Coherence

/-!
# Building a step keeps a chart coherent

The operations on a step in the making are followed through for what they refer to. Each of them
refers to what is there already, whether or not it runs into a fault, and nothing that is there goes
away.

- `Building.Coherent`: what is known is coherent, and the items on the agenda are placed.
- `Building.Coherent.expand`, `combine`, `waitFor`, `addItemSet`, …: the operations one by one.
- `Building.Coherent.process`: processing an item; `Building.Coherent.predictTop` and
  `Building.Coherent.scan`: how a step begins.
-/

namespace Polyglot

namespace Building

variable {a : Abstract} {c : Concrete} {ids : List InstanceId} {goal : Nat}
  {b b' b'' : Building} {item : Item}

/-- What is known while a step is built is coherent, and the items on the agenda are placed. -/
structure Coherent (c : Concrete) (ids : List InstanceId) (goal : Nat) (b : Building) : Prop where
  concrete : b.concrete = c
  facts : Polyglot.Coherent c ids goal b.facts
  agenda : ∀ i ∈ b.agenda, i.Placed c b.facts

/-- Nothing that was known is lost. -/
structure Learns (b b' : Building) : Prop where
  history : b'.history = b.history
  facts : ∀ φ, b.facts φ → b'.facts φ

theorem Learns.refl (b : Building) : Learns b b := ⟨rfl, fun _ h => h⟩

theorem Learns.trans (h : Learns b b') (h' : Learns b' b'') : Learns b b'' :=
  ⟨h'.history.trans h.history, fun φ hφ => h'.facts φ (h.facts φ hφ)⟩

theorem Learns.index (h : Learns b b') : b'.index = b.index := by
  rw [Building.index, Building.index, h.history]

/-- Counting is not forgetting. -/
theorem Learns.of_count (counters : Counters) (h : Learns { b with counters } b') :
    Learns b b' := ⟨h.history, h.facts⟩

theorem SameChart.learns (h : b.SameChart b') : Learns b b' :=
  ⟨h.history, fun φ hφ => by rwa [h.facts_eq]⟩

namespace Coherent

/-! ## Putting items on the agenda -/

theorem of_sameChart (h : b.Coherent c ids goal) (hsame : b.SameChart b')
    (hagenda : ∀ i ∈ b'.agenda, i ∈ b.agenda ∨ i.Placed c b.facts) :
    b'.Coherent c ids goal ∧ b.Learns b' := by
  have hfacts := hsame.facts_eq
  refine ⟨⟨hsame.concrete.trans h.concrete, by rw [hfacts]; exact h.facts, fun i hi => ?_⟩,
    hsame.learns⟩
  rw [hfacts]
  rcases hagenda i hi with hold | hnew
  · exact h.agenda i hold
  · exact hnew

/-- What was known and what is new make up what is known. -/
theorem of_adds (h : b.Coherent c ids goal) {new : Fact → Prop}
    (hadds : b.Adds b' new fun _ => False) (hfacts : Polyglot.Coherent c ids goal b'.facts) :
    b'.Coherent c ids goal ∧ b.Learns b' := by
  have hmono : ∀ φ, b.facts φ → b'.facts φ := fun φ hφ => (hadds.facts φ).2 (.inl hφ)
  refine ⟨⟨hadds.concrete.trans h.concrete, hfacts, fun i hi => ?_⟩, hadds.history, hmono⟩
  have hold : i ∈ b.agenda := by simpa using (hadds.agenda i).1 hi
  exact (h.agenda i hold).mono hmono

theorem fail (h : b.Coherent c ids goal) (f : Chart.Fault) :
    (b.fail f).Coherent c ids goal ∧ b.Learns (b.fail f) :=
  h.of_sameChart ⟨rfl, rfl, rfl⟩ fun _ hi => .inl hi

/-- Counting does not matter. -/
theorem count (h : b.Coherent c ids goal) (counters : Counters) :
    ({ b with counters } : Building).Coherent c ids goal := ⟨h.concrete, h.facts, h.agenda⟩

theorem push (h : b.Coherent c ids goal) (hitem : item.Placed c b.facts) :
    (b.push item).Coherent c ids goal ∧ b.Learns (b.push item) := by
  refine h.of_sameChart ⟨rfl, rfl, rfl⟩ fun i hi => ?_
  rcases List.mem_cons.1 hi with rfl | hi
  · exact .inr hitem
  · exact .inl hi

/-- One operation after the other. -/
theorem foldl {α : Type} {f : Building → α → Building} (as : List α)
    (h : b.Coherent c ids goal)
    (hf : ∀ b', b'.Coherent c ids goal → b.Learns b' → ∀ x ∈ as,
      (f b' x).Coherent c ids goal ∧ b'.Learns (f b' x)) :
    (as.foldl f b).Coherent c ids goal ∧ b.Learns (as.foldl f b) := by
  induction as generalizing b with
  | nil => exact ⟨h, .refl b⟩
  | cons x as ih =>
    obtain ⟨hfirst, hlearns⟩ := hf b h (.refl b) x List.mem_cons_self
    obtain ⟨hrest, hlearns'⟩ := ih hfirst fun b' hb' hlearns' y hy =>
      hf b' hb' (hlearns.trans hlearns') y (List.mem_cons_of_mem _ hy)
    exact ⟨hrest, hlearns.trans hlearns'⟩

/-- What is offered by a category that is predicted is started. -/
theorem expand (hfits : c.Fits a) (h : b.Coherent c ids goal) {S : ItemSetRef} {X : CatRef}
    {f : Nat} {top : Bool} (hset : b.facts (.predicts S X f top)) :
    (b.expand S X f).Coherent c ids goal ∧ b.Learns (b.expand S X f) := by
  have hadds := b.adds_expand S X f
  have hsame := (b.agenda_expand S X f).1
  refine h.of_sameChart hsame fun i hi => ?_
  rcases (hadds.agenda i).1 hi with hold | ⟨q, hq, rfl⟩
  · exact .inl hold
  · right
    cases X with
    | grammar id =>
      obtain ⟨p, hp, rfl⟩ := hq
      rw [h.concrete] at hp
      refine Item.Placed.start hset rfl (ChartProduction.suits_ofGrammar hfits hp) fun C hC => ?_
      cases p <;> cases hC
    | chart C =>
      obtain ⟨S', X', f', n, hcloses, hsuits, -⟩ := h.facts.rests _ hq
      obtain ⟨-, -, hread⟩ := h.facts.rests _ hset
      obtain ⟨m, hm, hlt⟩ := hread C rfl
      have hn : HasFields c b.facts (.chart C) n := ⟨S', X', f', hcloses⟩
      obtain rfl := hm.unique h.facts.functional hn
      exact Item.Placed.start hset hn hsuits fun _ _ => hlt

/-- An item that waits for what is complete goes on. -/
theorem combine (h : b.Coherent c ids goal) {S : ItemSetRef} {r : ItemRef}
    (hwaits : b.facts (.waits S r)) {C : ChartCatId} {X : CatRef} {f n : Nat}
    (hcloses : b.facts (.closes C S X f n)) :
    (b.combine r C).Coherent c ids goal ∧ b.Learns (b.combine r C) := by
  have hfun := h.facts.functional
  obtain ⟨X', f', top, w, arg, hset, hw, hx, harg⟩ := h.facts.rests _ hwaits
  obtain ⟨⟨top', hset'⟩, hX, hf⟩ := h.facts.rests _ hcloses
  obtain ⟨rfl, rfl, -⟩ := hfun.predicts _ _ _ _ _ _ _ hset hset'
  obtain ⟨hsame, hadds⟩ := adds_combine hw (by rw [h.concrete]; exact hx) C
  refine h.of_sameChart hsame fun i hi => ?_
  rcases (hadds.agenda i).1 hi with hold | rfl
  · exact .inl hold
  · exact .inr ((h.facts.rests _ hw).resume hfun hx harg hcloses hX hf)

/-! ## Items that wait for tokens -/

/-- An item waits for the token that comes next. -/
theorem waitFor (h : b.Coherent c ids goal) (hitem : item.Placed c b.facts) {x : Constituent}
    {ts : List Sym} {t : Sym} (hx : c.constituent? item = some x)
    (hform : x.formAt? item.form = some ts) (ht : ts[item.word]? = some t) :
    (b.waitFor t item).Coherent c ids goal ∧ b.Learns (b.waitFor t item) := by
  have hadds := b.adds_waitFor t item
  have hmono : ∀ φ, b.facts φ → (b.waitFor t item).facts φ :=
    fun φ hφ => (hadds.facts φ).2 (.inl hφ)
  refine h.of_adds hadds (h.facts.extend hadds.facts (chartFacts_functional _) ?_ ?_ ?_)
  · rintro φ (rfl | rfl)
    · exact Item.Placed.mono hmono hitem
    · exact ⟨item, x, ts, (hadds.facts _).2 (.inr (.inl rfl)), hx, hform, ht⟩
  · rintro S X f top (hφ | hφ) <;> cases hφ
  · rintro C S X f n (hφ | hφ) <;> cases hφ

/-- Of the forms that are possible, each has its own first token. -/
theorem awaitVariants (h : b.Coherent c ids goal) (hitem : item.Placed c b.facts) {v : Variants}
    (hx : c.constituent? item = some (.variants v)) :
    (b.awaitVariants v item).Coherent c ids goal ∧ b.Learns (b.awaitVariants v item) := by
  rw [Building.awaitVariants]
  split
  · split
    · rename_i t ht
      obtain ⟨ts, hts, hword⟩ := Option.bind_eq_some_iff.1 ht
      exact h.waitFor hitem hx hts hword
    · exact ⟨h, .refl b⟩
  · rename_i hword
    have hzero : item.word = 0 := by omega
    refine h.foldl _ fun b' hb' hlearns entry hentry => ?_
    obtain ⟨ts, form⟩ := entry
    have hitem' := hitem.mono hlearns.facts
    cases ts with
    | nil => exact hb'.push (hitem'.advanced hx (by simp))
    | cons t ts =>
      have hform : v.form? form = some (t :: ts) := Variants.form?_of_mem_distinctForms hentry
      have hplaced : Item.Placed c b'.facts { item with form } := hitem'.with_form form
      exact hb'.waitFor hplaced hx hform (by rw [hzero]; rfl)

/-! ## Items that wait for categories -/

theorem store (h : b.Coherent c ids goal) (hitem : item.Placed c b.facts) :
    (b.store item).2.Coherent c ids goal ∧ b.Learns (b.store item).2 ∧
      (b.store item).2.facts (.item (b.store item).1 item) := by
  have hadds := b.adds_store item
  have hmono : ∀ φ, b.facts φ → (b.store item).2.facts φ :=
    fun φ hφ => (hadds.facts φ).2 (.inl hφ)
  obtain ⟨hcoherent, hlearns⟩ := h.of_adds hadds (h.facts.extend hadds.facts
    (chartFacts_functional _) (by rintro φ rfl; exact Item.Placed.mono hmono hitem) (by simp)
    (by simp))
  exact ⟨hcoherent, hlearns, (hadds.facts _).2 (.inr rfl)⟩

/-- A stored item waits with the others for what was predicted before. -/
theorem join (h : b.Coherent c ids goal) {r : ItemRef} (hr : b.facts (.item r item)) {arg f : Nat}
    {X : CatRef} (hx : c.constituent? item = some (.sub arg f))
    (harg : item.production.args[arg]? = some X) {k : Nat}
    (hset : b.step.findItemSet? X f = some k) :
    let b' : Building := { b with
      step.itemSets := b.step.itemSets.modify k fun set =>
        { set with waiting := set.waiting ++ [r] } }
    b'.Coherent c ids goal ∧ b.Learns b' ∧ b'.facts (.waits ⟨b.index, k⟩ r) := by
  intro b'
  have hk := (Array.findIdx?_eq_some_iff_getElem.1 hset).1
  have hadds : b.Adds b' _ _ := b.adds_step _ b.counters fun _ => Step.says_join hk r
  have hmono : ∀ φ, b.facts φ → b'.facts φ := fun φ hφ => (hadds.facts φ).2 (.inl hφ)
  obtain ⟨top, hpredicts⟩ := predicts_of_findItemSet? hset
  obtain ⟨hcoherent, hlearns⟩ := h.of_adds hadds (h.facts.extend hadds.facts
    (chartFacts_functional _) (by
      rintro φ rfl
      exact ⟨X, f, top, item, arg, hmono _ hpredicts, hmono _ hr, hx, harg⟩) (by simp)
      (by simp))
  exact ⟨hcoherent, hlearns, (hadds.facts _).2 (.inr rfl)⟩

/-- What the step does not predict yet can be predicted, as long as its category is there. -/
theorem addItemSet (h : b.Coherent c ids goal) (set : ItemSet)
    (hnone : b.step.findItemSet? set.cat set.field = none)
    (hcat : ∃ n, HasFields c b.facts set.cat n)
    (htop : set.top = true → b.index = 0 ∧ set.field = goal ∧ ∃ id ∈ ids, set.cat = .grammar id)
    (hread : ∀ C, set.cat = .chart C → ∃ n, HasFields c b.facts set.cat n ∧ set.field < n)
    (hwaiting : ∀ r ∈ set.waiting, ∃ i arg, b.facts (.item r i) ∧
      c.constituent? i = some (.sub arg set.field) ∧ i.production.args[arg]? = some set.cat) :
    (b.addItemSet set).2.Coherent c ids goal ∧ b.Learns (b.addItemSet set).2 ∧
      (b.addItemSet set).2.facts (.predicts (b.addItemSet set).1 set.cat set.field set.top) := by
  have hadds := b.adds_addItemSet set
  have hfun : Functional (b.addItemSet set).2.facts := chartFacts_functional _
  have hmono : ∀ φ, b.facts φ → (b.addItemSet set).2.facts φ :=
    fun φ hφ => (hadds.facts φ).2 (.inl hφ)
  have hnew : (b.addItemSet set).2.facts
      (.predicts (b.addItemSet set).1 set.cat set.field set.top) :=
    (hadds.facts _).2 (.inr (.inl rfl))
  -- First the prediction is known, and then what waits for it.
  let F (φ : Fact) : Prop :=
    b.facts φ ∨ φ = .predicts (b.addItemSet set).1 set.cat set.field set.top
  have hF : Polyglot.Coherent c ids goal F := by
    refine h.facts.predict (fun _ => Iff.rfl) (hfun.anti ?_) (fun _ _ _ => not_predicts_size)
      (fun S' top' hS' => not_predicts_of_findItemSet? hnone hS') hcat htop hread
    rintro φ (hφ | rfl)
    · exact hmono φ hφ
    · exact hnew
  have hfacts : Polyglot.Coherent c ids goal (b.addItemSet set).2.facts := by
    have hwaits : ∀ φ, (b.addItemSet set).2.facts φ ↔
        F φ ∨ ∃ r ∈ set.waiting, φ = .waits (b.addItemSet set).1 r := by
      intro φ
      rw [hadds.facts, or_assoc]
    refine hF.extend hwaits hfun ?_ ?_ ?_
    · rintro φ ⟨r, hr, rfl⟩
      obtain ⟨i, arg, hi, hx, harg⟩ := hwaiting r hr
      exact ⟨set.cat, set.field, set.top, i, arg, hnew, hmono _ hi, hx, harg⟩
    · rintro S X f top ⟨r, -, hφ⟩
      cases hφ
    · rintro C S X f n ⟨r, -, hφ⟩
      cases hφ
  obtain ⟨hcoherent, hlearns⟩ := h.of_adds hadds hfacts
  exact ⟨hcoherent, hlearns, hnew⟩

/-- An item that asks for a category waits for it. -/
theorem awaitCategory (hfits : c.Fits a) (h : b.Coherent c ids goal)
    (hitem : item.Placed c b.facts) {arg f : Nat} {X : CatRef}
    (hx : c.constituent? item = some (.sub arg f))
    (harg : item.production.args[arg]? = some X) :
    (b.awaitCategory item X f).Coherent c ids goal ∧ b.Learns (b.awaitCategory item X f) := by
  have hX : ∃ n, HasFields c b.facts X n := by
    obtain ⟨-, -, n, -, -, hsuits⟩ := hitem.predicted
    cases X with
    | grammar id => exact ⟨_, rfl⟩
    | chart C => exact hsuits.args C (List.mem_of_getElem? harg)
  obtain ⟨h₁, hlearns₁, hr⟩ := h.store hitem
  cases hset : b.step.findItemSet? X f with
  | some k =>
    have hjoin := h₁.join hr hx harg hset
    rw [hlearns₁.index] at hjoin
    obtain ⟨h₂, hlearns₂, hwaits⟩ : (b.joined item k).Coherent c ids goal ∧
        (b.store item).2.Learns (b.joined item k) ∧
        (b.joined item k).facts (.waits ⟨b.index, k⟩ (b.store item).1) := hjoin
    have hlearns := hlearns₁.trans hlearns₂
    rw [awaitCategory_of_some hset]
    cases hdone : b.step.findCategory? ⟨b.index, k⟩ with
    | some j =>
      obtain ⟨Y, g, n, hcloses⟩ := closes_of_findCategory? hdone
      obtain ⟨h₃, hlearns₃⟩ := h₂.combine hwaits (hlearns.facts _ hcloses)
      exact ⟨h₃, hlearns.trans hlearns₃⟩
    | none => exact ⟨h₂, hlearns⟩
  | none =>
    obtain ⟨h₂, hlearns₂, hpredicts⟩ := h₁.addItemSet
      { cat := X, field := f, top := false, waiting := [(b.store item).1] } hset
      (hX.imp fun _ hn => hn.mono hlearns₁.facts) nofun
      (fun C hC => by
        cases hC
        obtain ⟨m, hm, hlt⟩ := hitem.read hx harg
        exact ⟨m, hm.mono hlearns₁.facts, hlt⟩)
      fun r' hr' => ⟨item, arg, List.mem_singleton.1 hr' ▸ hr, hx, harg⟩
    obtain ⟨h₃, hlearns₃⟩ := h₂.expand hfits hpredicts
    rw [awaitCategory_of_none hset]
    exact ⟨h₃, (hlearns₁.trans hlearns₂).trans hlearns₃⟩

theorem predict (hfits : c.Fits a) (h : b.Coherent c ids goal) (hitem : item.Placed c b.facts)
    {arg f : Nat} (hx : c.constituent? item = some (.sub arg f)) :
    (b.predict item arg f).Coherent c ids goal ∧ b.Learns (b.predict item arg f) := by
  rw [Building.predict]
  split
  · exact h.fail _
  · rename_i X harg
    exact h.awaitCategory hfits hitem hx harg

/-! ## Items at their end -/

/-- What an item at its end says about the category that it completes. -/
theorem ended (h : b.Coherent c ids goal) (hitem : item.Placed c b.facts) (hended : c.Ended item)
    {X : CatRef} {f : Nat} {top : Bool} (hset : b.facts (.predicts item.set X f top)) :
    item.field = f ∧ ∃ n, HasFields c b.facts X n ∧ f < n ∧ item.production.Suits c b.facts n ∧
      (c.bodyOf? item.production.head f).isSome ∧
      ∀ Y, item.production = .coerce Y → ∃ D, Y = .chart D := by
  obtain ⟨body, hbody, hlength⟩ := hended
  obtain ⟨X', top', n, hset', hn, hsuits⟩ := hitem.predicted
  obtain ⟨rfl, rfl, -⟩ := h.facts.functional.predicts _ _ _ _ _ _ _ hset hset'
  have hdone : ∀ Y, item.production = .coerce Y → ∃ C S Z m, Y = .chart C ∧
      b.facts (.closes C S Z item.field m) := by
    intro Y hY
    rw [hY] at hbody
    cases hbody
    exact hitem.coerced Y hY hlength
  refine ⟨rfl, n, hn, ?_, hsuits, by rw [hbody]; rfl, fun Y hY => ?_⟩
  · cases hp : item.production with
    | apply fn args =>
      obtain ⟨g, hg, hcount⟩ := hsuits.head fn args hp
      rw [hp] at hbody
      simp only [ChartProduction.head, Concrete.bodyOf?, Concrete.sequenceOf?, hg,
        Option.bind_eq_bind, Option.bind_some, Option.bind_eq_some_iff] at hbody
      obtain ⟨seq, hseq, -⟩ := hbody
      exact hcount ▸ (List.getElem?_eq_some_iff.1 hseq).1
    | coerce Y =>
      -- What a coercion takes over has the field that was read of it.
      obtain ⟨C, S, Z, m, rfl, hcloses⟩ := hdone Y hp
      obtain ⟨-, -, hlt⟩ := h.facts.rests _ hcloses
      obtain rfl := (hsuits.coerce _ hp).unique h.facts.functional ⟨S, Z, _, hcloses⟩
      exact hlt
  · obtain ⟨C, -, -, -, rfl, -⟩ := hdone Y hY
    exact ⟨C, rfl⟩

/-- A production that is new to a category is started where the category was predicted. -/
theorem pack (h : b.Coherent c ids goal) {idx : Nat} {cat : ChartCat}
    (hcat : b.step.cats[idx]? = some cat) {q : ChartProduction}
    (hsuits : q.Suits c b.facts cat.fieldCount)
    (hbody : (c.bodyOf? q.head cat.field).isSome)
    (hcoerce : ∀ Y, q = .coerce Y → ∃ D, Y = .chart D) :
    (b.pack idx cat q).Coherent c ids goal ∧ b.Learns (b.pack idx cat q) := by
  have hidx := (Array.getElem?_eq_some_iff.1 hcat).1
  have hcloses : b.facts (.closes ⟨b.index, idx⟩ cat.set cat.cat cat.field cat.fieldCount) :=
    closes_iff.2 ⟨cat, category?_iff.2 ⟨b.step, by simp [index], hcat⟩, rfl, rfl, rfl, rfl⟩
  rw [Building.pack]
  split
  · exact ⟨h, .refl b⟩
  · have hadds := b.adds_step _ b.counters fun _ => Step.says_pack hidx q
    dsimp only at hadds ⊢
    generalize ({ b with step.cats := b.step.cats.modify idx fun cat =>
      { cat with productions := cat.productions ++ [q] } } : Building) = b₁ at hadds ⊢
    have hmono : ∀ φ, b.facts φ → b₁.facts φ := fun φ hφ => (hadds.facts φ).2 (.inl hφ)
    obtain ⟨h₁, hlearns₁⟩ := h.of_adds hadds (h.facts.extend hadds.facts
      (by exact chartFacts_functional _) (by
        rintro φ rfl
        exact ⟨_, _, _, _, hmono _ hcloses, hsuits.mono hmono, hbody, hcoerce⟩) (by simp)
        (by simp))
    -- Fields of the category that were predicted before begin again with the new production.
    refine And.imp_right hlearns₁.trans (h₁.foldl _ fun b' hb' hlearns field hfield => ?_)
    have hlearns' := hlearns₁.trans hlearns
    split
    · rename_i k hk
      obtain ⟨top, hset⟩ := predicts_of_findItemSet? hk
      rw [hlearns'.index] at hset ⊢
      exact hb'.push (Item.Placed.start hset ⟨_, _, _, hlearns'.facts _ hcloses⟩
        (hsuits.mono hlearns'.facts) fun _ _ => List.mem_range.1 hfield)
    · exact ⟨hb', .refl b'⟩

/-- The category that completes an item set lets all that waits for it go on. -/
theorem addCategory (h : b.Coherent c ids goal) {S : ItemSetRef} {set : ItemSet}
    (hset : b.itemSet? S = some set) (hnone : b.step.findCategory? S = none)
    {q : ChartProduction} {n : Nat} (hn : HasFields c b.facts set.cat n) (hlt : set.field < n)
    (hsuits : q.Suits c b.facts n) (hbody : (c.bodyOf? q.head set.field).isSome)
    (hcoerce : ∀ Y, q = .coerce Y → ∃ D, Y = .chart D) :
    (b.addCategory S set q).Coherent c ids goal ∧ b.Learns (b.addCategory S set q) := by
  have hcount : b.fieldCount set.cat = n := by
    cases hX : set.cat with
    | grammar id =>
      rw [hX] at hn
      rw [fieldCount, h.concrete]
      exact hn
    | chart C =>
      rw [hX] at hn
      obtain ⟨S', X', f', hcloses⟩ := hn
      exact fieldCount_of_closes hcloses
  have hpredicts : b.facts (.predicts S set.cat set.field set.top) :=
    predicts_iff.2 ⟨set, hset, rfl, rfl, rfl⟩
  let C : ChartCatId := ⟨b.index, b.step.cats.size⟩
  have hadds : b.Adds (b.closed S set q)
      (fun φ => φ = .closes C S set.cat set.field n ∨ φ = .produces C q ∨
        (set.top = true ∧ φ = .spans C.step C)) (fun _ => False) := by
    refine (b.adds_step _ _ fun _ => Step.says_push_cat _ set.top).congr (fun φ => ?_)
      fun _ => Iff.rfl
    simp [hcount, C]
  have hfacts := h.facts.close hadds.facts (chartFacts_functional _)
    (fun _ _ _ _ hC => not_closes_of_findCategory? hnone hC) hpredicts hn hlt hsuits hbody hcoerce
  obtain ⟨h₁, hlearns₁⟩ := h.of_adds hadds hfacts
  have hcloses : (b.closed S set q).facts (.closes C S set.cat set.field n) :=
    (hadds.facts _).2 (.inr (.inl rfl))
  refine And.imp_right hlearns₁.trans (h₁.foldl _ fun b' hb' hlearns r hr => ?_)
  have hwaits : b.facts (.waits S r) := waits_iff.2 ⟨set, hset, hr⟩
  exact hb'.combine (hlearns.facts _ (hlearns₁.facts _ hwaits)) (hlearns.facts _ hcloses)

/-- An item at its end completes its category, or adds to it. -/
theorem complete (h : b.Coherent c ids goal) (hitem : item.Placed c b.facts)
    (hended : c.Ended item) :
    (b.complete item).Coherent c ids goal ∧ b.Learns (b.complete item) := by
  rw [Building.complete]
  have h₁ := h.count { b.counters with completions := b.counters.completions + 1 }
  refine And.imp_right (Learns.of_count _) (?_ : Coherent .. ∧ Learns
    { b with counters := { b.counters with completions := b.counters.completions + 1 } } _)
  dsimp only
  split
  · rename_i idx hfind
    split
    · rename_i cat hcat
      have hset : cat.set = item.set := by
        obtain ⟨hidx, heq, -⟩ := Array.findIdx?_eq_some_iff_getElem.1 hfind
        obtain ⟨-, rfl⟩ := Array.getElem?_eq_some_iff.1 hcat
        exact of_decide_eq_true heq
      have hcloses : b.facts
          (.closes ⟨b.index, idx⟩ cat.set cat.cat cat.field cat.fieldCount) :=
        closes_iff.2 ⟨cat, category?_iff.2 ⟨b.step, by simp [index], hcat⟩, rfl, rfl, rfl, rfl⟩
      obtain ⟨⟨top, hpredicts⟩, hcount, -⟩ := h.facts.rests _ hcloses
      obtain ⟨-, n, hn, -, hsuits, hbody, hcoerce⟩ := h.ended hitem hended (hset ▸ hpredicts)
      obtain rfl := hn.unique h.facts.functional hcount
      exact h₁.pack hcat hsuits hbody hcoerce
    · exact h₁.fail _
  · rename_i hfind
    split
    · rename_i set hset
      have hpredicts : b.facts (.predicts item.set set.cat set.field set.top) :=
        predicts_iff.2 ⟨set, hset, rfl, rfl, rfl⟩
      obtain ⟨-, n, hn, hlt, hsuits, hbody, hcoerce⟩ := h.ended hitem hended hpredicts
      exact h₁.addCategory hset hfind hn hlt hsuits hbody hcoerce
    · exact h₁.fail _

/-! ## Any item -/

/-- **Processing an item keeps a step in the making coherent.** -/
theorem process (hfits : c.Fits a) (h : b.Coherent c ids goal) (hitem : item.Placed c b.facts) :
    (b.process item).Coherent c ids goal ∧ b.Learns (b.process item) := by
  rw [Building.process]
  have h₁ := h.count { b.counters with items := b.counters.items + 1 }
  refine And.imp_right (Learns.of_count _) (?_ : Coherent .. ∧ Learns
    { b with counters := { b.counters with items := b.counters.items + 1 } } _)
  dsimp only
  cases hneed : b.concrete.need item with
  | error f => exact h₁.fail f
  | ok next =>
    rw [h.concrete] at hneed
    rcases Concrete.need_eq_ok hneed with ⟨x, hx, rfl⟩ | ⟨hended, rfl⟩
    · cases x with
      | sub arg f => exact h₁.predict hfits hitem hx
      | lit arg f => exact ⟨h₁, .refl _⟩
      | var arg index => exact ⟨h₁, .refl _⟩
      | tokens ts =>
        dsimp only [Item.Need.ofConstituent]
        cases ht : ts[item.word]? with
        | some t => exact h₁.waitFor hitem hx rfl ht
        | none => exact h₁.push (hitem.advanced hx (by simp))
      | variants v => exact h₁.awaitVariants hitem hx
    · exact h₁.complete hitem hended

/-- One round of work keeps it so. -/
theorem next? (hfits : c.Fits a) (h : b.Coherent c ids goal) (hnext : b.next? = some b') :
    b'.Coherent c ids goal ∧ b.Learns b' := by
  obtain ⟨item, agenda, -, hagenda, rfl⟩ := next?_eq_some hnext
  have hrest : ({ b with agenda } : Building).Coherent c ids goal :=
    ⟨h.concrete, h.facts, fun i hi => h.agenda i (hagenda ▸ List.mem_cons_of_mem _ hi)⟩
  have hitem : item.Placed c b.facts := h.agenda item (hagenda ▸ List.mem_cons_self)
  obtain ⟨h', hlearns⟩ := hrest.process hfits hitem
  exact ⟨h', hlearns.history, hlearns.facts⟩

/-! ## The beginning of a step -/

/-- An item that waited for a token goes on after it. -/
theorem scan (h : b.Coherent c ids goal) (hitem : item.Placed c b.facts) {x : Constituent}
    {ts : List Sym} (hx : c.constituent? item = some x) (hform : x.formAt? item.form = some ts) :
    (b.scan item).Coherent c ids goal ∧ b.Learns (b.scan item) := by
  obtain ⟨hsame, hadds⟩ := adds_scan (by rw [h.concrete]; exact hx) hform
  refine h.of_sameChart hsame fun i hi => ?_
  rcases (hadds.agenda i).1 hi with hold | rfl
  · exact .inl hold
  · refine .inr (hitem.moved hx ?_ _)
    rintro arg f rfl
    cases hform

/-- A step after coherent ones is coherent before anything is done in it. -/
theorem start {history : Array Step} (h : Polyglot.Coherent c ids goal (chartFacts history))
    (token : Option Sym) (counters : Counters) :
    (Building.start c history token counters).Coherent c ids goal :=
  ⟨rfl, by rw [facts_start]; exact h, nofun⟩

/-- The goals of the input are predicted in the first step, and nothing else is. -/
theorem predictTop (hfits : c.Fits a) (h : b.Coherent c ids goal) (hindex : b.index = 0)
    (htop : ∀ S X f top, b.facts (.predicts S X f top) → top = true) (l : List InstanceId)
    (hl : ∀ id ∈ l, id ∈ ids) :
    (b.predictTop l goal).Coherent c ids goal ∧ b.Learns (b.predictTop l goal) ∧
      ∀ id ∈ l, ∃ S, (b.predictTop l goal).facts (.predicts S (.grammar id) goal true) := by
  induction l generalizing b with
  | nil => exact ⟨h, .refl b, by simp⟩
  | cons id l ih =>
    have hid := hl id List.mem_cons_self
    have hrest : ∀ id ∈ l, id ∈ ids := fun id' hid' => hl id' (List.mem_cons_of_mem _ hid')
    -- What has to be shown of the step after the first goal.
    suffices hfirst : ∃ b₁, b.predictTop (id :: l) goal = b₁.predictTop l goal ∧
        b₁.Coherent c ids goal ∧ b.Learns b₁ ∧
        (∀ S X f top, b₁.facts (.predicts S X f top) → top = true) ∧
        ∃ S, b₁.facts (.predicts S (.grammar id) goal true) by
      obtain ⟨b₁, heq, h₁, hlearns₁, htop₁, S, hS⟩ := hfirst
      obtain ⟨h', hlearns, hgoals⟩ := ih h₁ (hlearns₁.index.trans hindex) htop₁ hrest
      rw [heq]
      refine ⟨h', hlearns₁.trans hlearns, fun id' hid' => ?_⟩
      rcases List.mem_cons.1 hid' with rfl | hid'
      · exact ⟨S, hlearns.facts _ hS⟩
      · exact hgoals id' hid'
    cases hfind : b.step.findItemSet? (.grammar id) goal with
    | some k =>
      obtain ⟨top, hset⟩ := predicts_of_findItemSet? hfind
      obtain rfl := htop _ _ _ _ hset
      exact ⟨b, by simp only [Building.predictTop, List.foldl_cons, hfind], h, .refl b, htop, _,
        hset⟩
    | none =>
      let set : ItemSet := { cat := .grammar id, field := goal, top := true, waiting := [] }
      obtain ⟨h₁, hlearns₁, hset⟩ := h.addItemSet set hfind ⟨_, rfl⟩
        (fun _ => ⟨hindex, rfl, id, hid, rfl⟩) (fun C hC => by cases hC) (by simp [set])
      obtain ⟨h₂, hlearns₂⟩ := h₁.expand hfits hset
      refine ⟨_, by simp only [Building.predictTop, List.foldl_cons, hfind]; rfl, h₂,
        hlearns₁.trans hlearns₂, fun S X f top hpredicts => ?_, _, hlearns₂.facts _ hset⟩
      have hsame := (agenda_expand (b.addItemSet set).2 (b.addItemSet set).1 (.grammar id) goal).1
      rw [hsame.facts_eq] at hpredicts
      rcases ((b.adds_addItemSet set).facts _).1 hpredicts with hold | hnew | ⟨r, hr, -⟩
      · exact htop S X f top hold
      · cases hnew
        rfl
      · cases hr

end Coherent

end Building

end Polyglot
