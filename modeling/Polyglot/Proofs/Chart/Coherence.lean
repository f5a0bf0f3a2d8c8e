import Polyglot.Proofs.Chart.Faithful
import Polyglot.Proofs.Grammar.Fitting

/-!
# References in a chart are to what was there before

What a chart says about the input depends on whether the goal is a field that all instances have.
How its parts refer to each other does not: whatever is predicted, an item is of an item set that
exists, its arguments exist, and a category takes over the number of fields of what it refines.

- `Item.Placed`: what an item refers to; `Item.Placed.resume`: also when it got what it waits for.
- `Fact.Rests`: what a fact is about is there.
- `Coherent`: all facts rest on others, and nothing is there twice; `Coherent.extend`,
  `Coherent.predict`, `Coherent.close` keep it so.
-/

namespace Polyglot

variable {c : Concrete} {ids : List InstanceId} {goal : Nat} {F F' : Fact → Prop}

/-! ## What is referred to -/

/-- The number of fields of a category: an instance has it from the grammar, and a category of the
chart since it was completed. -/
def HasFields (c : Concrete) (F : Fact → Prop) : CatRef → Nat → Prop
  | .grammar id, n => (c.fieldCount? id).getD 0 = n
  | .chart C, n => ∃ S X f, F (.closes C S X f n)

theorem HasFields.mono (hF : ∀ φ, F φ → F' φ) {X : CatRef} {n : Nat} (h : HasFields c F X n) :
    HasFields c F' X n := by
  cases X with
  | grammar id => exact h
  | chart C =>
    obtain ⟨S, X, f, hcloses⟩ := h
    exact ⟨S, X, f, hF _ hcloses⟩

theorem HasFields.unique (hF : Functional F) {X : CatRef} {n n' : Nat} (h : HasFields c F X n)
    (h' : HasFields c F X n') : n = n' := by
  cases X with
  | grammar id => exact h.symm.trans h'
  | chart C =>
    obtain ⟨S, X, f, hcloses⟩ := h
    obtain ⟨S', X', f', hcloses'⟩ := h'
    exact (hF.closes _ _ _ _ _ _ _ _ _ hcloses hcloses').2.2.2

/-- A production suits a category with so many fields: its function makes as many or it takes over
from a category that has as many, and its arguments exist and have the fields that are read of them.
-/
structure ChartProduction.Suits (c : Concrete) (F : Fact → Prop) (n : Nat) (q : ChartProduction) :
    Prop where
  args : ∀ C, .chart C ∈ q.args → ∃ m, HasFields c F (.chart C) m
  reads : ∀ fn args, q = .apply fn args → ∀ g body arg f, c.sequenceOf? fn g = some body →
    .sub arg f ∈ body → ∀ X, args[arg]? = some X → ∃ m, HasFields c F X m ∧ f < m
  head : ∀ fn args, q = .apply fn args → ∃ f, c.function? fn = some f ∧ f.fields.length = n
  coerce : ∀ X, q = .coerce X → HasFields c F X n

/-- An item belongs to a prediction of its field, and its production suits what is predicted. A
coercion of a category of the chart reads a field that the category has, and one that has got past
its argument has a category with this very field for it. -/
structure Item.Placed (c : Concrete) (F : Fact → Prop) (i : Item) : Prop where
  predicted : ∃ X top n, F (.predicts i.set X i.field top) ∧ HasFields c F X n ∧
    i.production.Suits c F n
  reads : ∀ C, i.production = .coerce (.chart C) → ∃ m, HasFields c F (.chart C) m ∧ i.field < m
  coerced : ∀ X, i.production = .coerce X → 0 < i.dot →
    ∃ C S Y n, X = .chart C ∧ F (.closes C S Y i.field n)

namespace ChartProduction

theorem Suits.mono (hF : ∀ φ, F φ → F' φ) {n : Nat} {q : ChartProduction} (h : q.Suits c F n) :
    q.Suits c F' n where
  args C hC := by
    obtain ⟨m, hm⟩ := h.args C hC
    exact ⟨m, hm.mono hF⟩
  reads fn args hq g body arg f hbody hmem X harg := by
    obtain ⟨m, hm, hlt⟩ := h.reads fn args hq g body arg f hbody hmem X harg
    exact ⟨m, hm.mono hF, hlt⟩
  head := h.head
  coerce X hX := (h.coerce X hX).mono hF

/-- A production of the grammar suits the instance that it belongs to. -/
theorem suits_ofGrammar {a : Abstract} (hfits : c.Fits a) {id : InstanceId} {p : Production}
    (hp : p ∈ c.productionsOf id) : (ofGrammar p).Suits c F ((c.fieldCount? id).getD 0) := by
  obtain ⟨n, hn, hsuits⟩ := hfits.of_mem hp
  rw [hn, Option.getD_some]
  cases p with
  | apply fn args =>
    obtain ⟨f, hf, hlength, -, -, hreadable⟩ := hsuits
    refine ⟨fun C hC => ?_, ?_, ?_, ?_⟩
    · simp [ofGrammar, ChartProduction.args] at hC
    · rintro fn' args' heq g body arg field hbody hmem X hX
      cases heq
      simp only [Concrete.sequenceOf?, hf, Option.bind_eq_bind, Option.bind_some,
        Option.bind_eq_some_iff] at hbody
      obtain ⟨seq, hseq, hbody⟩ := hbody
      obtain ⟨id', m, hid, hm, hlt⟩ :=
        hreadable seq (List.mem_of_getElem? hseq) body hbody _ hmem arg field rfl
      rw [List.getElem?_map, hid, Option.map_some] at hX
      cases hX
      exact ⟨m, by rw [HasFields, hm, Option.getD_some], hlt⟩
    · rintro fn' args' heq
      cases heq
      exact ⟨f, hf, hlength⟩
    · rintro X ⟨⟩
  | coerce target =>
    refine ⟨fun C hC => ?_, ?_, ?_, ?_⟩
    · simp [ofGrammar, ChartProduction.args] at hC
    · rintro fn args ⟨⟩
    · rintro fn args ⟨⟩
    · rintro X heq
      cases heq
      show (c.fieldCount? target).getD 0 = n
      rw [hsuits.2, Option.getD_some]

/-- It still does with a category for an argument that has as many fields. -/
theorem Suits.bind {n : Nat} {q : ChartProduction} (h : q.Suits c F n) {arg : Nat} {X : CatRef}
    (harg : q.args[arg]? = some X) {C : ChartCatId}
    (hC : ∀ m, HasFields c F X m → HasFields c F (.chart C) m)
    (hexists : ∃ m, HasFields c F (.chart C) m) : (q.bind arg (.chart C)).Suits c F n := by
  cases q with
  | apply fn args =>
    refine ⟨fun C' hC' => ?_, ?_, ?_, ?_⟩
    · rcases List.mem_or_eq_of_mem_set hC' with hold | hnew
      · exact h.args C' hold
      · cases hnew
        exact hexists
    · rintro fn' args' heq g body arg' f hbody hmem Y hY
      cases heq
      change args[arg]? = some X at harg
      rw [List.getElem?_set] at hY
      split at hY
      · rename_i heq
        subst heq
        obtain ⟨hlt, -⟩ := List.getElem?_eq_some_iff.1 harg
        rw [if_pos hlt] at hY
        cases hY
        obtain ⟨m, hm, hlt⟩ := h.reads fn args rfl g body arg f hbody hmem X harg
        exact ⟨m, hC m hm, hlt⟩
      · exact h.reads fn args rfl g body arg' f hbody hmem Y hY
    · rintro fn' args' heq
      cases heq
      exact h.head fn args rfl
    · rintro X' ⟨⟩
  | coerce Y =>
    have hY : Y = X := by
      cases arg with
      | zero => simpa [ChartProduction.args] using harg
      | succ arg => simp [ChartProduction.args] at harg
    refine ⟨fun C' hC' => ?_, ?_, ?_, ?_⟩
    · obtain rfl : C' = C := by simpa [ChartProduction.bind, ChartProduction.args] using hC'
      exact hexists
    · rintro fn args ⟨⟩
    · rintro fn args ⟨⟩
    · rintro X' heq
      cases heq
      exact hC n (hY ▸ h.coerce Y rfl)

end ChartProduction

namespace Concrete

/-- An item whose need is known has a constituent that comes next, or is at its end. -/
theorem need_eq_ok {i : Item} {next : Item.Need} (h : c.need i = .ok next) :
    (∃ x, c.constituent? i = some x ∧ next = .ofConstituent x) ∨
      c.Ended i ∧ next = .complete := by
  have hbody : ∃ body, c.bodyOf? i.production.head i.field = some body := by
    cases hp : i.production with
    | coerce X => exact ⟨_, rfl⟩
    | apply fn args =>
      rw [need, hp] at h
      cases hs : c.sequenceOf? fn i.field with
      | none => simp [hs] at h
      | some body => exact ⟨body, hs⟩
  obtain ⟨body, hbody⟩ := hbody
  rcases constituent?_or_ended hbody with ⟨x, hx⟩ | hended
  · rw [need_of_constituent? hx] at h
    exact .inl ⟨x, hx, (Except.ok.inj h).symm⟩
  · rw [need_of_ended hended] at h
    exact .inr ⟨hended, (Except.ok.inj h).symm⟩

/-- A coercion has a single constituent, which reads the field that is asked for. -/
theorem constituent?_coerce {i : Item} {X : CatRef} (hp : i.production = .coerce X)
    {x : Constituent} (hx : c.constituent? i = some x) : i.dot = 0 ∧ x = .sub 0 i.field := by
  rw [constituent?, hp] at hx
  show i.dot = 0 ∧ _
  cases hdot : i.dot with
  | zero =>
    simp only [ChartProduction.head, bodyOf?, hdot, Option.bind_some] at hx
    exact ⟨rfl, (Option.some.inj hx).symm⟩
  | succ dot => simp [ChartProduction.head, bodyOf?, hdot] at hx

end Concrete

namespace Item.Placed

variable {i w : Item}

theorem mono (hF : ∀ φ, F φ → F' φ) (h : i.Placed c F) : i.Placed c F' where
  predicted := by
    obtain ⟨X, top, n, hset, hn, hsuits⟩ := h.predicted
    exact ⟨X, top, n, hF _ hset, hn.mono hF, hsuits.mono hF⟩
  reads C hC := by
    obtain ⟨m, hm, hlt⟩ := h.reads C hC
    exact ⟨m, hm.mono hF, hlt⟩
  coerced X hX hdot := by
    obtain ⟨C, S, Y, n, hC, hcloses⟩ := h.coerced X hX hdot
    exact ⟨C, S, Y, n, hC, hF _ hcloses⟩

/-- Which form of a constituent is tried does not matter. -/
theorem with_form (h : i.Placed c F) (form : Nat) : Item.Placed c F { i with form } :=
  ⟨h.predicted, h.reads, h.coerced⟩

/-- An item that has read the words of a constituent is placed as before. -/
theorem advanced (h : i.Placed c F) {x : Constituent} (hx : c.constituent? i = some x)
    (hsub : ∀ arg f, x ≠ .sub arg f) : i.advanced.Placed c F := by
  refine ⟨h.predicted, h.reads, fun X hX _ => ?_⟩
  obtain ⟨-, rfl⟩ := Concrete.constituent?_coerce (i := i) hX hx
  exact absurd rfl (hsub _ _)

theorem moved (h : i.Placed c F) {x : Constituent} (hx : c.constituent? i = some x)
    (hsub : ∀ arg f, x ≠ .sub arg f) (length : Nat) : (i.moved length).Placed c F := by
  rw [Item.moved]
  dsimp only
  split
  · exact advanced (i := { i with word := i.word + 1 }) ⟨h.predicted, h.reads, h.coerced⟩ hx hsub
  · exact ⟨h.predicted, h.reads, h.coerced⟩

/-- A category of the chart has the field that an item reads of it. -/
theorem read (h : i.Placed c F) {arg f : Nat} (hx : c.constituent? i = some (.sub arg f))
    {C : ChartCatId} (harg : i.production.args[arg]? = some (.chart C)) :
    ∃ m, HasFields c F (.chart C) m ∧ f < m := by
  cases hp : i.production with
  | coerce X =>
    obtain ⟨-, hsub⟩ := Concrete.constituent?_coerce hp hx
    cases hsub
    obtain rfl : X = .chart C := by simpa [hp, ChartProduction.args] using harg
    exact h.reads C hp
  | apply fn args =>
    obtain ⟨X, top, n, -, -, hsuits⟩ := h.predicted
    rw [hp] at harg
    simp only [Concrete.constituent?, hp, ChartProduction.head, Concrete.bodyOf?,
      Option.bind_eq_some_iff] at hx
    obtain ⟨body, hbody, hx⟩ := hx
    exact hsuits.reads fn args hp _ body arg f hbody (List.mem_of_getElem? hx) _ harg

/-- An item that gets what it waits for is placed as before. -/
theorem resume (hF : Functional F) (h : w.Placed c F) {arg f : Nat}
    (hx : c.constituent? w = some (.sub arg f)) {X : CatRef}
    (harg : w.production.args[arg]? = some X) {C : ChartCatId} {S : ItemSetRef} {n : Nat}
    (hcloses : F (.closes C S X f n)) (hX : HasFields c F X n) (hf : f < n) :
    (w.resume arg C).Placed c F := by
  have hC : ∀ m, HasFields c F X m → HasFields c F (.chart C) m := by
    intro m hm
    obtain rfl := hm.unique hF hX
    exact ⟨S, X, f, hcloses⟩
  refine ⟨?_, fun C' hC' => ?_, fun Y hY _ => ?_⟩
  · obtain ⟨Y, top, m, hset, hm, hsuits⟩ := h.predicted
    exact ⟨Y, top, m, hset, hm, hsuits.bind harg hC ⟨n, S, X, f, hcloses⟩⟩
  · cases hp : w.production with
    | apply fn args => simp [Item.resume, Item.advanced, hp, ChartProduction.bind] at hC'
    | coerce Z =>
      obtain ⟨-, hsub⟩ := Concrete.constituent?_coerce hp hx
      cases hsub
      obtain rfl : C = C' := by
        simpa [Item.resume, Item.advanced, hp, ChartProduction.bind] using hC'
      exact ⟨n, ⟨S, X, _, hcloses⟩, hf⟩
  · cases hp : w.production with
    | apply fn args => simp [Item.resume, Item.advanced, hp, ChartProduction.bind] at hY
    | coerce Z =>
      obtain ⟨-, hsub⟩ := Concrete.constituent?_coerce hp hx
      obtain rfl : f = w.field := by
        cases hsub
        rfl
      refine ⟨C, S, X, n, ?_, hcloses⟩
      simpa [Item.resume, Item.advanced, hp, ChartProduction.bind] using hY.symm

/-- What is offered for a prediction is placed when it is started. -/
theorem start {S : ItemSetRef} {X : CatRef} {f n : Nat} {top : Bool}
    (hset : F (.predicts S X f top)) (hn : HasFields c F X n) {q : ChartProduction}
    (hq : q.Suits c F n) (hread : ∀ C, q = .coerce (.chart C) → f < n) :
    Item.Placed c F { set := S, production := q, field := f } :=
  ⟨⟨X, top, n, hset, hn, hq⟩, fun C hC => ⟨n, hq.coerce _ hC, hread C hC⟩,
    fun _ _ hdot => absurd hdot (Nat.lt_irrefl 0)⟩

end Item.Placed

/-! ## What facts rest on -/

/-- What a fact is about is there. -/
def Fact.Rests (c : Concrete) (ids : List InstanceId) (goal : Nat) (F : Fact → Prop) :
    Fact → Prop
  | .item _ i => i.Placed c F
  | .predicts S X f top =>
    (∃ n, HasFields c F X n) ∧
      (top = true → S.step = 0 ∧ f = goal ∧ ∃ id ∈ ids, X = .grammar id) ∧
      ∀ C, X = .chart C → ∃ n, HasFields c F X n ∧ f < n
  | .waits S r =>
    ∃ X f top i arg, F (.predicts S X f top) ∧ F (.item r i) ∧
      c.constituent? i = some (.sub arg f) ∧ i.production.args[arg]? = some X
  | .closes _ S X f n => (∃ top, F (.predicts S X f top)) ∧ HasFields c F X n ∧ f < n
  | .produces C q =>
    ∃ S X f n, F (.closes C S X f n) ∧ q.Suits c F n ∧ (c.bodyOf? q.head f).isSome ∧
      ∀ Y, q = .coerce Y → ∃ D, Y = .chart D
  | .awaits k t idx =>
    ∃ i x ts, F (.item ⟨k, idx⟩ i) ∧ c.constituent? i = some x ∧ x.formAt? i.form = some ts ∧
      ts[i.word]? = some t
  | .spans k C => C.step = k ∧ ∃ S X f n, F (.closes C S X f n) ∧ F (.predicts S X f true)

theorem Fact.Rests.mono (hF : ∀ φ, F φ → F' φ) {φ : Fact} (h : φ.Rests c ids goal F) :
    φ.Rests c ids goal F' := by
  cases φ with
  | item r i => exact Item.Placed.mono hF h
  | predicts S X f top =>
    obtain ⟨⟨n, hn⟩, htop, hread⟩ := h
    refine ⟨⟨n, hn.mono hF⟩, htop, fun C hC => ?_⟩
    obtain ⟨m, hm, hlt⟩ := hread C hC
    exact ⟨m, hm.mono hF, hlt⟩
  | waits S r =>
    obtain ⟨X, f, top, i, arg, hset, hitem, hx, harg⟩ := h
    exact ⟨X, f, top, i, arg, hF _ hset, hF _ hitem, hx, harg⟩
  | closes C S X f n =>
    obtain ⟨⟨top, hset⟩, hn, hf⟩ := h
    exact ⟨⟨top, hF _ hset⟩, hn.mono hF, hf⟩
  | produces C q =>
    obtain ⟨S, X, f, n, hcloses, hsuits, hq⟩ := h
    exact ⟨S, X, f, n, hF _ hcloses, hsuits.mono hF, hq⟩
  | awaits k t idx =>
    obtain ⟨i, x, ts, hitem, hx⟩ := h
    exact ⟨i, x, ts, hF _ hitem, hx⟩
  | spans k C =>
    obtain ⟨hstep, S, X, f, n, hcloses, hset⟩ := h
    exact ⟨hstep, S, X, f, n, hF _ hcloses, hF _ hset⟩

/-- Of fewer facts the same holds. -/
theorem Functional.anti (h : Functional F') (hF : ∀ φ, F φ → F' φ) : Functional F where
  item r i i' hi hi' := h.item r i i' (hF _ hi) (hF _ hi')
  predicts S X f top X' f' top' hset hset' :=
    h.predicts S X f top X' f' top' (hF _ hset) (hF _ hset')
  closes C S X f n S' X' f' n' hdone hdone' :=
    h.closes C S X f n S' X' f' n' (hF _ hdone) (hF _ hdone')

/-- All facts rest on others, and a step neither predicts nor completes anything twice. -/
structure Coherent (c : Concrete) (ids : List InstanceId) (goal : Nat) (F : Fact → Prop) :
    Prop where
  functional : Functional F
  rests : ∀ φ, F φ → φ.Rests c ids goal F
  predicts_once : ∀ S S' X f top top', F (.predicts S X f top) → F (.predicts S' X f top') →
    S.step = S'.step → S = S'
  closes_once : ∀ C C' S X f n X' f' n', F (.closes C S X f n) → F (.closes C' S X' f' n') →
    C.step = C'.step → C = C'
  spans : ∀ C S X f n, F (.closes C S X f n) → F (.predicts S X f true) → F (.spans C.step C)

/-- Facts that neither predict nor complete anything leave a chart coherent if they rest on
something. -/
theorem Coherent.extend (h : Coherent c ids goal F) {new : Fact → Prop}
    (hF' : ∀ φ, F' φ ↔ F φ ∨ new φ) (hfun : Functional F')
    (hrests : ∀ φ, new φ → φ.Rests c ids goal F')
    (hpredicts : ∀ S X f top, ¬ new (.predicts S X f top))
    (hcloses : ∀ C S X f n, ¬ new (.closes C S X f n)) : Coherent c ids goal F' := by
  have hpredicts' : ∀ {S X f top}, F' (.predicts S X f top) → F (.predicts S X f top) :=
    fun hset => ((hF' _).1 hset).resolve_right (hpredicts _ _ _ _)
  have hcloses' : ∀ {C S X f n}, F' (.closes C S X f n) → F (.closes C S X f n) :=
    fun hdone => ((hF' _).1 hdone).resolve_right (hcloses _ _ _ _ _)
  refine ⟨hfun, fun φ hφ => ?_, ?_, ?_, ?_⟩
  · rcases (hF' φ).1 hφ with hold | hnew
    · exact (h.rests φ hold).mono fun φ hφ => (hF' φ).2 (.inl hφ)
    · exact hrests φ hnew
  · exact fun _ _ _ _ _ _ hset hset' => h.predicts_once _ _ _ _ _ _ (hpredicts' hset)
      (hpredicts' hset')
  · exact fun _ _ _ _ _ _ _ _ _ hdone hdone' => h.closes_once _ _ _ _ _ _ _ _ _
      (hcloses' hdone) (hcloses' hdone')
  · exact fun C S X f n hdone hset =>
      (hF' _).2 (.inl (h.spans C S X f n (hcloses' hdone) (hpredicts' hset)))

/-- So does a prediction of something that the step did not predict. -/
theorem Coherent.predict (h : Coherent c ids goal F) {S : ItemSetRef} {X : CatRef} {f : Nat}
    {top : Bool} (hF' : ∀ φ, F' φ ↔ F φ ∨ φ = .predicts S X f top) (hfun : Functional F')
    (hfree : ∀ X f top, ¬ F (.predicts S X f top))
    (hnone : ∀ S' top', S'.step = S.step → ¬ F (.predicts S' X f top'))
    (hX : ∃ n, HasFields c F X n)
    (htop : top = true → S.step = 0 ∧ f = goal ∧ ∃ id ∈ ids, X = .grammar id)
    (hread : ∀ C, X = .chart C → ∃ n, HasFields c F X n ∧ f < n) : Coherent c ids goal F' := by
  have hmono : ∀ φ, F φ → F' φ := fun φ hφ => (hF' φ).2 (.inl hφ)
  have hcloses : ∀ {C S X f n}, F' (.closes C S X f n) → F (.closes C S X f n) :=
    fun hdone => ((hF' _).1 hdone).resolve_right nofun
  refine ⟨hfun, fun φ hφ => ?_, ?_, ?_, ?_⟩
  · rcases (hF' φ).1 hφ with hold | rfl
    · exact (h.rests φ hold).mono hmono
    · have hrests : (Fact.predicts S X f top).Rests c ids goal F := ⟨hX, htop, hread⟩
      exact hrests.mono hmono
  · intro S₁ S₂ Y g top₁ top₂ h₁ h₂ hstep
    rcases (hF' _).1 h₁ with h₁ | h₁ <;> rcases (hF' _).1 h₂ with h₂ | h₂
    · exact h.predicts_once _ _ _ _ _ _ h₁ h₂ hstep
    · cases h₂
      exact absurd h₁ (hnone _ _ hstep)
    · cases h₁
      exact absurd h₂ (hnone _ _ hstep.symm)
    · cases h₁
      cases h₂
      rfl
  · exact fun _ _ _ _ _ _ _ _ _ hdone hdone' => h.closes_once _ _ _ _ _ _ _ _ _
      (hcloses hdone) (hcloses hdone')
  · intro C S₁ Y g n hdone hset
    rcases (hF' _).1 hset with hset | hset
    · exact hmono _ (h.spans C S₁ Y g n (hcloses hdone) hset)
    · cases hset
      -- Nothing completes a set that is only predicted now.
      obtain ⟨⟨top', hset⟩, -⟩ := h.rests _ (hcloses hdone)
      exact absurd hset (hfree _ _ _)

/-- So does the completion of an item set that nothing completed in this step. -/
theorem Coherent.close (h : Coherent c ids goal F) {C : ChartCatId} {S : ItemSetRef} {X : CatRef}
    {f n : Nat} {top : Bool} {q : ChartProduction}
    (hF' : ∀ φ, F' φ ↔ F φ ∨ φ = .closes C S X f n ∨ φ = .produces C q ∨
      (top = true ∧ φ = .spans C.step C)) (hfun : Functional F')
    (hnone : ∀ C' X f n, C'.step = C.step → ¬ F (.closes C' S X f n))
    (hset : F (.predicts S X f top)) (hX : HasFields c F X n) (hf : f < n)
    (hq : q.Suits c F n) (hbody : (c.bodyOf? q.head f).isSome)
    (hcoerce : ∀ Y, q = .coerce Y → ∃ D, Y = .chart D) : Coherent c ids goal F' := by
  have hmono : ∀ φ, F φ → F' φ := fun φ hφ => (hF' φ).2 (.inl hφ)
  have hdone : F' (.closes C S X f n) := (hF' _).2 (.inr (.inl rfl))
  have hpredicts : ∀ {S X f top}, F' (.predicts S X f top) → F (.predicts S X f top) := by
    intro S₁ Y g top₁ hset₁
    rcases (hF' _).1 hset₁ with hset₁ | hset₁ | hset₁ | ⟨-, hset₁⟩
    · exact hset₁
    all_goals cases hset₁
  refine ⟨hfun, fun φ hφ => ?_, ?_, ?_, ?_⟩
  · rcases (hF' φ).1 hφ with hold | rfl | rfl | ⟨rfl, rfl⟩
    · exact (h.rests φ hold).mono hmono
    · exact ⟨⟨top, hmono _ hset⟩, hX.mono hmono, hf⟩
    · exact ⟨S, X, f, n, hdone, hq.mono hmono, hbody, hcoerce⟩
    · exact ⟨rfl, S, X, f, n, hdone, hmono _ hset⟩
  · exact fun _ _ _ _ _ _ hset hset' => h.predicts_once _ _ _ _ _ _ (hpredicts hset)
      (hpredicts hset')
  · intro C₁ C₂ S₁ Y g m Y' g' m' h₁ h₂ hstep
    have hnew : ∀ {C' S' X' f' n'}, F' (.closes C' S' X' f' n') → F (.closes C' S' X' f' n') ∨
        C' = C ∧ S' = S := by
      intro C' S' X' f' n' hdone'
      rcases (hF' _).1 hdone' with hold | hnew | hnew | ⟨-, hnew⟩
      · exact .inl hold
      · cases hnew
        exact .inr ⟨rfl, rfl⟩
      all_goals cases hnew
    rcases hnew h₁ with h₁ | ⟨rfl, rfl⟩ <;> rcases hnew h₂ with h₂ | ⟨rfl, hS⟩
    · exact h.closes_once _ _ _ _ _ _ _ _ _ h₁ h₂ hstep
    · exact absurd (hS ▸ h₁) (hnone _ _ _ _ hstep)
    · exact absurd h₂ (hnone _ _ _ _ hstep.symm)
    · rfl
  · intro C₁ S₁ Y g m hdone₁ hset₁
    rcases (hF' _).1 hdone₁ with hdone₁ | hdone₁ | hdone₁ | ⟨-, hdone₁⟩
    · exact hmono _ (h.spans C₁ S₁ Y g m hdone₁ (hpredicts hset₁))
    · cases hdone₁
      obtain ⟨-, -, rfl⟩ := h.functional.predicts _ _ _ _ _ _ _ hset (hpredicts hset₁)
      exact (hF' _).2 (.inr (.inr (.inr ⟨rfl, rfl⟩)))
    all_goals cases hdone₁

end Polyglot
