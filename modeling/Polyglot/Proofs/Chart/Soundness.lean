import Polyglot.Proofs.Chart.Trace

/-!
# Everything in a chart is there for a reason

Every fact of a chart rests on other facts: an item stands where the words and categories before it
led it, a category is completed by productions that were read from the first to the last
constituent, and so on. What processing an item adds rests on what was there before.

- `Stands`: how an item got to a position.
- `Sound`: all facts are `Grounded`, and nothing is predicted or completed twice in one step.
- `Sound.means`: what the productions of a category say about the input.
- `Stands.skip`, `Stands.moved`, `Stands.resume`, `Stands.completes`: how items go on and end.
-/

namespace Polyglot

namespace Constituent

/-- The form with a number of a constituent that consists of words. -/
def formAt? (x : Constituent) (form : Nat) : Option (List Sym) :=
  match x with
  | .tokens ts => some ts
  | .variants v => v.form? form
  | .sub .. | .lit .. | .var .. => none

theorem mem_forms_iff {x : Constituent} {ts : List Sym} :
    ts ∈ x.forms ↔ ∃ form, x.formAt? form = some ts := by
  cases x with
  | tokens ts' => simp [forms, formsBy, formAt?, eq_comm]
  | variants v => exact List.mem_iff_getElem?
  | _ => simp [forms, formsBy, formAt?]

end Constituent

namespace Concrete

/-- The constituent that comes next in an item. -/
def constituent? (c : Concrete) (i : Item) : Option Constituent :=
  (c.bodyOf? i.production.head i.field).bind (·[i.dot]?)

/-- Nothing comes next in an item. -/
def Ended (c : Concrete) (i : Item) : Prop :=
  ∃ body, c.bodyOf? i.production.head i.field = some body ∧ body.length ≤ i.dot

variable {c : Concrete} {i : Item}

theorem need_of_constituent? {x : Constituent} (h : c.constituent? i = some x) :
    c.need i = .ok (.ofConstituent x) := by
  obtain ⟨body, hbody, hx⟩ := Option.bind_eq_some_iff.1 h
  obtain ⟨set, production, field, dot, word, form⟩ := i
  cases production with
  | apply fn args =>
    simp only [ChartProduction.head, bodyOf?] at hbody hx
    simp [need, hbody, hx]
  | coerce cat =>
    cases hbody
    cases dot with
    | zero =>
      cases hx
      rfl
    | succ dot => simp at hx

theorem need_of_ended (h : c.Ended i) : c.need i = .ok .complete := by
  obtain ⟨body, hbody, hlength⟩ := h
  obtain ⟨set, production, field, dot, word, form⟩ := i
  cases production with
  | apply fn args =>
    simp only [ChartProduction.head, bodyOf?] at hbody hlength
    simp [need, hbody, List.getElem?_eq_none hlength]
  | coerce cat =>
    cases hbody
    simp only [List.length_singleton] at hlength
    simp [need, Nat.ne_of_gt hlength]

/-- An item whose field has a sequence has something that comes next or is at its end. -/
theorem constituent?_or_ended {body : Sequence}
    (h : c.bodyOf? i.production.head i.field = some body) :
    (∃ x, c.constituent? i = some x) ∨ c.Ended i := by
  by_cases hdot : i.dot < body.length
  · exact .inl ⟨body[i.dot], by simp [constituent?, h, hdot]⟩
  · exact .inr ⟨body, h, Nat.le_of_not_lt hdot⟩

end Concrete

/-- A waiting item goes on with a completed category as its argument. -/
def Item.resume (i : Item) (arg : Nat) (done : ChartCatId) : Item :=
  { i with production := i.production.bind arg (.chart done) }.advanced

/-- An item has read the token that came next, out of so many that its form has. -/
def Item.moved (i : Item) (length : Nat) : Item :=
  let i := { i with word := i.word + 1 }
  if length ≤ i.word then i.advanced else i

/-! ## Grounds -/

/-- An item stands at a position: a production that was offered for the prediction was traced up to
its place, and some words of the constituent that comes next have been read since. -/
inductive Stands (c : Concrete) (v : Nat → Sym) (F : Fact → Prop) (k : Nat) (i : Item) : Prop where
  | mk {X : CatRef} {top : Bool} {q₀ : ChartProduction} {body : Sequence} {k' : Nat}
      (hset : F (.predicts i.set X i.field top)) (hoffers : Offers c F X q₀)
      (hbody : c.bodyOf? q₀.head i.field = some body)
      (htraced : Traced v F q₀ i.set.step (body.take i.dot) i.production k')
      (hposition : k = k' + i.word)
      (hword : i.word = 0 ∨ ∃ x ts, body[i.dot]? = some x ∧ x.formAt? i.form = some ts ∧
        i.word < ts.length ∧ between v k' k = ts.take i.word)

/-- What a fact rests on. -/
def Grounded (c : Concrete) (v : Nat → Sym) (ids : List InstanceId) (goal : Nat)
    (F : Fact → Prop) : Fact → Prop
  | .item r i => Stands c v F r.step i
  | .predicts S X f top =>
    (∃ id L n, Chain F X id L ∧ c.fieldCount? id = some n ∧ f < n) ∧
      (∀ done, X = .chart done → done.step ≤ S.step) ∧
      (top = true → S.step = 0 ∧ f = goal ∧ ∃ id ∈ ids, X = .grammar id)
  | .waits S r =>
    r.step = S.step ∧ ∃ X f top i arg, F (.predicts S X f top) ∧ F (.item r i) ∧
      c.constituent? i = some (.sub arg f) ∧ i.production.args[arg]? = some X
  | .closes C S X f n =>
    S.step ≤ C.step ∧ (∃ top, F (.predicts S X f top)) ∧
      (∃ id L, Chain F X id L ∧ (c.fieldCount? id).getD 0 = n) ∧
      ∃ q, F (.produces C q) ∧ ∀ done, .chart done ∈ q.args → done.Before C
  | .produces C q =>
    ∃ S X f n q₀ body, F (.closes C S X f n) ∧ Offers c F X q₀ ∧
      c.bodyOf? q₀.head f = some body ∧ Traced v F q₀ S.step body q C.step
  | .awaits k t idx =>
    ∃ i x ts, F (.item ⟨k, idx⟩ i) ∧ c.constituent? i = some x ∧ x.formAt? i.form = some ts ∧
      ts[i.word]? = some t
  | .spans k C => C.step = k ∧ ∃ S X f n, F (.closes C S X f n) ∧ F (.predicts S X f true)

/-- All that is known rests on something, and a step neither predicts nor completes anything
twice. -/
structure Sound (c : Concrete) (v : Nat → Sym) (ids : List InstanceId) (goal : Nat)
    (F : Fact → Prop) : Prop where
  functional : Functional F
  grounded : ∀ φ, F φ → Grounded c v ids goal F φ
  predicts_once : ∀ S S' X f top top', F (.predicts S X f top) → F (.predicts S' X f top') →
    S.step = S'.step → S = S'
  closes_once : ∀ C C' S X f n X' f' n', F (.closes C S X f n) → F (.closes C' S X' f' n') →
    C.step = C'.step → C = C'
  spans : ∀ C S X f n, F (.closes C S X f n) → F (.predicts S X f true) → F (.spans C.step C)

variable {c : Concrete} {v : Nat → Sym} {ids : List InstanceId} {goal k : Nat}
  {F F' : Fact → Prop} {i : Item}

theorem Stands.mono (hF : ∀ φ, F φ → F' φ) (h : Stands c v F k i) : Stands c v F' k i := by
  obtain ⟨hset, hoffers, hbody, htraced, hposition, hword⟩ := h
  exact ⟨hF _ hset, hoffers.mono hF, hbody, htraced.mono hF, hposition, hword⟩

/-- An item that stands within tokens has one that comes next, so if none does there are none. -/
theorem Stands.of_no_token (h : Stands c v F k i) {ts : List Sym}
    (hx : c.constituent? i = some (.tokens ts)) (ht : ts[i.word]? = none) :
    i.word = 0 ∧ ts = [] := by
  obtain ⟨-, -, hbody, htraced, -, hword⟩ := h
  simp only [Concrete.constituent?, htraced.head_eq, hbody, Option.bind_some] at hx
  have hle := List.getElem?_eq_none_iff.1 ht
  rcases hword with hzero | ⟨x, ts', hx', hform, hlt, -⟩
  · exact ⟨hzero, List.length_eq_zero_iff.1 (by omega)⟩
  · cases hx.symm.trans hx'
    cases hform
    omega

/-- More knowledge takes no grounds away. -/
theorem Grounded.mono (hF : ∀ φ, F φ → F' φ) {φ : Fact} (h : Grounded c v ids goal F φ) :
    Grounded c v ids goal F' φ := by
  cases φ with
  | item r i => exact Stands.mono hF h
  | predicts S X f top =>
    obtain ⟨⟨id, L, n, hchain, hn, hf⟩, hrest⟩ := h
    exact ⟨⟨id, L, n, hchain.mono hF, hn, hf⟩, hrest⟩
  | waits S r =>
    obtain ⟨hstep, X, f, top, i, arg, hset, hitem, hneed, harg⟩ := h
    exact ⟨hstep, X, f, top, i, arg, hF _ hset, hF _ hitem, hneed, harg⟩
  | closes C S X f n =>
    obtain ⟨hle, ⟨top, hset⟩, ⟨id, L, hchain, hn⟩, q, hq, hbefore⟩ := h
    exact ⟨hle, ⟨top, hF _ hset⟩, ⟨id, L, hchain.mono hF, hn⟩, q, hF _ hq, hbefore⟩
  | produces C q =>
    obtain ⟨S, X, f, n, q₀, body, hcloses, hoffers, hbody, htraced⟩ := h
    exact ⟨S, X, f, n, q₀, body, hF _ hcloses, hoffers.mono hF, hbody, htraced.mono hF⟩
  | awaits k t idx =>
    obtain ⟨i, x, ts, hitem, hx⟩ := h
    exact ⟨i, x, ts, hF _ hitem, hx⟩
  | spans k C =>
    obtain ⟨hstep, S, X, f, n, hcloses, hset⟩ := h
    exact ⟨hstep, S, X, f, n, hF _ hcloses, hF _ hset⟩

/-! ## What productions mean -/

/-- What a production offered by a category means, where `L` is what has been read of the category:
it stems from a production of the grammar, its arguments have been read where the sequences of that
one read them, and phrases that fit its arguments make up the words that were read. -/
structure Means (c : Concrete) (v : Nat → Sym) (F : Fact → Prop) (L : List Span)
    (q : ChartProduction) (p : Production) : Prop where
  head : q.head = p.head
  length : q.args.length = p.args.length
  args : ∀ (arg : Nat) (id : InstanceId), p.args[arg]? = some id → ∃ X L', q.args[arg]? = some X ∧
    Chain F X id L' ∧ L'.map Span.field = c.reads p (L.map Span.field) arg
  spells : ∀ parts, Fits c v F q parts → ∀ s ∈ L, ∃ body, c.body? p s.field = some body ∧
    c.Spells Variants.forms parts body (between v s.start s.stop)

theorem Means.chain {L : List Span} {q : ChartProduction} {p : Production}
    (h : Means c v F L q p) {X : CatRef} (hX : X ∈ q.args) : ∃ id L, Chain F X id L := by
  obtain ⟨arg, harg, rfl⟩ := List.mem_iff_getElem.1 hX
  obtain ⟨X, L', hX', hchain, -⟩ := h.args arg _ (List.getElem?_eq_getElem (h.length ▸ harg))
  rw [List.getElem?_eq_getElem harg, Option.some.injEq] at hX'
  exact ⟨_, L', hX' ▸ hchain⟩

namespace Sound

/-- The productions that a category offers mean something. -/
theorem means (hF : Sound c v ids goal F) {X : CatRef} {id : InstanceId} {L : List Span}
    (hX : Chain F X id L) {q : ChartProduction} (hq : Offers c F X q) :
    ∃ p ∈ c.productionsOf id, Means c v F L q p := by
  induction hX generalizing q with
  | grammar id =>
    obtain ⟨p, hp, rfl⟩ := hq
    refine ⟨p, hp, by simp, by simp, fun arg id' hid' => ?_, fun _ _ s hs => nomatch hs⟩
    exact ⟨.grammar id', [], by simp [hid'], .grammar id', rfl⟩
  | @chart done S X f n id L hdone hchain ih =>
    -- The production was traced from one of the category that this one refines.
    obtain ⟨S', X', f', n', q₀, body, hdone', hoffers, hbody, htraced⟩ := hF.grounded _ hq
    obtain ⟨rfl, rfl, rfl, rfl⟩ := hF.functional.closes _ _ _ _ _ _ _ _ _ hdone hdone'
    obtain ⟨p, hp, hmeans⟩ := ih hoffers
    have hbody' : c.body? p f = some body := by rw [Concrete.body?, ← hmeans.head, hbody]
    refine ⟨p, hp, htraced.head_eq.trans hmeans.head, htraced.length_args.trans hmeans.length, ?_,
      ?_⟩
    · intro arg id' hid'
      obtain ⟨Y₀, L₀, hY₀, hchain₀, hfields₀⟩ := hmeans.args arg id' hid'
      obtain ⟨Y, L', hY, hchain', hfields⟩ := htraced.chain hY₀ hchain₀
      refine ⟨Y, L', hY, hchain', ?_⟩
      rw [hfields, hfields₀, List.map_append, Concrete.reads_append, List.map_singleton,
        Concrete.reads_cons hbody', Concrete.reads_nil, List.append_nil]
    · intro parts hfits s hs
      obtain ⟨hfits₀, hspells⟩ := htraced.spells (fun X hX => hmeans.chain hX) hfits
      rcases List.mem_append.1 hs with hs | hs
      · exact hmeans.spells parts hfits₀ s hs
      · obtain rfl := List.mem_singleton.1 hs
        exact ⟨body, hbody', hspells⟩

/-- A production that is offered has a sequence for every field that there is, and that asks for
fields that its arguments have. -/
theorem body_of_offers (hwf : c.WellFormed) (hF : Sound c v ids goal F) {X : CatRef}
    {id : InstanceId} {L : List Span} (hchain : Chain F X id L) {f n : Nat}
    (hn : c.fieldCount? id = some n) (hf : f < n) {q : ChartProduction} (hq : Offers c F X q) :
    ∃ body, c.bodyOf? q.head f = some body ∧
      ∀ arg g, .sub arg g ∈ body → ∃ Y id L n, q.args[arg]? = some Y ∧ Chain F Y id L ∧
        c.fieldCount? id = some n ∧ g < n := by
  obtain ⟨p, hp, hmeans⟩ := hF.means hchain hq
  obtain ⟨body, hbody, hsubs⟩ := hwf id p hp n hn f hf
  refine ⟨body, by rw [hmeans.head]; exact hbody, fun arg g hmem => ?_⟩
  obtain ⟨id', n', hid', hn', hg⟩ := hsubs arg g hmem
  obtain ⟨Y, L', hY, hchain', -⟩ := hmeans.args arg id' hid'
  exact ⟨Y, id', L', n', hY, hchain', hn', hg⟩

/-- A production that is offered for a prediction can be started. -/
theorem stands_start (hwf : c.WellFormed) (hF : Sound c v ids goal F) {S : ItemSetRef}
    {X : CatRef} {f : Nat} {top : Bool} (hset : F (.predicts S X f top)) {q : ChartProduction}
    (hq : Offers c F X q) : Stands c v F S.step { set := S, production := q, field := f } := by
  obtain ⟨⟨id, L, n, hchain, hn, hf⟩, -⟩ := hF.grounded _ hset
  obtain ⟨body, hbody, -⟩ := hF.body_of_offers hwf hchain hn hf hq
  exact ⟨hset, hq, hbody, .start, rfl, .inl rfl⟩

end Sound

/-! ## Items that go on -/

namespace Stands

theorem body (h : Stands c v F k i) : ∃ body, c.bodyOf? i.production.head i.field = some body := by
  obtain ⟨-, -, hbody, htraced, -, -⟩ := h
  exact ⟨_, by rw [htraced.head_eq]; exact hbody⟩

theorem set_le (h : Stands c v F k i) : i.set.step ≤ k := by
  obtain ⟨-, -, -, htraced, hposition, -⟩ := h
  have := htraced.le
  omega

/-- An empty form needs nothing. -/
theorem skip (h : Stands c v F k i) {x : Constituent} (hx : c.constituent? i = some x)
    (hword : i.word = 0) (hform : [] ∈ x.forms) : Stands c v F k i.advanced := by
  obtain ⟨hset, hoffers, hbody, htraced, hposition, -⟩ := h
  simp only [Concrete.constituent?, htraced.head_eq, hbody, Option.bind_some] at hx
  refine ⟨hset, hoffers, hbody, ?_, (Nat.add_zero k).symm, .inl rfl⟩
  have hnext := htraced.words hform (by simp)
  rw [hword, Nat.add_zero] at hposition
  simpa [Item.advanced, List.take_add_one, hx, hposition] using hnext

/-- A token that came next in an item has been read. -/
theorem moved (h : Stands c v F k i) {x : Constituent} (hx : c.constituent? i = some x)
    {ts : List Sym} (hform : x.formAt? i.form = some ts) (htoken : ts[i.word]? = some (v k)) :
    Stands c v F (k + 1) (i.moved ts.length) := by
  obtain ⟨hset, hoffers, hbody, htraced, hposition, hword⟩ := h
  rename_i k'
  simp only [Concrete.constituent?, htraced.head_eq, hbody, Option.bind_some] at hx
  have hlt := (List.getElem?_eq_some_iff.1 htoken).1
  have hread : between v k' (k + 1) = ts.take (i.word + 1) := by
    rw [between_succ (by omega), List.take_add_one, htoken]
    rcases hword with hzero | ⟨x', ts', hx', hform', -, hbetween⟩
    · simp [hposition, hzero]
    · cases hx.symm.trans hx'
      cases hform.symm.trans hform'
      simp [hbetween]
  rw [Item.moved]
  split
  · -- That was the last word of the form, so the item goes on to the next constituent.
    rename_i hle
    have hall : k + 1 = k' + ts.length := by
      simp only at hle
      omega
    have hnext := htraced.words (Constituent.mem_forms_iff.2 ⟨_, hform⟩) (by
      rw [← hall, hread, List.take_of_length_le hle])
    refine ⟨hset, hoffers, hbody, ?_, (Nat.add_zero _).symm, .inl rfl⟩
    simpa [Item.advanced, List.take_add_one, hx, hall] using hnext
  · rename_i hle
    refine ⟨hset, hoffers, hbody, htraced, by simp only; omega, .inr ⟨x, ts, hx, hform, ?_, hread⟩⟩
    exact Nat.lt_of_not_le hle

/-- A category that an item waits for is complete. -/
theorem resume {S : ItemSetRef} (h : Stands c v F S.step i) {arg f n : Nat} {X : CatRef}
    {C : ChartCatId} (hx : c.constituent? i = some (.sub arg f))
    (harg : i.production.args[arg]? = some X) (hdone : F (.closes C S X f n))
    (hle : S.step ≤ C.step) : Stands c v F C.step (i.resume arg C) := by
  obtain ⟨hset, hoffers, hbody, htraced, hposition, hword⟩ := h
  rename_i k'
  simp only [Concrete.constituent?, htraced.head_eq, hbody, Option.bind_some] at hx
  -- An item that asks for a category is not within a form.
  have hzero : i.word = 0 := by
    rcases hword with hzero | ⟨x, ts, hx', hform, -⟩
    · exact hzero
    · cases hx.symm.trans hx'
      cases hform
  have hk : k' = S.step := by omega
  subst hk
  refine ⟨hset, hoffers, hbody, ?_, (Nat.add_zero _).symm, .inl rfl⟩
  have hnext := htraced.sub harg hdone hle
  simpa [Item.resume, Item.advanced, List.take_add_one, hx] using hnext

/-- An item at its end accounts for a production of the category that it completes. -/
theorem completes (h : Stands c v F k i) (hended : c.Ended i) (hfun : Functional F) {X : CatRef}
    {f : Nat} {top : Bool} (hset : F (.predicts i.set X f top)) :
    ∃ q₀ body, Offers c F X q₀ ∧ c.bodyOf? q₀.head f = some body ∧
      Traced v F q₀ i.set.step body i.production k := by
  obtain ⟨hset', hoffers, hbody, htraced, hposition, hword⟩ := h
  obtain ⟨rfl, rfl, -⟩ := hfun.predicts _ _ _ _ _ _ _ hset' hset
  obtain ⟨body, hbody', hlength⟩ := hended
  rw [htraced.head_eq, hbody] at hbody'
  cases hbody'
  rw [List.take_of_length_le hlength] at htraced
  refine ⟨_, _, hoffers, hbody, ?_⟩
  rcases hword with hzero | ⟨x, ts, hx, -⟩
  · rw [hzero, Nat.add_zero] at hposition
    exact hposition ▸ htraced
  · exact absurd hx (by simp [List.getElem?_eq_none hlength])

end Stands

end Polyglot
