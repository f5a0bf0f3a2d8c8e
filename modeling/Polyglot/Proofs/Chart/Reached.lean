import Polyglot.Proofs.Chart.Extent
import Polyglot.Proofs.Chart.Running
import Polyglot.Proofs.Chart.Stages

/-!
# A chart reaches what can be reached

While a chart is built all that it knows is about stages that are reached, whatever the order of
work. When the agendas have been worked off it knows about all of them, up to its position. So two
charts for one setting agree on what is predicted, what is complete and how, although they may have
different places for it.

- `Licensed`: a fact is about stages that are reached. `Due.reached`: so is what is due then.
- `Effect.licensed`: processing an item keeps it so.
- `Saturated.exists_shows`: a chart with nothing left to do has items for all stages that are
  reached.
- `Settled.predicts_iff`, `closes_iff`, `produces_iff`: so what it predicts and completes does not
  depend on the order of work.
- `Building.Licensed`: what holds while a step is built.
-/

namespace Polyglot

variable {c : Concrete} {v : Nat → Sym} {ids : List InstanceId} {goal k : Nat}
  {F F' : Fact → Prop} {item i : Item} {new : Fact → Prop} {items : Item → Prop}

/-! ## Nothing else is known -/

/-- A fact is about stages that are reached. -/
def Licensed (c : Concrete) (v : Nat → Sym) (ids : List InstanceId) (goal : Nat)
    (F : Fact → Prop) : Fact → Prop
  | .item r i => ∃ σ, i.Shows c F σ ∧ (c.setting v ids goal).Reached r.step σ
  | .predicts S X f _ => ∃ l, Names F X l ∧ (c.setting v ids goal).Predicted S.step l f
  | .produces C q => ∃ S X n σ, F (.closes C S X σ.field n) ∧ Names F X σ.cat ∧ S.step = σ.start ∧
      q.Shows F σ.production ∧ (c.setting v ids goal).Reached C.step σ ∧
      (c.setting v ids goal).Over σ
  | _ => True

theorem Licensed.mono (hF : ∀ φ, F φ → F' φ) {φ : Fact} (h : Licensed c v ids goal F φ) :
    Licensed c v ids goal F' φ := by
  cases φ with
  | item r i =>
    obtain ⟨σ, hshows, hσ⟩ := h
    exact ⟨σ, hshows.mono hF, hσ⟩
  | predicts S X f top =>
    obtain ⟨l, hl, hpredicted⟩ := h
    exact ⟨l, hl.mono hF, hpredicted⟩
  | produces C q =>
    obtain ⟨S, X, n, σ, hdone, hX, hstart, hq, hσ⟩ := h
    exact ⟨S, X, n, σ, hF _ hdone, hX.mono hF, hstart, hq.mono hF, hσ⟩
  | _ => trivial

/-- What is due in a chart whose facts are about stages that are reached is at such a stage. -/
theorem Due.reached (hF : Sound c v ids goal F) (hL : ∀ φ, F φ → Licensed c v ids goal F φ)
    (h : Due c v F k i) : ∃ σ, i.Shows c F σ ∧ (c.setting v ids goal).Reached k σ := by
  have hfun := hF.functional
  cases h with
  | @start S X f top q hset hoffers =>
    obtain ⟨l, hl, hpredicted⟩ := hL _ hset
    cases X with
    | grammar id =>
      obtain ⟨p, hp, rfl⟩ := hoffers
      obtain rfl := hl.unique hfun (names_grammar F id)
      refine ⟨_, Item.shows_start hset hl (ChartProduction.shows_ofGrammar F p), ?_⟩
      cases hpredicted with
      | goal hk hid => exact hk ▸ .goal hid hp
      | asked h hx harg => exact .root h hx harg hp
    | chart C =>
      obtain ⟨S', X', n, τ, hdone, hX', hstart, hq, hτ, hover⟩ := hL _ hoffers
      obtain rfl := hl.unique hfun (names_result hX' hdone hstart rfl)
      refine ⟨_, Item.shows_start hset hl hq, ?_⟩
      generalize hresult : τ.result C.step = l at hpredicted
      cases hpredicted with
      | goal => simp [Stage.result] at hresult
      | asked h hx harg =>
        subst hresult
        obtain ⟨-, hle, -⟩ := hF.grounded _ hset
        exact .refine h hx harg hτ hover (hle C rfl)
  | @resume C S X f n arg g r w hdone hwaits hw hx =>
    obtain ⟨hr, X', f', top', w', arg', hset, hw', hx', harg⟩ := hF.grounded _ hwaits
    obtain rfl := hfun.item _ _ _ hw hw'
    cases hx.symm.trans hx'
    obtain ⟨-, ⟨top, hset'⟩, -, q, hq, -⟩ := hF.grounded _ hdone
    obtain ⟨rfl, rfl, -⟩ := hfun.predicts _ _ _ _ _ _ _ hset hset'
    obtain ⟨σ, hshows, hσ⟩ := hL _ hw
    obtain ⟨S', X', n', τ, hdone', hX', hstart, -, hτ, hover⟩ := hL _ hq
    obtain ⟨rfl, rfl, rfl, -⟩ := hfun.closes _ _ _ _ _ _ _ _ _ hdone hdone'
    refine ⟨_, hshows.resume harg (names_result hX' hdone hstart rfl), ?_⟩
    obtain ⟨l, harg', hl⟩ := hshows.production.exists_names harg
    obtain rfl := hl.unique hfun hX'
    exact .resume (hstart ▸ hr ▸ hσ) (hshows.next?_eq.trans hx) harg' hτ hover
  | @scan k idx w x ts hawaits hw hx hform =>
    obtain ⟨w', x', ts', hw', hx', hform', ht⟩ := hF.grounded _ hawaits
    obtain rfl := hfun.item _ _ _ hw hw'
    cases hx.symm.trans hx'
    cases hform.symm.trans hform'
    obtain ⟨σ, hshows, hσ⟩ := hL _ hw
    refine ⟨_, hshows.moved hx hform, .move hσ (hshows.mem_forms hx hform) ?_⟩
    rw [← hshows.word, ht]
    rfl

namespace Effect

/-- What an effect puts on the agenda is due, or has passed over a form without words. -/
theorem due_items (heffect : Effect c k F item new items) (hF' : ∀ φ, F' φ ↔ F φ ∨ new φ)
    (hi : items i) : Due c v F' k i ∨
      i = item.advanced ∧ item.word = 0 ∧ ∃ x, c.constituent? item = some x ∧ [] ∈ x.forms := by
  have hmono : ∀ φ, F φ → F' φ := fun φ h => (hF' φ).2 (.inl h)
  have hnew : ∀ φ, new φ → F' φ := fun φ h => (hF' φ).2 (.inr h)
  cases heffect with
  | stall | found => exact hi.elim
  | @read x hx =>
    obtain ⟨rfl, hword, hform⟩ := hi
    exact .inr ⟨rfl, hword, x, hx, hform⟩
  | join hx harg hset hS hr =>
    obtain ⟨C, X, f, n, hdone, rfl, rfl⟩ := hi
    exact .inl (.resume (hmono _ hdone) (hnew _ (.inr rfl)) (hnew _ (.inl rfl)) hx)
  | predict hx harg hnone hS hr hfree =>
    obtain ⟨q, hq, rfl⟩ := hi
    exact .inl (hS ▸ .start (hnew _ (.inr (.inl rfl))) (hq.mono hmono))
  | pack hended hdone hC =>
    obtain ⟨S, g, top, hset, rfl, rfl⟩ := hi
    exact .inl (.start (X := .chart _) (hmono _ hset) (hnew _ rfl))
  | close hended hnone hset hC hfree hn =>
    obtain ⟨r, w, arg, g, hwaits, hw, hx, rfl⟩ := hi
    exact .inl (hC ▸ .resume (hnew _ (.inl rfl)) (hmono _ hwaits) (hmono _ hw) hx)

/-- An item at its end produces what its stage does. -/
theorem licensed_produces (hF : Sound c v ids goal F) (hF' : ∀ φ, F φ → F' φ) {σ : Stage}
    (hshows : item.Shows c F σ) (hσ : (c.setting v ids goal).Reached k σ)
    (hended : c.Ended item) {C : ChartCatId} (hC : C.step = k) {X : CatRef} {f n : Nat} {top : Bool}
    (hset : F (.predicts item.set X f top)) (hdone : F' (.closes C item.set X f n)) :
    Licensed c v ids goal F' (.produces C item.production) := by
  obtain ⟨X', top', hset', hX⟩ := hshows.cat
  obtain ⟨rfl, rfl, -⟩ := hF.functional.predicts _ _ _ _ _ _ _ hset hset'
  exact ⟨item.set, X, n, σ, hshows.field ▸ hdone, hX.mono hF', hshows.start,
    hshows.production.mono hF', hC ▸ hσ, hshows.over_iff.2 hended⟩

/-- **Processing an item leads to nothing but stages that are reached.** -/
theorem licensed (hF : Sound c v ids goal F) (hsound : Sound c v ids goal F')
    (hL : ∀ φ, F φ → Licensed c v ids goal F φ) {σ : Stage} (hshows : item.Shows c F σ)
    (hσ : (c.setting v ids goal).Reached k σ) (heffect : Effect c k F item new items)
    (hF' : ∀ φ, F' φ ↔ F φ ∨ new φ) :
    (∀ φ, F' φ → Licensed c v ids goal F' φ) ∧
      ∀ i, items i → ∃ σ, i.Shows c F' σ ∧ (c.setting v ids goal).Reached k σ := by
  have hmono : ∀ φ, F φ → F' φ := fun φ h => (hF' φ).2 (.inl h)
  have hfacts : ∀ φ, new φ → Licensed c v ids goal F' φ := by
    intro φ hφ
    have hnew := hφ
    cases heffect with
    | stall | found => exact hφ.elim
    | read hx hforms waits hnext =>
      obtain ⟨t, i, idx, hwaits, rfl | rfl⟩ := hφ
      · -- What waits is the item itself but for its form.
        obtain ⟨form, ts, rfl, hform, -⟩ := hnext t i idx hwaits
        refine ⟨σ, ?_, hσ⟩
        rcases hform with hzero | rfl
        · exact (hshows.with_form hzero form).mono hmono
        · exact hshows.mono hmono
      · trivial
    | join hx harg hset hS hr =>
      obtain rfl | rfl := hφ
      · exact ⟨σ, hshows.mono hmono, hr ▸ hσ⟩
      · trivial
    | predict hx harg hnone hS hr hfree =>
      obtain rfl | rfl | rfl := hφ
      · exact ⟨σ, hshows.mono hmono, hr ▸ hσ⟩
      · obtain ⟨l, harg', hl⟩ := hshows.production.exists_names harg
        exact ⟨l, hl.mono hmono, .asked (hS ▸ hσ) (hshows.next?_eq.trans hx) harg'⟩
      · trivial
    | pack hended hdone hC =>
      obtain rfl := hφ
      obtain ⟨-, ⟨top, hset⟩, -⟩ := hF.grounded _ hdone
      exact licensed_produces hF hmono hshows hσ hended hC hset (hmono _ hdone)
    | close hended hnone hset hC hfree hn =>
      obtain rfl | rfl | ⟨-, rfl⟩ := hφ
      · trivial
      · exact licensed_produces hF hmono hshows hσ hended hC hset ((hF' _).2 (.inr (.inl rfl)))
      · trivial
  have hall : ∀ φ, F' φ → Licensed c v ids goal F' φ := fun φ hφ =>
    ((hF' φ).1 hφ).elim (fun hold => (hL φ hold).mono hmono) (hfacts φ)
  refine ⟨hall, fun i hi => ?_⟩
  rcases heffect.due_items hF' hi with hdue | ⟨rfl, hword, x, hx, hform⟩
  · exact hdue.reached hsound hall
  · obtain ⟨form, hform⟩ := Constituent.mem_forms_iff.1 hform
    refine ⟨_, hshows.advanced.mono hmono, .skip hσ (hshows.word ▸ hword) ?_⟩
    exact (hshows.with_form hword form).mem_forms hx hform

end Effect

/-! ## Everything is known in the end -/

section Complete

variable {done : Nat → Item → Prop}

/-- Where a stage has been processed that asks for a category, the category is predicted. -/
theorem Saturated.exists_predicts (hsat : Saturated c v F k (fun _ => False) done) {j : Nat}
    (hi : done j i) {σ : Stage} (hshows : i.Shows c F σ) {arg f : Nat} {l : Lineage}
    (hx : (c.setting v ids goal).next? σ = some (.sub arg f))
    (harg : σ.production.args[arg]? = some l) :
    ∃ X S top r, i.production.args[arg]? = some X ∧ Names F X l ∧ S.step = j ∧
      F (.predicts S X f top) ∧ F (.waits S r) ∧ F (.item r i) := by
  obtain ⟨X, hX, hl⟩ := hshows.production.exists_arg harg
  obtain ⟨X', S, top, r, hX', hS, hset, hwaits, hitem⟩ :=
    (hsat.served j i hi).category arg f (hshows.next?_eq.symm.trans hx)
  cases hX.symm.trans hX'
  exact ⟨X, S, top, r, hX, hl, hS, hset, hwaits, hitem⟩

/-- Where a stage has been processed that is over, its category is complete. -/
theorem Saturated.exists_closes (hF : Sound c v ids goal F)
    (hsat : Saturated c v F k (fun _ => False) done) {j : Nat} (hi : done j i) {σ : Stage}
    (hshows : i.Shows c F σ) (hover : (c.setting v ids goal).Over σ) :
    ∃ C X n, F (.closes C i.set X σ.field n) ∧ C.step = j ∧ Names F X σ.cat ∧
      F (.produces C i.production) := by
  obtain ⟨C, X, f, n, hdone, hC, hq⟩ := (hsat.served j i hi).complete (hshows.over_iff.1 hover)
  obtain ⟨-, ⟨top, hset⟩, -⟩ := hF.grounded _ hdone
  obtain ⟨X', top', hset', hX⟩ := hshows.cat
  obtain ⟨rfl, rfl, -⟩ := hF.functional.predicts _ _ _ _ _ _ _ hset hset'
  exact ⟨C, X, n, hshows.field ▸ hdone, hC, hX, hq⟩

/-- Where a stage has been processed, something waits for every word that may come next. -/
theorem Saturated.exists_awaits (hsat : Saturated c v F k (fun _ => False) done) {j : Nat}
    (hi : done j i) {σ : Stage} (hshows : i.Shows c F σ) {ts : List Sym}
    (hform : ts ∈ (c.setting v ids goal).forms σ) {t : Sym} (ht : ts[σ.word]? = some t) :
    ∃ idx w x, F (.awaits j t idx) ∧ F (.item ⟨j, idx⟩ w) ∧ w.Shows c F σ ∧
      c.constituent? w = some x ∧ x.formAt? w.form = some ts := by
  have hserved := hsat.served j i hi
  rw [Setting.forms, hshows.next?_eq] at hform
  rw [← hshows.word] at hform ht
  cases hx : c.constituent? i with
  | none => simp [hx] at hform
  | some x =>
    simp only [hx] at hform
    split at hform
    · rename_i hzero
      rw [hzero] at ht
      obtain ⟨rest, rfl⟩ : ∃ rest, ts = t :: rest := by
        cases ts with
        | nil => cases ht
        | cons t' rest =>
          cases ht
          exact ⟨rest, rfl⟩
      obtain ⟨form, idx, hts, hawaits, hitem⟩ :=
        hserved.first x t rest hx hzero (List.mem_dedup.1 hform)
      exact ⟨idx, _, x, hawaits, hitem, hshows.with_form hzero form, hx, hts⟩
    · rename_i hpos
      obtain rfl := List.mem_singleton.1 hform
      have hσ := hshows.form
      rw [if_neg hpos, hx, Option.bind_some] at hσ
      cases hts : x.formAt? i.form with
      | none => simp [← hσ, hts] at ht
      | some ts =>
        rw [hts, Option.getD_some] at hσ
        subst hσ
        obtain ⟨idx, hawaits, hitem⟩ :=
          hserved.later x _ t hx (Nat.pos_of_ne_zero hpos) hts ht
        exact ⟨idx, i, x, hawaits, hitem, hshows, hx, hts⟩

/-- **With nothing left to do there are items for all stages that are reached.** -/
theorem Saturated.exists_shows (hF : Sound c v ids goal F)
    (hsat : Saturated c v F k (fun _ => False) done)
    (hgoals : ∀ id ∈ ids, ∃ S, F (.predicts S (.grammar id) goal true)) {j : Nat} {σ : Stage}
    (h : (c.setting v ids goal).Reached j σ) (hj : j ≤ k) : ∃ i, done j i ∧ i.Shows c F σ := by
  have hall : ∀ {j i}, j ≤ k → Due c v F j i → done j i := fun hle hdue =>
    (hsat.due _ _ hle hdue).elim id fun h => h.2.elim
  induction h with
  | @goal id p hid hp =>
    obtain ⟨S, hset⟩ := hgoals id hid
    have hS : S.step = 0 := ((hF.grounded _ hset).2.2 rfl).1
    have hdue : Due c v F S.step { set := S, production := .ofGrammar p, field := goal } :=
      .start hset ⟨p, hp, rfl⟩
    have hshows := Item.shows_start (c := c) hset (names_grammar F id)
      (ChartProduction.shows_ofGrammar F p)
    rw [hS] at hdue hshows
    exact ⟨_, hall hj hdue, hshows⟩
  | @root j arg f σ id p _ hx harg hp ih =>
    obtain ⟨i, hi, hshows⟩ := ih hj
    obtain ⟨X, S, top, r, -, hX, rfl, hset, -⟩ := hsat.exists_predicts hi hshows hx harg
    obtain rfl := hF.eq_of_chain hX (names_grammar F id)
    exact ⟨_, hall hj (.start hset ⟨p, hp, rfl⟩), Item.shows_start hset hX
      (ChartProduction.shows_ofGrammar F p)⟩
  | @refine j' j arg f σ τ _ hx harg _ hover hle ih ihτ =>
    obtain ⟨i, hi, hshows⟩ := ih hj
    obtain ⟨i', hi', hshows'⟩ := ihτ (hle.trans hj)
    obtain ⟨X, S, top, r, -, hX, rfl, hset, -⟩ := hsat.exists_predicts hi hshows hx harg
    obtain ⟨C, X', n, hdone, rfl, hX', hq⟩ := hsat.exists_closes hF hi' hshows' hover
    have hC := names_result hX' hdone hshows'.start rfl
    obtain rfl := hF.eq_of_chain hX hC
    exact ⟨_, hall hj (.start hset hq), Item.shows_start hset hC hshows'.production⟩
  | @skip j σ _ hword hform ih =>
    obtain ⟨i, hi, hshows⟩ := ih hj
    rw [Setting.forms, hshows.next?_eq] at hform
    cases hx : c.constituent? i with
    | none => simp [hx] at hform
    | some x =>
      simp only [hx, if_pos hword] at hform
      have htodo := (hsat.served j i hi).skip x hx (hshows.word.trans hword)
        (List.mem_dedup.1 hform)
      exact ⟨_, htodo.elim id fun h => h.2.elim, hshows.advanced⟩
  | @move j σ ts _ hform ht ih =>
    obtain ⟨i, hi, hshows⟩ := ih (Nat.le_of_succ_le hj)
    obtain ⟨idx, w, x, hawaits, hw, hshows', hx, hts⟩ := hsat.exists_awaits hi hshows hform ht
    exact ⟨_, hall hj (.scan hawaits hw hx hts), hshows'.moved hx hts⟩
  | @resume j arg σ τ _ hx harg hτ hover ih ihτ =>
    obtain ⟨i, hi, hshows⟩ := ih (hτ.start_le.trans hj)
    obtain ⟨i', hi', hshows'⟩ := ihτ hj
    obtain ⟨X, S, top, r, hX, hnames, hS, hset, hwaits, hitem⟩ :=
      hsat.exists_predicts hi hshows hx harg
    obtain ⟨C, X', n, hdone, rfl, hX', -⟩ := hsat.exists_closes hF hi' hshows' hover
    obtain rfl := hF.eq_of_chain hnames hX'
    -- The category completes the very set that the item waits for.
    obtain ⟨-, ⟨top', hset'⟩, -⟩ := hF.grounded _ hdone
    obtain rfl := hF.predicts_once _ _ _ _ _ _ hset hset' (hS.trans hshows'.start.symm)
    exact ⟨_, hall hj (.resume hdone hwaits hitem (hshows.next?_eq.symm.trans hx)),
      hshows.resume hX (names_result hX' hdone hS rfl)⟩

end Complete

/-! ## What is known in the end -/

/-- What is complete has been read to its end. -/
theorem Sound.exists_closed (hF : Sound c v ids goal F)
    (hL : ∀ φ, F φ → Licensed c v ids goal F φ) {C : ChartCatId} {S : ItemSetRef} {X : CatRef}
    {f n : Nat} (hdone : F (.closes C S X f n)) :
    ∃ l, Names F X l ∧ (c.setting v ids goal).Closed C.step S.step l f := by
  obtain ⟨-, -, -, q, hq, -⟩ := hF.grounded _ hdone
  obtain ⟨S', X', n', σ, hdone', hX', hstart, -, hσ, hover⟩ := hL _ hq
  obtain ⟨rfl, rfl, rfl, -⟩ := hF.functional.closes _ _ _ _ _ _ _ _ _ hdone hdone'
  exact ⟨σ.cat, hX', σ, hσ, hover, hstart.symm, rfl, rfl⟩

/-- So has what is produced. -/
theorem Licensed.exists_produced {C : ChartCatId} {q : ChartProduction}
    (h : Licensed c v ids goal F (.produces C q)) :
    ∃ l s, Names F (.chart C) l ∧ q.Shows F s ∧ (c.setting v ids goal).Produced C.step l s := by
  obtain ⟨S, X, n, σ, hdone, hX, hstart, hs, hσ, hover⟩ := h
  exact ⟨_, _, names_result hX hdone hstart rfl, hs, σ, hσ, hover, rfl, rfl⟩

/-- What holds of the facts of a chart up to a position, when nothing is left to do there. -/
structure Settled (c : Concrete) (v : Nat → Sym) (ids : List InstanceId) (goal k : Nat)
    (F : Fact → Prop) : Prop where
  sound : Sound c v ids goal F
  licensed : ∀ φ, F φ → Licensed c v ids goal F φ
  saturated : ∃ done, Saturated c v F k (fun _ => False) done
  goals : ∀ id ∈ ids, ∃ S, F (.predicts S (.grammar id) goal true)

namespace Settled

variable (h : Settled c v ids goal k F) {j : Nat} {l : Lineage}
include h

/-- What is predicted at a position is what is asked for there. -/
theorem predicts_iff (hj : j ≤ k) {f : Nat} :
    (∃ S X top, F (.predicts S X f top) ∧ S.step = j ∧ Names F X l) ↔
      (c.setting v ids goal).Predicted j l f := by
  obtain ⟨hF, hL, ⟨done, hsat⟩, hgoals⟩ := h
  constructor
  · rintro ⟨S, X, top, hset, rfl, hX⟩
    obtain ⟨l', hl', hpredicted⟩ := hL _ hset
    obtain rfl := hX.unique hF.functional hl'
    exact hpredicted
  · rintro (⟨rfl, hid⟩ | ⟨hσ, hx, harg⟩)
    · obtain ⟨S, hset⟩ := hgoals _ hid
      exact ⟨S, _, true, hset, ((hF.grounded _ hset).2.2 rfl).1, names_grammar F _⟩
    · obtain ⟨i, hi, hshows⟩ := hsat.exists_shows hF hgoals hσ hj
      obtain ⟨X, S, top, r, -, hX, hS, hset, -⟩ := hsat.exists_predicts hi hshows hx harg
      exact ⟨S, X, top, hset, hS, hX⟩

/-- What is complete at a position is what has been read to its end there. -/
theorem closes_iff (hj : j ≤ k) {start f : Nat} :
    (∃ C S X n, F (.closes C S X f n) ∧ C.step = j ∧ S.step = start ∧ Names F X l) ↔
      (c.setting v ids goal).Closed j start l f := by
  obtain ⟨hF, hL, ⟨done, hsat⟩, hgoals⟩ := h
  constructor
  · rintro ⟨C, S, X, n, hdone, rfl, rfl, hX⟩
    obtain ⟨l', hl', hclosed⟩ := hF.exists_closed hL hdone
    obtain rfl := hX.unique hF.functional hl'
    exact hclosed
  · rintro ⟨σ, hσ, hover, rfl, rfl, rfl⟩
    obtain ⟨i, hi, hshows⟩ := hsat.exists_shows hF hgoals hσ hj
    obtain ⟨C, X, n, hdone, hC, hX, -⟩ := hsat.exists_closes hF hi hshows hover
    exact ⟨C, _, X, n, hdone, hC, hshows.start, hX⟩

/-- What is produced at a position is what has been read to the end of a field there. -/
theorem produces_iff (hj : j ≤ k) {s : Sketch} :
    (∃ C q, F (.produces C q) ∧ C.step = j ∧ Names F (.chart C) l ∧ q.Shows F s) ↔
      (c.setting v ids goal).Produced j l s := by
  obtain ⟨hF, hL, ⟨done, hsat⟩, hgoals⟩ := h
  constructor
  · rintro ⟨C, q, hq, rfl, hC, hs⟩
    obtain ⟨l', s', hC', hs', hproduced⟩ := (hL _ hq).exists_produced
    obtain rfl := hC.unique hF.functional hC'
    obtain rfl := hs.unique hF.functional hs'
    exact hproduced
  · rintro ⟨σ, hσ, hover, rfl, rfl⟩
    obtain ⟨i, hi, hshows⟩ := hsat.exists_shows hF hgoals hσ hj
    obtain ⟨C, X, n, hdone, rfl, hX, hq⟩ := hsat.exists_closes hF hi hshows hover
    exact ⟨C, _, hq, rfl, names_result hX hdone hshows.start rfl, hshows.production⟩

end Settled

/-! ## Building a step -/

namespace Building

variable {b b' : Building}

/-- A step in the making is about stages that are reached. -/
structure Licensed (c : Concrete) (v : Nat → Sym) (ids : List InstanceId) (goal : Nat)
    (b : Building) : Prop where
  facts : ∀ φ, b.facts φ → Polyglot.Licensed c v ids goal b.facts φ
  agenda : ∀ i ∈ b.agenda, ∃ σ, i.Shows c b.facts σ ∧ (c.setting v ids goal).Reached b.index σ

/-- One round of work keeps it so. -/
theorem Licensed.next? (hwf : c.WellFormed) (h : b.Licensed c v ids goal)
    (hruns : b.Runs c v ids goal) (hnext : b.next? = some b') : b'.Licensed c v ids goal := by
  obtain ⟨item, agenda, -, hagenda, rfl⟩ := next?_eq_some hnext
  let b₀ : Building := { b with agenda }
  have hmem : item ∈ b.agenda := hagenda ▸ List.mem_cons_self
  have hitem : Stands c v b₀.facts b₀.index item := hruns.agenda item hmem
  obtain ⟨new, items, heffect, hadds⟩ :=
    exists_effect (b := b₀) hwf hruns.sound hruns.concrete hitem
  obtain ⟨hsound, -⟩ := hruns.sound.effect hwf (fun _ => step_le_index) hitem heffect
    hadds.facts (chartFacts_functional _)
  obtain ⟨σ, hshows, hσ⟩ := h.agenda item hmem
  obtain ⟨hfacts, hitems⟩ :=
    heffect.licensed hruns.sound hsound h.facts hshows hσ hadds.facts
  refine ⟨hfacts, fun i hi => ?_⟩
  have hindex : (b₀.process item).index = b.index := hadds.index
  rw [hindex]
  rcases (hadds.agenda i).1 hi with hi | hi
  · obtain ⟨σ, hshows, hσ⟩ := h.agenda i (hagenda ▸ List.mem_cons_of_mem _ hi)
    exact ⟨σ, hshows.mono fun φ hφ => (hadds.facts φ).2 (.inl hφ), hσ⟩
  · exact hitems i hi

end Building

end Polyglot
