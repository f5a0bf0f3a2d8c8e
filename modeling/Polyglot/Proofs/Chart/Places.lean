import Polyglot.Proofs.Chart.Posting
import Polyglot.Proofs.Chart.Reached
import Polyglot.Proofs.Chart.Tally

/-!
# What the items and the places of a chart stand for

An item of which enough is known shows a single stage, and what the item asks for, goes on to and
waits for is what the stage does, as often. Likewise each place of a step stands for something that
is predicted or complete at its position, and no two places stand for the same. Where nothing is
left to do there is a place for all of it.

- `Item.stage`, `CatRef.lineage`, `ChartProduction.sketch`: what is left when references are
  forgotten.
- `Item.Shows.asked?_iff`, `resumed`, `skips`, `awaits`: items do what their stages do.
- `range_prediction`, `range_completion`: the places of a step, with `prediction_injective` and
  `completion_injective`.
- `Settled.mem_sketches_iff`: the productions of a category.
-/

namespace Polyglot

variable {c : Concrete} {v : Nat → Sym} {ids : List InstanceId} {goal k : Nat} {F F' : Fact → Prop}
  {X : CatRef} {l : Lineage} {q : ChartProduction} {s : Sketch} {i : Item} {σ : Stage}

/-! ## The stage of an item -/

/-- The lineage of a category of which something is known. -/
noncomputable def CatRef.lineage (F : Fact → Prop) (X : CatRef) : Lineage :=
  Classical.epsilon (Names F X)

/-- A production without its references. -/
noncomputable def ChartProduction.sketch (F : Fact → Prop) (q : ChartProduction) : Sketch :=
  ⟨q.head, q.args.map (CatRef.lineage F)⟩

/-- The stage of an item of which something is known. -/
noncomputable def Item.stage (c : Concrete) (F : Fact → Prop) (i : Item) : Stage :=
  Classical.epsilon (i.Shows c F)

theorem Names.names_lineage (h : Names F X l) : Names F X (X.lineage F) :=
  Classical.epsilon_spec ⟨l, h⟩

theorem Names.lineage_eq (hF : Functional F) (h : Names F X l) : X.lineage F = l :=
  h.names_lineage.unique hF h

/-- What was read last of a category ends where the category is complete. -/
theorem Names.exists_closes {C : ChartCatId} (h : Names F (.chart C) l) :
    ∃ S X f n l₀, F (.closes C S X f n) ∧ Names F X l₀ ∧
      l = ⟨l₀.root, l₀.spans ++ [⟨f, S.step, C.step⟩]⟩ := by
  obtain ⟨root, spans⟩ := l
  cases h with
  | @chart _ S X f n _ L hdone hchain => exact ⟨S, X, f, n, ⟨root, L⟩, hdone, hchain, rfl⟩

theorem ChartProduction.Shows.sketch_eq (hF : Functional F) (h : q.Shows F s) :
    q.sketch F = s := by
  refine Shows.unique hF ⟨rfl, ?_⟩ h
  rw [sketch, List.forall₂_map_right_iff, List.forall₂_same]
  intro X hX
  obtain ⟨arg, harg, rfl⟩ := List.mem_iff_getElem.1 hX
  obtain ⟨l, -, hl⟩ := h.exists_names (List.getElem?_eq_getElem harg)
  exact hl.names_lineage

theorem Item.Shows.stage_eq (hF : Functional F) (h : i.Shows c F σ) : i.stage c F = σ :=
  Item.Shows.unique hF (Classical.epsilon_spec ⟨σ, h⟩) h

/-- Productions with the same lineages are the same. -/
theorem Sound.eq_of_shows (hF : Sound c v ids goal F) {q' : ChartProduction} (h : q.Shows F s)
    (h' : q'.Shows F s) : q = q' := by
  refine ChartProduction.eq_of_head_args (h.head.trans h'.head.symm) ?_
  refine List.ext_getElem (h.args.length_eq.trans h'.args.length_eq.symm) fun arg harg harg' => ?_
  obtain ⟨l, hl, hX⟩ := h.exists_names (List.getElem?_eq_getElem harg)
  obtain ⟨l', hl', hX'⟩ := h'.exists_names (List.getElem?_eq_getElem harg')
  cases hl.symm.trans hl'
  exact hF.eq_of_chain hX hX'

/-- So productions that are all different have different sketches. -/
theorem Sound.nodup_sketches (hF : Sound c v ids goal F) {qs : List ChartProduction}
    (hqs : qs.Nodup) (hshows : ∀ q ∈ qs, ∃ s, q.Shows F s) :
    (qs.map (ChartProduction.sketch F)).Nodup := by
  refine List.Nodup.map_on (fun q hq q' hq' heq => ?_) hqs
  obtain ⟨s, hs⟩ := hshows q hq
  obtain ⟨s', hs'⟩ := hshows q' hq'
  rw [hs.sketch_eq hF.functional, hs'.sketch_eq hF.functional] at heq
  exact hF.eq_of_shows hs (heq ▸ hs')

/-- An item past the word that it waits for. -/
def Concrete.pastWord (c : Concrete) (i : Item) : Item :=
  i.moved (((c.constituent? i).bind (·.formAt? i.form)).getD []).length

theorem Concrete.pastWord_of_form {x : Constituent} (hx : c.constituent? i = some x)
    {ts : List Sym} (hform : x.formAt? i.form = some ts) : c.pastWord i = i.moved ts.length := by
  rw [pastWord, hx, Option.bind_some, hform]
  rfl

namespace Item.Shows

/-- Items ask for what their stages ask for. -/
theorem asked?_iff (h : i.Shows c F σ) (hF : Sound c v ids goal F) (hX : Names F X l) {f : Nat} :
    c.asked? i = some (X, f) ↔ (c.setting v ids goal).asked? σ = some (l, f) := by
  rw [Concrete.asked?, Setting.asked?, h.next?_eq]
  cases c.constituent? i with
  | none => simp
  | some x =>
    cases x with
    | sub arg g =>
      simp only [Option.map_eq_some_iff, Prod.mk.injEq]
      constructor
      · rintro ⟨X', hX', rfl, rfl⟩
        obtain ⟨l', hl', hnames⟩ := h.production.exists_names hX'
        exact ⟨l', hl', hnames.unique hF.functional hX, rfl⟩
      · rintro ⟨l', hl', rfl, rfl⟩
        obtain ⟨X', hX', hnames⟩ := h.production.exists_arg hl'
        exact ⟨X', hX', hF.eq_of_chain hnames hX, rfl⟩
    | _ => simp

theorem resumed (h : i.Shows c F σ) {f : Nat} (hask : c.asked? i = some (X, f)) {C : ChartCatId}
    (hC : Names F (.chart C) l) :
    (c.resumed i C).Shows c F ((c.setting v ids goal).resumed l σ) := by
  obtain ⟨arg, hx, hX⟩ := Concrete.exists_of_asked? hask
  rw [Concrete.resumed_of_sub hx, Setting.resumed, h.next?_eq, hx]
  exact h.resume hX hC

theorem skips (h : i.Shows c F σ) (hF : Functional F) :
    (c.skips i).map (Item.stage c F) = (c.setting v ids goal).skips σ := by
  rw [Concrete.skips, Setting.skips, Setting.forms, h.next?_eq, ← h.word]
  cases c.constituent? i with
  | none => simp
  | some x =>
    by_cases hword : i.word = 0
    · simp only [hword, if_true, true_and, List.mem_dedup]
      split
      · rw [Multiset.map_singleton, h.advanced.stage_eq hF]
      · rfl
    · simp [hword]

theorem stage_pastWord (h : i.Shows c F σ) (hF : Functional F) {x : Constituent}
    (hx : c.constituent? i = some x) {ts : List Sym} (hform : x.formAt? i.form = some ts) :
    (c.pastWord i).stage c F = σ.moved ts := by
  rw [Concrete.pastWord_of_form hx hform, (h.moved hx hform).stage_eq hF]

/-- Of several forms an item waits for the first words, as its stage does. -/
theorem firstWords (h : i.Shows c F σ) (hF : Functional F) {w : Variants}
    (hx : c.constituent? i = some (.variants w)) (hword : i.word = 0) :
    ((w.distinctForms.filterMap fun (ts, form) => ts.head?.map (·, { i with form })).map
      fun e => (e.1, (c.pastWord e.2).stage c F)).Perm
      (w.forms.dedup.filterMap fun ts => ts[i.word]?.map (·, σ.moved ts)) := by
  have heq : (w.distinctForms.filterMap fun (ts, form) => ts.head?.map (·, { i with form })).map
      (fun e => (e.1, (c.pastWord e.2).stage c F)) =
      (w.distinctForms.map Prod.fst).filterMap fun ts => ts[i.word]?.map (·, σ.moved ts) := by
    rw [List.map_filterMap, List.filterMap_map]
    refine List.filterMap_congr fun ⟨ts, form⟩ hmem => ?_
    have hform := Variants.form?_of_mem_distinctForms hmem
    have hstage := stage_pastWord (h.with_form hword form) hF hx hform
    have hfirst : ts[i.word]? = ts.head? := by rw [hword, List.head?_eq_getElem?]
    simp only [Option.map_map, Function.comp_apply, hfirst]
    congr 1
    funext t
    simp only [Function.comp_apply, hstage]
  rw [heq]
  exact w.perm_distinctForms.filterMap _

/-- An item waits for the words that its stage waits for. -/
theorem awaits (h : i.Shows c F σ) (hF : Functional F) :
    (c.awaits i : Multiset (Sym × Item)).map (fun e => (e.1, (c.pastWord e.2).stage c F)) =
      ((c.setting v ids goal).awaits σ : Multiset (Sym × Stage)) := by
  rw [Concrete.awaits, Setting.awaits, Setting.forms, h.next?_eq, ← h.word]
  have hform := h.form
  cases hx : c.constituent? i with
  | none => simp
  | some x =>
    rw [hx, Option.bind_some] at hform
    cases x with
    | tokens ts =>
      have hts : (if i.word = 0 then (Constituent.tokens ts).forms.dedup else [σ.form]) = [ts] := by
        split
        · simp [Constituent.formsBy]
        · rename_i hpos
          rw [← hform, if_neg hpos]
          rfl
      dsimp only
      rw [hts]
      cases ht : ts[i.word]? with
      | none => simp [ht]
      | some t => simp [ht, h.stage_pastWord hF hx rfl]
    | variants w =>
      by_cases hpos : 0 < i.word
      · rw [if_neg (Nat.ne_of_gt hpos)] at hform
        simp only [if_pos hpos, if_neg (Nat.ne_of_gt hpos)]
        cases hts : w.form? i.form with
        | none => simp [← hform, Constituent.formAt?, hts]
        | some ts =>
          obtain rfl : ts = σ.form := by rw [← hform, Constituent.formAt?, hts]; rfl
          cases ht : σ.form[i.word]? with
          | none => simp [ht]
          | some t => simp [ht, h.stage_pastWord hF hx hts]
      · have hword : i.word = 0 := Nat.eq_zero_of_not_pos hpos
        simp only [if_neg hpos, if_pos hword]
        exact Multiset.coe_eq_coe.2 (h.firstWords hF hx hword)
    | _ =>
      by_cases hpos : i.word = 0
      · simp [hpos, Constituent.formsBy]
      · rw [if_neg hpos] at hform
        simp [hpos, ← hform, Constituent.formAt?]

end Item.Shows

/-! ## Places -/

section Places

variable {steps : Array Step} {s : Step} (hs : steps[k]? = some s)

/-- The prediction at a place of a step. -/
noncomputable def Step.prediction (F : Fact → Prop) (s : Step) (i : Fin s.itemSets.size) :
    Lineage × Nat :=
  (s.itemSets[i].cat.lineage F, s.itemSets[i].field)

/-- What is complete at a place of a step: a field of a category that begins somewhere. -/
noncomputable def Step.completion (F : Fact → Prop) (s : Step) (j : Fin s.cats.size) :
    Nat × Lineage × Nat :=
  (s.cats[j].set.step, s.cats[j].cat.lineage F, s.cats[j].field)

include hs

theorem predicts_at (i : Fin s.itemSets.size) :
    chartFacts steps (.predicts ⟨k, i⟩ s.itemSets[i].cat s.itemSets[i].field s.itemSets[i].top) :=
  ⟨k, s, hs, rfl, _, Array.getElem?_eq_getElem i.isLt, rfl, rfl, rfl⟩

theorem closes_at (j : Fin s.cats.size) :
    chartFacts steps (.closes ⟨k, j⟩ s.cats[j].set s.cats[j].cat s.cats[j].field
      s.cats[j].fieldCount) :=
  ⟨k, s, hs, rfl, _, Array.getElem?_eq_getElem j.isLt, rfl, rfl, rfl, rfl⟩

theorem produces_at (j : Fin s.cats.size) {q : ChartProduction} (hq : q ∈ s.cats[j].productions) :
    chartFacts steps (.produces ⟨k, j⟩ q) :=
  ⟨k, s, hs, rfl, _, Array.getElem?_eq_getElem j.isLt, hq⟩

section Known

variable (hF : Sound c v ids goal (chartFacts steps))
  (hL : ∀ φ, chartFacts steps φ → Licensed c v ids goal (chartFacts steps) φ)
include hF hL

omit hF in
theorem names_prediction (i : Fin s.itemSets.size) :
    Names (chartFacts steps) s.itemSets[i].cat (s.prediction (chartFacts steps) i).1 := by
  obtain ⟨l, hl, -⟩ := hL _ (predicts_at hs i)
  exact hl.names_lineage

/-- What a step predicts is asked for. -/
theorem prediction_mem (i : Fin s.itemSets.size) :
    s.prediction (chartFacts steps) i ∈ (c.setting v ids goal).predictions k := by
  obtain ⟨l, hl, hpredicted⟩ := hL _ (predicts_at hs i)
  rwa [Step.prediction, hl.lineage_eq hF.functional]

/-- A step predicts nothing twice. -/
theorem prediction_injective : Function.Injective (s.prediction (chartFacts steps)) := by
  intro i j hij
  obtain ⟨hlineage, hfield⟩ := Prod.mk.inj hij
  have hi := predicts_at hs i
  have hj := predicts_at hs j
  have hcat : s.itemSets[i].cat = s.itemSets[j].cat :=
    hF.eq_of_chain (names_prediction hs hL i) (hij ▸ names_prediction hs hL j)
  rw [hcat, hfield] at hi
  have hset := hF.predicts_once _ _ _ _ _ _ hi hj rfl
  exact Fin.ext (congrArg ItemSetRef.idx hset)

theorem names_completion (j : Fin s.cats.size) :
    Names (chartFacts steps) s.cats[j].cat (s.completion (chartFacts steps) j).2.1 := by
  obtain ⟨l, hl, -⟩ := hF.exists_closed hL (closes_at hs j)
  exact hl.names_lineage

/-- What a step completes has been read to its end. -/
theorem completion_mem (j : Fin s.cats.size) :
    s.completion (chartFacts steps) j ∈ (c.setting v ids goal).completions k := by
  obtain ⟨l, hl, hclosed⟩ := hF.exists_closed hL (closes_at hs j)
  rwa [Step.completion, hl.lineage_eq hF.functional]

/-- A step completes nothing twice. -/
theorem completion_injective : Function.Injective (s.completion (chartFacts steps)) := by
  intro i j hij
  simp only [Step.completion, Prod.mk.injEq] at hij
  obtain ⟨hstart, hlineage, hfield⟩ := hij
  have hi := closes_at hs i
  have hj := closes_at hs j
  have hnames := names_completion hs hF hL j
  rw [Step.completion, ← hlineage] at hnames
  have hcat := hF.eq_of_chain (names_completion hs hF hL i) hnames
  obtain ⟨-, ⟨top, hset⟩, -⟩ := hF.grounded _ hi
  obtain ⟨-, ⟨top', hset'⟩, -⟩ := hF.grounded _ hj
  rw [hcat, hfield] at hset
  have heq := hF.predicts_once _ _ _ _ _ _ hset hset' hstart
  rw [heq] at hi
  exact Fin.ext (congrArg ChartCatId.idx (hF.closes_once _ _ _ _ _ _ _ _ _ hi hj rfl))

end Known

variable {n : Nat} (h : Settled c v ids goal n (chartFacts steps)) (hk : k ≤ n)
include h hk

/-- A step that is settled predicts all that is asked for. -/
theorem range_prediction : Set.range (s.prediction (chartFacts steps)) =
    (c.setting v ids goal).predictions k := by
  refine Set.Subset.antisymm ?_ fun ⟨l, f⟩ hx => ?_
  · rintro _ ⟨i, rfl⟩
    exact prediction_mem hs h.sound h.licensed i
  · obtain ⟨S, X, top, hset, rfl, hX⟩ := (h.predicts_iff hk).2 hx
    obtain ⟨k, s', hs', rfl, set, hidx, rfl, rfl, rfl⟩ := hset
    cases hs.symm.trans hs'
    obtain ⟨hlt, rfl⟩ := Array.getElem?_eq_some_iff.1 hidx
    exact ⟨⟨S.idx, hlt⟩, Prod.ext (hX.lineage_eq h.sound.functional) rfl⟩

/-- A step that is settled completes all that has been read to its end. -/
theorem range_completion : Set.range (s.completion (chartFacts steps)) =
    (c.setting v ids goal).completions k := by
  refine Set.Subset.antisymm ?_ fun ⟨start, l, f⟩ hy => ?_
  · rintro _ ⟨j, rfl⟩
    exact completion_mem hs h.sound h.licensed j
  · obtain ⟨C, S, X, n, hdone, rfl, rfl, hX⟩ := (h.closes_iff hk).2 hy
    obtain ⟨k, s', hs', rfl, cat, hidx, rfl, rfl, rfl, rfl⟩ := hdone
    cases hs.symm.trans hs'
    obtain ⟨hlt, rfl⟩ := Array.getElem?_eq_some_iff.1 hidx
    exact ⟨⟨C.idx, hlt⟩, Prod.ext rfl (Prod.ext (hX.lineage_eq h.sound.functional) rfl)⟩

end Places

section Productions

variable {steps : Array Step} {n : Nat} {C : ChartCatId} {step : Step} {cat : ChartCat}
  (h : Settled c v ids goal n (chartFacts steps)) (hs : steps[C.step]? = some step)
  (hcat : step.cats[C.idx]? = some cat)
include h hs hcat

/-- The productions of a category are those that have been read of its lineage. -/
theorem Settled.mem_sketches_iff (hC : C.step ≤ n) (hX : Names (chartFacts steps) (.chart C) l) :
    s ∈ cat.productions.map (ChartProduction.sketch (chartFacts steps)) ↔
      (c.setting v ids goal).Produced C.step l s := by
  have hF := h.sound
  constructor
  · intro hmem
    obtain ⟨q, hq, rfl⟩ := List.mem_map.1 hmem
    have hproduces : chartFacts steps (.produces C q) := ⟨_, step, hs, rfl, cat, hcat, hq⟩
    obtain ⟨l', s, hl', hs', hproduced⟩ := (h.licensed _ hproduces).exists_produced
    obtain rfl := hX.unique hF.functional hl'
    rwa [hs'.sketch_eq hF.functional]
  · intro hproduced
    obtain ⟨C', q, ⟨k, step', hs', rfl, cat', hcat', hq⟩, hstep, hX', hshows⟩ :=
      (h.produces_iff hC).2 hproduced
    obtain rfl := CatRef.chart.inj (hF.eq_of_chain hX hX')
    cases hs.symm.trans hs'
    cases hcat.symm.trans hcat'
    exact List.mem_map.2 ⟨q, hq, hshows.sketch_eq hF.functional⟩

/-- None of them comes twice. -/
theorem Settled.nodup_sketches (hdistinct : step.Distinct) :
    (cat.productions.map (ChartProduction.sketch (chartFacts steps))).Nodup := by
  refine h.sound.nodup_sketches (hdistinct cat (Array.mem_of_getElem? hcat)) fun q hq => ?_
  have hproduces : chartFacts steps (.produces C q) := ⟨_, step, hs, rfl, cat, hcat, hq⟩
  obtain ⟨-, s, -, hshows, -⟩ := (h.licensed _ hproduces).exists_produced
  exact ⟨s, hshows⟩

end Productions

end Polyglot
