import Polyglot.Proofs.Chart.Copies
import Polyglot.Proofs.Chart.Growth
import Polyglot.Proofs.Chart.Width

/-!
# How far a step can grow

A category is told from all others of its step by what was read of it, and where fields are read
within their quotas there are only so many stretches that this can be. So there are so many
categories at a position, so many predictions, and so many productions over them; and no category
has a production twice.

- `Sound.eq_of_chain`: what was read of a category tells which one it is.
- `Spare.length_le`: a bound on how much was read of a category.
- `Building.Frugal`: what keeps a step from growing without end, and `Frugal.next?`: every round
  keeps it.
- `exists_extent_le`: the bound on the growth of a step.
-/

namespace Polyglot

/-! ## Finite sets -/

section Finite

variable {α : Type}

/-- There are so many lists of a length over so many members. -/
theorem finite_lists {s : Set α} (hs : s.Finite) (n : Nat) :
    {l : List α | l.length ≤ n ∧ ∀ a ∈ l, a ∈ s}.Finite := by
  have := hs.to_subtype
  refine ((List.finite_length_le s n).image (List.map Subtype.val)).subset ?_
  rintro l ⟨hlength, hl⟩
  lift l to List s using hl
  exact ⟨l, by simpa using hlength, rfl⟩

/-- Places that can be told apart by something of which there is so much. -/
theorem le_ncard_of_rel {s : Set α} (hs : s.Finite) {n : Nat} {R : Nat → α → Prop}
    (hex : ∀ i < n, ∃ a ∈ s, R i a) (hone : ∀ i j a, R i a → R j a → i = j) : n ≤ s.ncard := by
  choose f hf using fun i : Fin n => hex i i.isLt
  have hinj : Function.Injective f := fun i j hij =>
    Fin.ext (hone i j (f i) (hf i).2 (hij ▸ (hf j).2))
  have hcard := Set.ncard_le_ncard (s := Set.range f) (Set.range_subset_iff.2 fun i => (hf i).1) hs
  rwa [Set.ncard_range_of_injective hinj, Nat.card_fin] at hcard

theorem length_le_ncard_of_nodup {s : Set α} (hs : s.Finite) {l : List α} (hl : l.Nodup)
    (h : ∀ a ∈ l, a ∈ s) : l.length ≤ s.ncard := by
  classical
  rw [← List.toFinset_card_of_nodup hl, ← Set.ncard_coe_finset]
  exact Set.ncard_le_ncard (fun a ha => h a (by simpa using ha)) hs

end Finite

variable {c : Concrete} {v : Nat → Sym} {ids : List InstanceId} {goal k most : Nat}
  {F : Fact → Prop}

/-! ## What was read of a category tells which one it is -/

theorem Sound.eq_of_chain (hF : Sound c v ids goal F) {X X' : CatRef} {id : InstanceId}
    {L : List Span} (h : Chain F X id L) (h' : Chain F X' id L) : X = X' := by
  induction h generalizing X' with
  | grammar id =>
    generalize hL : ([] : List Span) = L' at h'
    cases h' with
    | grammar => rfl
    | chart => simp at hL
  | @chart done S X f n id L hdone _ ih =>
    generalize hL : L ++ [⟨f, S.step, done.step⟩] = L' at h'
    cases h' with
    | grammar => simp at hL
    | @chart done' S' X' f' n' _ L' hdone' hchain' =>
      obtain ⟨rfl, hspan⟩ := List.append_inj' hL rfl
      simp only [List.cons.injEq, Span.mk.injEq, and_true] at hspan
      obtain ⟨rfl, hS, hC⟩ := hspan
      obtain rfl := ih hchain'
      obtain ⟨-, ⟨top, hset⟩, -⟩ := hF.grounded _ hdone
      obtain ⟨-, ⟨top', hset'⟩, -⟩ := hF.grounded _ hdone'
      obtain rfl := hF.predicts_once _ _ _ _ _ _ hset hset' hS
      rw [hF.closes_once _ _ _ _ _ _ _ _ _ hdone hdone' hC]

/-- The stretches of an input up to a position, for all fields that there are. -/
def Concrete.spansUpTo (c : Concrete) (k : Nat) : Set Span :=
  {s | (∃ id, c.HasField id s.field) ∧ s.start ≤ k ∧ s.stop ≤ k}

theorem Concrete.finite_fieldNumbers (c : Concrete) : {f : Nat | ∃ id, c.HasField id f}.Finite :=
  (c.finite_fields.image Prod.snd).subset fun f ⟨id, h⟩ => ⟨(id, f), h, rfl⟩

theorem Concrete.finite_spansUpTo (c : Concrete) (k : Nat) : (c.spansUpTo k).Finite := by
  have hk := Set.finite_le_nat k
  refine ((c.finite_fieldNumbers.prod (hk.prod hk)).image
    fun x : Nat × Nat × Nat => (⟨x.1, x.2.1, x.2.2⟩ : Span)).subset ?_
  rintro ⟨f, start, stop⟩ ⟨hf, hstart, hstop⟩
  exact ⟨(f, start, stop), ⟨hf, hstart, hstop⟩, rfl⟩

/-- The largest of all quotas. -/
noncomputable def Concrete.mostQuota (c : Concrete) (most : Nat) : Nat :=
  (3 * most + 3) ^ ({y : InstanceId × Nat | c.HasField y.1 y.2}.ncard + 1)

theorem Concrete.quota_le (c : Concrete) (most : Nat) (x : InstanceId × Nat) :
    c.quota most x ≤ c.mostQuota most :=
  Nat.pow_le_pow_right (Nat.succ_pos _) (c.weight_le x)

/-- Within the quotas only so much is read of a category. -/
theorem Spare.length_le (h : Spare c most F) (hF : Sound c v ids goal F)
    (hbound : ∀ φ, F φ → φ.step ≤ k) {X : CatRef} {id : InstanceId} {L : List Span}
    (hchain : Chain F X id L) :
    L.length ≤ (c.spansUpTo k).ncard * c.mostQuota most ∧ ∀ s ∈ L, s ∈ c.spansUpTo k := by
  classical
  have horderly := hF.orderly_of_bound hbound hchain
  have hmem : ∀ s ∈ L, s ∈ c.spansUpTo k := fun s hs =>
    ⟨⟨id, horderly.hasField s hs⟩,
      Nat.le_trans (horderly.start_le s hs) (horderly.stop_le s hs), horderly.stop_le s hs⟩
  -- A stretch comes up as often at most as its field is read where it starts.
  have hcount : ∀ s ∈ L, L.count s ≤ c.mostQuota most := by
    intro s hs
    let reaches (r : Span) : Bool := r.start ≤ s.start ∧ s.start ≤ r.stop
    have hreaches : reaches s = true := decide_eq_true ⟨Nat.le_refl _, horderly.start_le s hs⟩
    calc L.count s
      _ = (L.filter reaches).count s := (List.count_filter (p := reaches) hreaches).symm
      _ ≤ (readAt s.start L).count s.field := List.count_le_count_map
      _ ≤ c.mostQuota most := (h.count_le hF hchain _ _).trans (c.quota_le most _)
  refine ⟨?_, hmem⟩
  rw [← List.sum_toFinset_count_eq_length]
  refine (Finset.sum_le_card_nsmul _ _ _ fun s hs => hcount s (List.mem_toFinset.1 hs)).trans ?_
  rw [smul_eq_mul, ← Set.ncard_coe_finset]
  refine Nat.mul_le_mul_right _ (Set.ncard_le_ncard (fun s hs => ?_) (c.finite_spansUpTo k))
  exact hmem s (by simpa using hs)

/-! ## How many categories and predictions there are -/

/-- The instances and what is read of them, as far as the quotas go. -/
def Concrete.chainsUpTo (c : Concrete) (most k : Nat) : Set (InstanceId × List Span) :=
  {y | (∃ f, c.HasField y.1 f) ∧ y.2.length ≤ (c.spansUpTo k).ncard * c.mostQuota most ∧
    ∀ s ∈ y.2, s ∈ c.spansUpTo k}

theorem Concrete.finite_chainsUpTo (c : Concrete) (most k : Nat) :
    (c.chainsUpTo most k).Finite := by
  refine ((c.finite_fields.image Prod.fst).prod
    (finite_lists (c.finite_spansUpTo k) ((c.spansUpTo k).ncard * c.mostQuota most))).subset ?_
  exact fun y ⟨⟨f, hf⟩, hL⟩ => ⟨⟨(y.1, f), hf, rfl⟩, hL⟩

/-- The categories that there may be at the positions up to one, and the instances that productions
are about. -/
def Concrete.refsUpTo (c : Concrete) (most k : Nat) : Set CatRef :=
  CatRef.grammar '' {id | (∃ f, c.HasField id f) ∨ ∃ e ∈ c.allProductions, id ∈ e.2.args} ∪
    CatRef.chart '' {C | C.step ≤ k ∧ C.idx ≤ (c.chainsUpTo most k).ncard}

theorem Concrete.finite_refsUpTo (c : Concrete) (most k : Nat) : (c.refsUpTo most k).Finite := by
  refine (Set.Finite.image _ (Set.Finite.union ?_ ?_)).union (Set.Finite.image _ ?_)
  · exact (c.finite_fields.image Prod.fst).subset fun id ⟨f, hf⟩ => ⟨(id, f), hf, rfl⟩
  · refine ((List.finite_toSet c.allProductions).biUnion fun e _ =>
      List.finite_toSet e.2.args).subset ?_
    exact fun id ⟨e, he, hid⟩ => Set.mem_biUnion he hid
  · refine (((Set.finite_le_nat k).prod (Set.finite_le_nat (c.chainsUpTo most k).ncard)).image
      fun x : Nat × Nat => (⟨x.1, x.2⟩ : ChartCatId)).subset ?_
    exact fun C ⟨hstep, hidx⟩ => ⟨(C.step, C.idx), ⟨hstep, hidx⟩, rfl⟩

/-- The productions of the grammar over these categories. -/
def Concrete.productionsUpTo (c : Concrete) (most k : Nat) : Set ChartProduction :=
  {q | (∃ e ∈ c.allProductions, q.head = e.2.head ∧ q.args.length = e.2.args.length) ∧
    ∀ X ∈ q.args, X ∈ c.refsUpTo most k}

theorem ChartProduction.eq_of_head_args {q q' : ChartProduction} (hhead : q.head = q'.head)
    (hargs : q.args = q'.args) : q = q' := by
  cases q <;> cases q' <;> simp_all [head, args]

theorem Concrete.finite_productionsUpTo (c : Concrete) (most k : Nat) :
    (c.productionsUpTo most k).Finite := by
  let arity := (c.allProductions.map fun e => e.2.args.length).sum
  refine Set.Finite.of_finite_image (f := fun q => (q.head, q.args)) ?_ fun q _ q' _ heq => ?_
  · refine (((List.finite_toSet c.allProductions).image fun e => e.2.head).prod
      (finite_lists (c.finite_refsUpTo most k) arity)).subset ?_
    rintro _ ⟨q, ⟨⟨e, he, hhead, hlength⟩, hargs⟩, rfl⟩
    refine ⟨⟨e, he, hhead.symm⟩, ?_, hargs⟩
    rw [hlength]
    exact List.single_le_sum (fun _ _ => Nat.zero_le _) _
      (List.mem_map_of_mem (f := fun e : InstanceId × Production => e.2.args.length) he)
  · exact ChartProduction.eq_of_head_args (congrArg Prod.fst heq) (congrArg Prod.snd heq)

/-! ## No production twice -/

/-- No category of a step has a production twice. -/
def Step.Distinct (s : Step) : Prop := ∀ cat ∈ s.cats, cat.productions.Nodup

namespace Building

variable {b b' : Building}

theorem Keeps.distinct (h : Keeps b b') (hb : b.step.Distinct) : b'.step.Distinct := by
  rw [Step.Distinct, h.cats]
  exact hb

theorem distinct_pack (h : b.step.Distinct) {idx : Nat} {cat : ChartCat}
    (hcat : b.step.cats[idx]? = some cat) (q : ChartProduction) :
    (b.pack idx cat q).step.Distinct := by
  unfold pack
  split
  · exact h
  · rename_i hnew
    refine Keeps.distinct (keeps_foldl (fun b field => ?_) _ _) fun cat' hcat' => ?_
    · split <;> exact ⟨rfl, rfl⟩
    · obtain ⟨i, hi, rfl⟩ := Array.mem_iff_getElem.1 hcat'
      have hold := h _ (Array.getElem_mem (by simpa using hi))
      simp only [Array.getElem_modify]
      split
      · -- The category that is packed into does not have the production yet.
        rename_i heq
        subst heq
        obtain ⟨_, rfl⟩ := Array.getElem?_eq_some_iff.1 hcat
        exact List.nodup_append.2 ⟨hold, List.nodup_singleton q, fun p hp p' hp' heq =>
          hnew (List.mem_singleton.1 hp' ▸ heq ▸ hp)⟩
      · exact hold

theorem distinct_addCategory (h : b.step.Distinct) (ref : ItemSetRef) (set : ItemSet)
    (q : ChartProduction) : (b.addCategory ref set q).step.Distinct := by
  refine Keeps.distinct (keeps_foldl (fun b waiting => b.keeps_combine waiting _) _ _) ?_
  intro cat hcat
  rcases Array.mem_push.1 hcat with hcat | rfl
  · exact h cat hcat
  · exact List.nodup_singleton q

/-- Only an item at its end gives a category a production, and not one that it has. -/
theorem distinct_process (h : b.step.Distinct) (item : Item) : (b.process item).step.Distinct := by
  obtain hkeeps | ⟨b₁, hkeeps, ⟨idx, cat, hcat, heq⟩ | ⟨set, heq⟩⟩ := b.process_cases item
  · exact hkeeps.distinct h
  · rw [heq]
    exact distinct_pack (hkeeps.distinct h) hcat _
  · rw [heq]
    exact distinct_addCategory (hkeeps.distinct h) _ _ _

/-! ## What bounds a step -/

/-- What keeps a step from growing without end, while it is built. -/
structure Frugal (c : Concrete) (v : Nat → Sym) (ids : List InstanceId) (goal most : Nat)
    (b : Building) : Prop where
  runs : b.Runs c v ids goal
  spare : Spare c most b.facts
  distinct : b.step.Distinct

/-- One round of work keeps it so. -/
theorem Frugal.next? (hwf : c.WellFormed) (hs : c.Sparing)
    (hmost : ∀ id p, p ∈ c.productionsOf id → ∀ arg, (c.readsAll id p arg).length ≤ most)
    (h : Frugal c v ids goal most b) (hnext : b.next? = some b') :
    Frugal c v ids goal most b' ∧ b'.history = b.history := by
  obtain ⟨hruns, hhistory⟩ := h.runs.next? hwf hnext
  obtain ⟨item, agenda, -, hagenda, rfl⟩ := next?_eq_some hnext
  let b₀ : Building := { b with agenda }
  have hitem : Stands c v b₀.facts b₀.index item :=
    h.runs.agenda item (hagenda ▸ List.mem_cons_self)
  obtain ⟨new, items, heffect, hadds⟩ :=
    exists_effect (b := b₀) hwf h.runs.sound h.runs.concrete hitem
  refine ⟨⟨hruns, ?_, distinct_process (b := b₀) h.distinct item⟩, hhistory⟩
  exact Spare.effect hwf hs hmost h.runs.sound (fun _ => step_le_index) h.spare hitem heffect
    hadds.facts (chartFacts_functional _)

namespace Frugal

variable (h : Frugal c v ids goal most b) (hk : b.index = k)
include h hk

/-- What was read of a category is one of so many chains. -/
theorem mem_chains {C : ChartCatId} {id : InstanceId} {L : List Span}
    (hchain : Chain b.facts (.chart C) id L) : (id, L) ∈ c.chainsUpTo most k := by
  refine ⟨?_, h.spare.length_le h.runs.sound (fun _ hφ => hk ▸ step_le_index hφ) hchain⟩
  cases hchain with
  | chart hdone hchain =>
    obtain ⟨-, ⟨top, hset⟩, -⟩ := h.runs.sound.grounded _ hdone
    exact ⟨_, h.runs.sound.hasField_of_predicts hset hchain⟩

/-- So there are only so many categories at a position. -/
theorem idx_lt {C : ChartCatId} {S : ItemSetRef} {X : CatRef} {f n : Nat}
    (hdone : b.facts (.closes C S X f n)) : C.idx < (c.chainsUpTo most k).ncard := by
  refine Nat.lt_of_succ_le (le_ncard_of_rel (c.finite_chainsUpTo most k)
    (R := fun i y => Chain b.facts (.chart ⟨C.step, i⟩) y.1 y.2) (fun i hi => ?_) ?_)
  · -- All places up to this one have categories.
    obtain ⟨j, s, hs, rfl, cat, hcat, -⟩ := hdone
    have hi' : i < s.cats.size :=
      Nat.lt_of_le_of_lt (Nat.le_of_lt_succ hi) (Array.getElem?_eq_some_iff.1 hcat).1
    have hdone' : b.facts (.closes ⟨C.step, i⟩ s.cats[i].set s.cats[i].cat s.cats[i].field
        s.cats[i].fieldCount) :=
      ⟨C.step, s, hs, rfl, s.cats[i], Array.getElem?_eq_getElem hi', rfl, rfl, rfl, rfl⟩
    obtain ⟨-, -, ⟨id, L, hchain, -⟩, -⟩ := h.runs.sound.grounded _ hdone'
    exact ⟨_, h.mem_chains hk (.chart hdone' hchain), .chart hdone' hchain⟩
  · intro i j y hi hj
    exact congrArg ChartCatId.idx (CatRef.chart.inj (h.runs.sound.eq_of_chain hi hj))

/-- A category that something is known of is one of so many. -/
theorem mem_refs {C : ChartCatId} {id : InstanceId} {L : List Span}
    (hchain : Chain b.facts (.chart C) id L) : .chart C ∈ c.refsUpTo most k := by
  cases hchain with
  | chart hdone _ =>
    exact .inr ⟨C, ⟨hk ▸ step_le_index hdone, Nat.le_of_lt (h.idx_lt hk hdone)⟩, rfl⟩

theorem size_cats_le : b.step.cats.size ≤ (c.chainsUpTo most k).ncard := by
  rcases Nat.eq_zero_or_pos b.step.cats.size with hzero | hpos
  · omega
  · have hlast : b.step.cats.size - 1 < b.step.cats.size := by omega
    have hlt := h.idx_lt hk (C := ⟨b.index, b.step.cats.size - 1⟩)
      ⟨b.index, b.step, by simp [index], rfl, _, Array.getElem?_eq_getElem hlast, rfl, rfl, rfl,
        rfl⟩
    dsimp only at hlt
    omega

/-- A position has so many predictions, each for another field of another category. -/
theorem size_itemSets_le :
    b.step.itemSets.size ≤ (c.refsUpTo most k ×ˢ {f | ∃ id, c.HasField id f}).ncard := by
  refine le_ncard_of_rel ((c.finite_refsUpTo most k).prod c.finite_fieldNumbers)
    (R := fun i y => ∃ top, b.facts (.predicts ⟨b.index, i⟩ y.1 y.2 top)) (fun i hi => ?_) ?_
  · have hset : b.facts (.predicts ⟨b.index, i⟩ b.step.itemSets[i].cat b.step.itemSets[i].field
        b.step.itemSets[i].top) :=
      ⟨b.index, b.step, by simp [index], rfl, _, Array.getElem?_eq_getElem hi, rfl, rfl, rfl⟩
    obtain ⟨⟨id, L, n, hchain, hn, hf⟩, -⟩ := h.runs.sound.grounded _ hset
    refine ⟨(b.step.itemSets[i].cat, b.step.itemSets[i].field), ⟨?_, id, n, hn, hf⟩, _, hset⟩
    generalize b.step.itemSets[i].cat = X at hchain
    cases X with
    | grammar id' =>
      cases hchain
      exact .inl ⟨id, .inl ⟨_, n, hn, hf⟩, rfl⟩
    | chart C => exact h.mem_refs hk hchain
  · rintro i j y ⟨top, hi⟩ ⟨top', hj⟩
    exact congrArg ItemSetRef.idx (h.runs.sound.predicts_once _ _ _ _ _ _ hi hj rfl)

/-- A category has so many productions. -/
theorem length_productions_le {cat : ChartCat} (hcat : cat ∈ b.step.cats) :
    cat.productions.length ≤ (c.productionsUpTo most k).ncard := by
  refine length_le_ncard_of_nodup (c.finite_productionsUpTo most k) (h.distinct cat hcat)
    fun q hq => ?_
  obtain ⟨i, hi⟩ := Array.mem_iff_getElem?.1 hcat
  have hproduces : b.facts (.produces ⟨b.index, i⟩ q) :=
    ⟨b.index, b.step, by simp [index], rfl, cat, hi, hq⟩
  have hdone : b.facts (.closes ⟨b.index, i⟩ cat.set cat.cat cat.field cat.fieldCount) :=
    ⟨b.index, b.step, by simp [index], rfl, cat, hi, rfl, rfl, rfl, rfl⟩
  obtain ⟨-, -, ⟨id, L, hchain, -⟩, -⟩ := h.runs.sound.grounded _ hdone
  obtain ⟨p, hp, hmeans⟩ := h.runs.sound.means (.chart hdone hchain) hproduces
  refine ⟨⟨(id, p), Concrete.mem_allProductions.2 hp, hmeans.head, hmeans.length⟩, fun X hX => ?_⟩
  obtain ⟨arg, harg, rfl⟩ := List.mem_iff_getElem.1 hX
  obtain ⟨id', hid⟩ : ∃ id', p.args[arg]? = some id' :=
    ⟨_, List.getElem?_eq_getElem (hmeans.length ▸ harg)⟩
  obtain ⟨X, L', hX', hchain', -⟩ := hmeans.args arg _ hid
  rw [List.getElem?_eq_getElem harg, Option.some.injEq] at hX'
  rw [hX']
  cases X with
  | grammar id'' =>
    cases hchain'
    exact .inl ⟨id', .inr ⟨(id, p), Concrete.mem_allProductions.2 hp, List.mem_of_getElem? hid⟩,
      rfl⟩
  | chart C => exact h.mem_refs hk hchain'

end Frugal

/-- **A step cannot grow without end**: all that can grow of it has a bound, which depends on the
grammar and the position only. -/
theorem exists_extent_le (c : Concrete) (most k : Nat) :
    ∃ bound, ∀ v ids goal b, Frugal c v ids goal most b → b.index = k →
      b.step.extent ≤ bound := by
  refine ⟨(c.chainsUpTo most k).ncard +
    (c.refsUpTo most k ×ˢ {f | ∃ id, c.HasField id f}).ncard +
    (c.chainsUpTo most k).ncard * (c.productionsUpTo most k).ncard, fun v ids goal b h hk => ?_⟩
  have hproductions : (b.step.cats.toList.map (·.productions.length)).sum ≤
      b.step.cats.size * (c.productionsUpTo most k).ncard := by
    refine (List.sum_le_card_nsmul _ (c.productionsUpTo most k).ncard fun n hn => ?_).trans ?_
    · obtain ⟨cat, hcat, rfl⟩ := List.mem_map.1 hn
      exact h.length_productions_le hk (Array.mem_toList_iff.1 hcat)
    · simp
  exact Nat.add_le_add (Nat.add_le_add (h.size_cats_le hk) (h.size_itemSets_le hk))
    (hproductions.trans (Nat.mul_le_mul_right _ (h.size_cats_le hk)))

end Building

end Polyglot
