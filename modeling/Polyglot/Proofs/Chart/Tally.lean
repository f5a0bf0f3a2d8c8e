import Polyglot.Proofs.Chart.Stages

/-!
# How often a stage comes up

A stage may come up several times at a position, when an instance has a production twice or when a
constituent has several forms for the same words. How often it does so is settled by sums over what
is predicted and complete there, in which every stage is got from stages with fewer constituents
behind them. So there is only one way to count, and it does not depend on any order.

- `Setting.asked?`, `resumed`, `skips`, `awaits`: what a stage asks for and goes on to.
- `Setting.due`: the stages that come up at a position, given how often others do.
- `Setting.Tallies.eq`: two counts that agree with these sums are the same.
-/

namespace Polyglot

namespace Setting

variable (G : Setting)

/-- The category that a stage asks for, and the field of it. -/
def asked? (σ : Stage) : Option (Lineage × Nat) :=
  match G.next? σ with
  | some (.sub arg f) => σ.production.args[arg]?.map (·, f)
  | _ => none

/-- A stage that asks for a category goes on with it. -/
def resumed (l : Lineage) (σ : Stage) : Stage :=
  match G.next? σ with
  | some (.sub arg _) => σ.resume arg l
  | _ => σ

/-- What becomes of a stage that needs no words. -/
def skips (σ : Stage) : Multiset Stage :=
  if σ.word = 0 ∧ [] ∈ G.forms σ then {σ.advanced} else 0

/-- The words that a stage waits for, each with the stage behind it. -/
def awaits (σ : Stage) : List (Sym × Stage) :=
  (G.forms σ).filterMap fun ts => ts[σ.word]?.map (·, σ.moved ts)

/-- The productions that a category offers. Those of an instance come as often as the instance has
them, and those that have been read come once. -/
noncomputable def offers (l : Lineage) : Multiset Sketch :=
  if l.spans = [] then (G.productions l.root).map .ofGrammar
  else ∑ᶠ s ∈ {s | ∃ k, G.Produced k l s}, {s}

/-- The stages that a position begins with, once its word has been read. -/
def moved (D : Nat → Multiset Stage) : Nat → Multiset Stage
  | 0 => 0
  | k + 1 => (((D k).bind fun σ => (G.awaits σ : Multiset (Sym × Stage))).filter
      (·.1 = G.input k)).map Prod.snd

/-- The stages that a prediction begins. -/
noncomputable def starts (k : Nat) (l : Lineage) (f : Nat) : Multiset Stage :=
  (G.offers l).map fun s => ⟨k, l, f, s, 0, 0, []⟩

/-- The stages that go on with a category that begins at a position and is complete at another. -/
def resumes (D : Nat → Multiset Stage) (k start : Nat) (l : Lineage) (f : Nat) : Multiset Stage :=
  ((D start).filter fun σ => G.asked? σ = some (l, f)).map
    (G.resumed ⟨l.root, l.spans ++ [⟨f, start, k⟩]⟩)

/-- What is asked for at a position. -/
def predictions (k : Nat) : Set (Lineage × Nat) := {x | G.Predicted k x.1 x.2}

/-- What is complete at a position, with where it begins. -/
def completions (k : Nat) : Set (Nat × Lineage × Nat) := {y | G.Closed k y.1 y.2.1 y.2.2}

/-- The stages that come up at a position, each as often as it does so, if `D` says so for all
positions up to there. -/
noncomputable def due (D : Nat → Multiset Stage) (k : Nat) : Multiset Stage :=
  G.moved D k + ∑ᶠ x ∈ G.predictions k, G.starts k x.1 x.2 +
    ∑ᶠ y ∈ G.completions k, G.resumes D k y.1 y.2.1 y.2.2 + (D k).bind G.skips

/-- A count of stages that agrees with these sums, for as many positions. -/
structure Tallies (n : Nat) (D : Nat → Multiset Stage) : Prop where
  finite : ∀ k < n, (G.completions k).Finite
  eq_due : ∀ k < n, D k = G.due D k

variable {G} {D D' : Nat → Multiset Stage} {k n : Nat}

/-- What a position begins with depends on earlier positions only. -/
theorem moved_congr (h : ∀ j < k, D j = D' j) : G.moved D k = G.moved D' k := by
  cases k with
  | zero => rfl
  | succ k => rw [moved, moved, h k (Nat.lt_succ_self k)]

/-- What comes up at a position does not depend on later positions. -/
theorem due_congr (h : ∀ j ≤ k, D j = D' j) : G.due D k = G.due D' k := by
  have hmoved := G.moved_congr fun j hj => h j (Nat.le_of_lt hj)
  have hresumes : ∀ y ∈ G.completions k,
      G.resumes D k y.1 y.2.1 y.2.2 = G.resumes D' k y.1 y.2.1 y.2.2 := by
    rintro ⟨start, l, f⟩ ⟨τ, hτ, -, rfl, -⟩
    rw [resumes, resumes, h _ hτ.start_le]
  rw [due, due, hmoved, finsum_mem_congr rfl hresumes, h k (Nat.le_refl k)]

theorem Tallies.congr (h : G.Tallies n D) (heq : ∀ k < n, D k = D' k) : G.Tallies n D' :=
  ⟨h.finite, fun k hk => by
    rw [← heq k hk, h.eq_due k hk]
    exact due_congr fun j hj => heq j (Nat.lt_of_le_of_lt hj hk)⟩

/-! ## Only one way to count -/

/-- The stages with fewer constituents behind them than so many. -/
def early (d : Nat) (M : Multiset Stage) : Multiset Stage := M.filter (·.dot < d)

theorem early_add (d : Nat) (M M' : Multiset Stage) :
    early d (M + M') = early d M + early d M' := Multiset.filter_add ..

theorem early_sum {α : Type} (d : Nat) (s : Finset α) (f : α → Multiset Stage) :
    early d (∑ a ∈ s, f a) = ∑ a ∈ s, early d (f a) := by
  classical
  induction s using Finset.induction_on with
  | empty => rfl
  | insert a s ha ih => rw [Finset.sum_insert ha, Finset.sum_insert ha, early_add, ih]

theorem asked?_dot {σ : Stage} {x : Lineage × Nat} (h : G.asked? σ = some x) (l : Lineage) :
    (G.resumed l σ).dot = σ.dot + 1 := by
  unfold asked? at h
  unfold resumed
  split at h
  · rfl
  · cases h

/-- The stages that go on early are those that came up even earlier. -/
theorem early_resumes (d start : Nat) (l : Lineage) (f : Nat) :
    early (d + 1) (G.resumes D k start l f) =
      G.resumes (fun j => early d (D j)) k start l f := by
  rw [resumes, resumes, early, early, Multiset.filter_map, Multiset.filter_filter,
    Multiset.filter_filter]
  refine congrArg _ (Multiset.filter_congr fun σ _ => ?_)
  simp only [Function.comp_apply]
  refine ⟨fun ⟨hdot, hasked⟩ => ⟨hasked, ?_⟩, fun ⟨hasked, hdot⟩ => ⟨?_, hasked⟩⟩
  · rw [asked?_dot hasked] at hdot
    omega
  · rw [asked?_dot hasked]
    omega

theorem early_skips (d : Nat) (M : Multiset Stage) :
    early (d + 1) (M.bind G.skips) = (early d M).bind G.skips := by
  induction M using Multiset.induction with
  | empty => rfl
  | cons σ M ih =>
    have hσ : early (d + 1) (G.skips σ) = if σ.dot < d then G.skips σ else 0 := by
      unfold skips
      split
      · simp only [early, Multiset.filter_singleton, Stage.advanced, Nat.add_lt_add_iff_right]
        rfl
      · simp [early]
    rw [Multiset.cons_bind, early_add, ih, hσ]
    unfold early
    rw [Multiset.filter_cons]
    split <;> simp

/-- **There is only one way to count.** At each position the stages are compared by how many
constituents they have behind them: those with none are begun by what is known of other positions,
and the others are got from those with one less. -/
theorem Tallies.eq (h : G.Tallies n D) (h' : G.Tallies n D') : ∀ k < n, D k = D' k := by
  intro k
  induction k using Nat.strong_induction_on with
  | _ k ih =>
    intro hk
    have hbefore : ∀ j < k, D j = D' j := fun j hj => ih j hj (Nat.lt_trans hj hk)
    have hearly : ∀ d, early d (D k) = early d (D' k) := by
      intro d
      induction d with
      | zero => simp [early]
      | succ d ihd =>
        have hmoved := G.moved_congr hbefore
        have hresumes : ∀ y ∈ (h.finite k hk).toFinset,
            early (d + 1) (G.resumes D k y.1 y.2.1 y.2.2) =
              early (d + 1) (G.resumes D' k y.1 y.2.1 y.2.2) := by
          rintro ⟨start, l, f⟩ hy
          obtain ⟨τ, hτ, -, rfl, -⟩ := (h.finite k hk).mem_toFinset.1 hy
          rw [early_resumes, early_resumes, resumes, resumes]
          rcases Nat.lt_or_eq_of_le hτ.start_le with hlt | heq
          · rw [hbefore _ hlt]
          · rw [heq, ihd]
        rw [h.eq_due k hk, h'.eq_due k hk, due, due, hmoved,
          finsum_mem_eq_finite_toFinset_sum _ (h.finite k hk),
          finsum_mem_eq_finite_toFinset_sum _ (h.finite k hk)]
        simp only [early_add, early_sum, early_skips]
        rw [Finset.sum_congr rfl hresumes, ihd]
    refine Multiset.ext' fun σ => ?_
    have hcount : ∀ M : Multiset Stage, (early (σ.dot + 1) M).count σ = M.count σ := fun M =>
      Multiset.count_filter_of_pos (p := fun τ : Stage => τ.dot < σ.dot + 1) (Nat.lt_succ_self _)
    rw [← hcount (D k), ← hcount (D' k), hearly]

end Setting

end Polyglot
