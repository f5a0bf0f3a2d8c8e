import Polyglot.Proofs.Chart.Answers
import Polyglot.Proofs.Chart.Representation

/-!
# The first reading of a category succeeds

The packed forest of a chart may have cycles, and a reading that comes to one fails. But the first
production of every category has arguments that were there before the category, so a reading that
picks the first production everywhere only ever goes back, and comes to an end.

- `Decision.StartsWith`: what the first descent through a tree of decisions ends at;
  `StartsWith.walk`: a walk without a record takes it.
- `Chart.Upkept.startsWith_reading`: the first reading of a category is an expression.
-/

namespace Polyglot

namespace Decision

variable {α β : Type} {a : α} {t : Decision α}

/-- The descent that picks the first alternative everywhere ends at a value. -/
inductive StartsWith (a : α) : Decision α → Prop where
  | leaf : StartsWith a (.leaf a)
  | choose {n : Nat} {branch : Fin (n + 1) → Decision α} (h : StartsWith a (branch 0)) :
    StartsWith a (.choose (n + 1) branch)

namespace StartsWith

theorem choose_of_pos {n : Nat} {branch : Fin n → Decision α} (hn : 0 < n)
    (h : StartsWith a (branch ⟨0, hn⟩)) : StartsWith a (.choose n branch) := by
  cases n with
  | zero => exact absurd hn (Nat.lt_irrefl 0)
  | succ n => exact .choose h

/-- It goes on at the leaf that it comes to. -/
theorem bind {f : α → Decision β} {b : β} (h : t.StartsWith a) (hf : (f a).StartsWith b) :
    (t.bind f).StartsWith b := by
  induction h with
  | leaf => exact hf
  | choose _ ih => exact .choose ih

/-- The value is the first one of the tree. -/
theorem exists_values_eq (h : t.StartsWith a) : ∃ rest, t.values = a :: rest := by
  induction h with
  | leaf => exact ⟨[], values_leaf a⟩
  | @choose n branch _ ih =>
    obtain ⟨rest, hrest⟩ := ih
    refine ⟨rest ++ (List.ofFn fun i : Fin n => (branch i.succ).values).flatten, ?_⟩
    rw [values_choose, List.ofFn_succ, List.flatten_cons, hrest, List.cons_append]

/-- The first alternative is never cut off. -/
theorem cut (h : t.StartsWith a) : t.cut.StartsWith a := by
  induction h with
  | leaf => exact .leaf
  | choose _ ih => exact choose_of_pos (Choice.width_pos (Nat.succ_ne_zero _)) ih

/-- **A walk without a record takes the first descent.** -/
theorem walk (h : t.StartsWith a) (taken : List Nat) : ∃ picks choice,
    t.walk ⟨taken, []⟩ = .ok (⟨picks, some a⟩, choice) ∧ ∀ i ∈ picks, i = 0 := by
  induction h generalizing taken with
  | leaf => exact ⟨[], _, rfl, nofun⟩
  | @choose n branch _ ih =>
    have hfirst :
        Fin.ofNat (n + 1) (Choice.width (n + 1) - 1 - (Choice.width (n + 1) - 1)) = 0 := by
      rw [Nat.sub_self]
      rfl
    obtain ⟨picks, choice, hwalk, hpicks⟩ := ih ((Choice.width (n + 1) - 1) :: taken)
    refine ⟨0 :: picks, choice, ?_, List.forall_mem_cons.2 ⟨rfl, hpicks⟩⟩
    simp only [Decision.walk, Choice.next_succ, List.headD_nil, Nat.le_refl, if_true, hfirst,
      List.tail_nil, hwalk]
    rfl

end StartsWith

end Decision

theorem ChartCatId.Before.trans {C D E : ChartCatId} (h : C.Before D) (h' : D.Before E) :
    C.Before E := by
  unfold ChartCatId.Before at *
  omega

namespace Chart

variable {c : Concrete} {ids : List InstanceId} {goal : Nat} {chart : Chart}

/-- The first reading of arguments reads each of them for the first time. -/
theorem startsWith_readAll {read : CatRef → Decision (Attempt Expr)} {args : List CatRef}
    (h : ∀ X ∈ args, ∃ e, (read X).StartsWith (.ok e)) :
    ∃ es, (readAll read args).StartsWith (.ok es) := by
  induction args with
  | nil => exact ⟨[], .leaf⟩
  | cons X args ih =>
    obtain ⟨e, he⟩ := h X List.mem_cons_self
    obtain ⟨es, hes⟩ := ih fun Y hY => h Y (List.mem_cons_of_mem _ hY)
    exact ⟨e :: es, he.bind (hes.bind .leaf)⟩

/-- So does that of a production, if there is its function. -/
theorem startsWith_production (chart : Chart) {read : CatRef → Decision (Attempt Expr)}
    {q : ChartProduction}
    (hargs : ∀ X ∈ q.args, ∃ e, (read X).StartsWith (.ok e))
    (hfn : ∀ fn args, q = .apply fn args → ∃ f, chart.concrete.function? fn = some f) :
    ∃ e, (chart.readProduction read q).StartsWith (.ok e) := by
  cases q with
  | coerce inner => exact hargs inner List.mem_cons_self
  | apply fn args =>
    obtain ⟨f, hf⟩ := hfn fn args rfl
    obtain ⟨es, hes⟩ := startsWith_readAll hargs
    simp only [readProduction, hf]
    exact ⟨.app f.name es, hes.bind .leaf⟩

namespace Upkept

variable (h : Upkept c ids goal chart)
include h

/-- The production that a category was created with. -/
theorem exists_first {C : ChartCatId} {S : ItemSetRef} {X : CatRef} {f n : Nat}
    (hcloses : chart.facts (.closes C S X f n)) :
    ∃ cat q rest, chart.category? C = some cat ∧ cat.productions = q :: rest ∧
      (∀ D, .chart D ∈ q.args → D.Before C ∧ ∃ S Y g m, chart.facts (.closes D S Y g m)) ∧
      ∀ fn args, q = .apply fn args → ∃ f, c.function? fn = some f := by
  obtain ⟨k, s, hs, rfl, cat, hcat, -⟩ := hcloses
  obtain ⟨firstId, hlaid⟩ := h.steps.laid _ s hs
  obtain ⟨q, hq, hbefore⟩ := (hlaid.founded C.idx cat hcat).begun
  obtain ⟨rest, hrest⟩ : ∃ rest, cat.productions = q :: rest := List.head?_eq_some_iff.1 hq
  have hproduces : chart.facts (.produces C q) :=
    ⟨C.step, s, hs, rfl, cat, hcat, hrest ▸ List.mem_cons_self⟩
  obtain ⟨-, -, -, m, -, hsuits, -⟩ := h.coherent.rests _ hproduces
  refine ⟨cat, q, rest, by simp [category?, hs, hcat], hrest, fun D hD => ⟨hbefore D hD, ?_⟩,
    fun fn args hfn => ?_⟩
  · obtain ⟨m, S, Y, g, hdone⟩ := hsuits.args D hD
    exact ⟨S, Y, g, m, hdone⟩
  · obtain ⟨f, hf, -⟩ := hsuits.head fn args hfn
    exact ⟨f, hf⟩

/-- **The first reading of a category is an expression**, as long as the way to it came from
categories that were completed later. -/
theorem startsWith_reading {C : ChartCatId} {S : ItemSetRef} {X : CatRef} {f n : Nat}
    (hcloses : chart.facts (.closes C S X f n)) (path : List ChartCatId)
    (hpath : ∀ D ∈ path, C.Before D) :
    ∃ e, (chart.reading path (.chart C)).StartsWith (.ok e) := by
  induction C using ChartCatId.before_wf.induction generalizing S X f n path with
  | _ C ih =>
    obtain ⟨cat, q, rest, hcat, hproductions, hbefore, hfn⟩ := h.exists_first hcloses
    have hnew : C ∉ path := fun hmem => ChartCatId.Before.irrefl C (hpath C hmem)
    have hargs : ∀ Y ∈ q.args, ∃ e, (chart.reading (C :: path) Y).StartsWith (.ok e) := by
      intro Y hY
      cases Y with
      | grammar id =>
        rw [reading_grammar]
        exact ⟨_, .leaf⟩
      | chart D =>
        obtain ⟨hD, S', Y', g, m, hdone⟩ := hbefore D hY
        refine ih D hD hdone _ fun E hE => ?_
        rcases List.mem_cons.1 hE with rfl | hE
        · exact hD
        · exact hD.trans (hpath E hE)
    have hpos : 0 < cat.productions.length := by simp [hproductions]
    have hfirst : cat.productions[0] = q := by simp [hproductions]
    obtain ⟨e, he⟩ := startsWith_production chart hargs (by rw [h.concrete]; exact hfn)
    rw [← hfirst] at he
    rw [reading_chart hnew hcat]
    exact ⟨e, .choose_of_pos hpos he⟩

/-- So is the first reading of an input that is complete. -/
theorem startsWith_readings (hcomplete : chart.isComplete = true) :
    ∃ e, chart.readings.StartsWith (.ok e) := by
  have hpos : 0 < chart.completed.length := by
    rw [List.length_pos_iff]
    intro hnil
    simp [isComplete, hnil] at hcomplete
  have hlast : chart.steps[chart.position]? = some chart.last := by simp [Chart.steps, position]
  have hspans : chart.facts (.spans chart.position chart.completed[0]) :=
    ⟨chart.position, chart.last, hlast, rfl, List.getElem_mem hpos⟩
  obtain ⟨-, S, X, f, n, hcloses, -⟩ := h.coherent.rests _ hspans
  obtain ⟨e, he⟩ := h.startsWith_reading hcloses [] (by simp)
  exact ⟨e, .choose_of_pos hpos he⟩

end Upkept

end Chart

end Polyglot
