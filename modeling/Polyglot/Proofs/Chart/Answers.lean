import Polyglot.Proofs.Chart.Trees

/-!
# What an enumeration of readings still owes

An enumeration that stands somewhere owes the trees that it has not come to yet, but for those that
it has yielded before. Each call pays the first of them, and nothing that is stored by others
between two calls makes a difference: an expression that was stored keeps its id.

- `Readings.found`: all that an enumeration yields, in order.
- `Readings.Owes`: what it owes where it stands; `Owes.extends`: others may store what they want.
- `Readings.Owes.next?`: a call yields the first tree that is owed, if there is one.
-/

namespace Polyglot

namespace Readings

open Chart (successes)

variable {chart : Chart} {r : Readings} {s s' : ExprStore} {owed : List Expr}

/-- The trees that an enumeration gets to, those of the alternatives that a record of decisions can
hold, each where it first occurs. -/
def found (chart : Chart) : List Expr := (successes chart.readings.cut.values).eraseDups

theorem nodup_found (chart : Chart) : (found chart).Nodup := nodup_eraseDups _

/-- They are trees of the chart. -/
theorem unfolding_of_mem_found {e : Expr} (h : e ∈ found chart) :
    ∃ id ∈ chart.completed, chart.Unfolding [] (.chart id) e := by
  obtain ⟨a, ha, he⟩ := List.mem_filterMap.1 (List.mem_eraseDups.1 h)
  rw [← Chart.mem_trees_iff, ← Chart.values_readings]
  exact List.mem_filterMap.2 ⟨a, Decision.mem_values_of_cut ha, he⟩

/-- If nothing is too wide for a record of decisions then they are all trees of the chart, in the
order of the search. -/
theorem found_eq_trees (h : chart.Within Choice.maxAlternatives) :
    found chart = chart.trees.eraseDups := by
  rw [found, Decision.cut_eq_self (Chart.narrow_readings h), Chart.values_readings]

/-! ## One call -/

/-- The trees among values that are to come, but for those that were yielded before, each where it
first occurs. -/
def fresh (yielded : List Expr) (vs : List (Option (Chart.Attempt Expr))) : List Expr :=
  ((successes (vs.filterMap id)).filter (· ∉ yielded)).eraseDups

/-- What has been yielded is remembered by its ids, and nothing that is to come has a literal. -/
structure Pending (yielded : List Expr) (vs : List (Option (Chart.Attempt Expr)))
    (seen : List ExprId) (s : ExprStore) : Prop where
  seen : List.Forall₂ s.Has seen yielded
  old : ∀ e ∈ yielded, e.LiteralFree
  new : ∀ e ∈ successes (vs.filterMap id), e.LiteralFree

variable {yielded : List Expr} {vs : List (Option (Chart.Attempt Expr))} {seen : List ExprId}
  {e : Expr}

theorem Pending.extends (h : Pending yielded vs seen s) (hs : s.Extends s') :
    Pending yielded vs seen s' :=
  ⟨h.seen.imp fun _ _ hhas => hhas.extends hs, h.old, h.new⟩

/-- An expression was yielded before if its id was. -/
theorem Pending.mem_iff (h : Pending yielded vs seen s) {id : ExprId} (hid : s.Has id e)
    (he : e.LiteralFree) : id ∈ seen ↔ e ∈ yielded := by
  obtain ⟨hseen, hold, -⟩ := h
  induction hseen with
  | nil => simp
  | @cons id' e' seen yielded hhas _ ih =>
    rw [List.mem_cons, List.mem_cons,
      hid.eq_iff hhas he (hold e' List.mem_cons_self),
      ih fun e'' he'' => hold e'' (List.mem_cons_of_mem _ he'')]

theorem Pending.tail {v : Option (Chart.Attempt Expr)} (h : Pending yielded (v :: vs) seen s) :
    Pending yielded vs seen s := by
  refine ⟨h.seen, h.old, fun e he => h.new e ?_⟩
  obtain ⟨a, ha, hae⟩ := List.mem_filterMap.1 he
  refine List.mem_filterMap.2 ⟨a, ?_, hae⟩
  cases v with
  | none => exact ha
  | some v => exact List.mem_cons_of_mem _ ha

theorem fresh_failed (yielded : List Expr) (vs : List (Option (Chart.Attempt Expr)))
    (parts : List Expr) : fresh yielded (some (.error parts) :: vs) = fresh yielded vs := rfl

theorem fresh_old (h : e ∈ yielded) : fresh yielded (some (.ok e) :: vs) = fresh yielded vs := by
  simp [fresh, successes, Except.toOption, h]

theorem fresh_new (h : e ∉ yielded) :
    fresh yielded (some (.ok e) :: vs) = e :: fresh (e :: yielded) vs := by
  have hcons : successes ((some (Except.ok e) :: vs : List (Option (Chart.Attempt Expr))).filterMap
      id) = e :: successes (vs.filterMap id) := rfl
  rw [fresh, fresh, hcons, List.filter_cons_of_pos (by simpa using h), List.eraseDups_cons,
    List.filter_filter]
  congr 2
  refine List.filter_congr fun b _ => ?_
  by_cases hb : b = e <;> simp [hb]

/-- An enumeration that stands somewhere has these trees still to yield. -/
structure Owes (chart : Chart) (r : Readings) (s : ExprStore) (owed : List Expr) : Prop where
  stands : Search.Stands chart.readings.cut r.search
  pending : ∃ yielded, Pending yielded (r.search.upcoming chart.readings.cut) r.seen s ∧
    fresh yielded (r.search.upcoming chart.readings.cut) = owed

theorem Owes.extends (h : Owes chart r s owed) (hs : s.Extends s') : Owes chart r s' owed := by
  obtain ⟨yielded, hpending, hfresh⟩ := h.pending
  exact ⟨h.stands, yielded, hpending.extends hs, hfresh⟩

/-- At the beginning everything is owed. -/
theorem owes_start (chart : Chart) (s : ExprStore) : Owes chart {} s (found chart) := by
  have hvalues : (({} : Search).upcoming chart.readings.cut).filterMap id =
      chart.readings.cut.values := by
    rw [Search.upcoming_start, List.filterMap_map]
    rfl
  refine ⟨Search.stands_start _, [], ⟨.nil, nofun, fun e he => ?_⟩, ?_⟩
  · rw [hvalues] at he
    obtain ⟨id, -, hunfolding⟩ := unfolding_of_mem_found (List.mem_eraseDups.2 he)
    exact hunfolding.literalFree
  · rw [fresh, hvalues, found]
    congr 1
    exact List.filter_eq_self.2 (by simp)

/-- **A call pays the first tree that is owed**: it yields an id that stands for the tree, or none
if nothing is owed. It keeps what is stored, and fails in no way. -/
theorem Owes.next? (h : Owes chart r s owed) (counters : Counters) :
    ∃ id? r' s' counters', r.next? chart s counters = .ok (id?, r', s', counters') ∧
      s.Extends s' ∧ Option.Rel s'.Denotes id? owed.head? ∧ Owes chart r' s' owed.tail := by
  obtain ⟨yielded, hpending, howed⟩ := h.pending
  let P (vs : List (Option (Chart.Attempt Expr))) (state : State) : Prop :=
    s.Extends state.exprs ∧ Pending yielded vs state.seen state.exprs ∧ fresh yielded vs = owed
  let Q (id? : Option ExprId) (vs : List (Option (Chart.Attempt Expr))) (state : State) : Prop :=
    s.Extends state.exprs ∧ Option.Rel state.exprs.Denotes id? owed.head? ∧
      ∃ yielded', Pending yielded' vs state.seen state.exprs ∧ fresh yielded' vs = owed.tail
  have hend : ∀ state, P [] state → Q none [] state := by
    rintro state ⟨hextends, hpending, howed⟩
    obtain rfl : [] = owed := howed
    exact ⟨hextends, .none, yielded, hpending, rfl⟩
  have hround : ∀ v vs state, P (v :: vs) state →
      ((accept v state).1 = none → P vs (accept v state).2) ∧
        ∀ id, (accept v state).1 = some id → Q (some id) vs (accept v state).2 := by
    rintro v vs ⟨seen, exprs, counters⟩ ⟨hextends, hpending, howed⟩
    rcases v with _ | parts | e
    · exact ⟨fun _ => ⟨hextends, hpending.tail, howed⟩, fun _ h => by cases h⟩
    · rw [fresh_failed] at howed
      have hparts := exprs.internExprs_extends parts
      exact ⟨fun _ => ⟨hextends.trans hparts, hpending.tail.extends hparts, howed⟩,
        fun _ h => by cases h⟩
    · -- The expression is stored, and then its id tells whether it was yielded before.
      have hexpr := exprs.internExpr_extends e
      have he : e.LiteralFree := hpending.new e List.mem_cons_self
      have hhas := exprs.has_internExpr e
      have hpending' := hpending.extends hexpr
      have hmem := hpending'.mem_iff hhas he
      by_cases hold : e ∈ yielded
      · rw [fresh_old hold] at howed
        simp only [accept, hmem.2 hold, if_true]
        exact ⟨fun _ => ⟨hextends.trans hexpr, hpending'.tail, howed⟩, fun _ h => by cases h⟩
      · rw [fresh_new hold] at howed
        have hnot : (exprs.internExpr e).1 ∉ seen := fun hid => hold (hmem.1 hid)
        simp only [accept, hnot, if_false]
        refine ⟨fun h => (by cases h), fun id hid => ?_⟩
        cases hid
        have hhead : owed.head? = some e := by rw [← howed, List.head?_cons]
        have htail : owed.tail = fresh (e :: yielded) vs := by rw [← howed, List.tail_cons]
        refine ⟨hextends.trans hexpr, hhead ▸ .some (hhas.denotes he), e :: yielded, ?_,
          htail.symm⟩
        obtain ⟨hseen, hold, hnew⟩ := hpending'.tail
        exact ⟨.cons hhas hseen, List.forall_mem_cons.2 ⟨he, hold⟩, hnew⟩
  obtain ⟨id?, search, ⟨seen', s', counters'⟩, hnext, hstands, hextends, hyields, hpending'⟩ :=
    Search.next?_of_rounds (Decision.narrow_cut _) hend hround h.stands
      (show P _ ⟨r.seen, s, counters⟩ from ⟨.refl s, hpending, howed⟩)
  rw [Search.next?_cut] at hnext
  refine ⟨id?, ⟨search, seen'⟩, s', counters', ?_, hextends, hyields, hstands, hpending'⟩
  rw [Readings.next?, hnext]
  rfl

end Readings

end Polyglot
