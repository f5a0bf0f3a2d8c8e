import Polyglot.Chart
import Polyglot.Expr.Store
import Polyglot.Search
import Polyglot.Unvisited

/-!
# Readings of a chart

The completed categories of a chart are the roots of a packed forest. A reading of it picks one of
them, and then a production for every category it comes to; it fails if a category comes up again
below itself. Arguments that no part of the input belongs to come out as holes.

- `Chart.reading`: all readings of a category, as a tree of decisions.
- `Chart.induction_on_path`: how a property of all readings is proved.
- `Readings.next?`: the readings of the whole input one by one, each expression once.

A reading that fails has built some complete parts by then. They are kept, because the store
remembers them.
-/

namespace Polyglot

namespace Chart

/-- All categories of the chart. -/
def categoryIds (c : Chart) : List ChartCatId :=
  (c.steps.toList.zipIdx.map fun (s, i) =>
    (List.range s.cats.size).map fun j => (⟨i, j⟩ : ChartCatId)).flatten

theorem mem_categoryIds_of_category? {c : Chart} {id : ChartCatId} {cat : ChartCat}
    (h : c.category? id = some cat) : id ∈ c.categoryIds := by
  simp only [category?, Option.bind_eq_some_iff, Array.getElem?_eq_some_iff] at h
  obtain ⟨s, ⟨hi, rfl⟩, hj, -⟩ := h
  simp only [categoryIds, List.mem_flatten, List.mem_map]
  refine ⟨_, ⟨(c.steps[id.step], id.step), ?_, rfl⟩, List.mem_map.2 ⟨id.idx, ?_, rfl⟩⟩
  · exact List.mem_zipIdx_iff_getElem?.2 (by simp)
  · exact List.mem_range.2 hj

/-- What a reading comes to: an expression, or the complete parts of one that failed. -/
abbrev Attempt (α : Type) := Except (List Expr) α

/-- Readings of several arguments, one after the other. -/
def readAll (read : CatRef → Decision (Attempt Expr)) : List CatRef → Decision (Attempt (List Expr))
  | [] => .leaf (.ok [])
  | arg :: args =>
    (read arg).bind fun
      | .error parts => .leaf (.error parts)
      | .ok e =>
        (readAll read args).bind fun
          | .error parts => .leaf (.error (e :: parts))
          | .ok es => .leaf (.ok (e :: es))

/-- All readings of a category; `path` are the chart categories on the way here. -/
def reading (c : Chart) (path : List ChartCatId) : CatRef → Decision (Attempt Expr)
  | .grammar _ => .leaf (.ok (.hole 0))
  | .chart id =>
    if hid : id ∈ path then .leaf (.error [])
    else
      match h : c.category? id with
      | none => .leaf (.error [])
      | some cat =>
        have := unvisited_cons_lt (mem_categoryIds_of_category? h) hid
        .choose cat.productions.length fun i =>
          match cat.productions[i] with
          | .coerce inner => c.reading (id :: path) inner
          | .apply fn args =>
            match c.concrete.function? fn with
            | none => .leaf (.error [])
            | some f =>
              (readAll (fun arg => c.reading (id :: path) arg) args).bind fun
                | .error parts => .leaf (.error parts)
                | .ok es => .leaf (.ok (.app f.name es))
termination_by unvisited c.categoryIds path

/-- The readings of a production, from those of its arguments. -/
def readProduction (c : Chart) (read : CatRef → Decision (Attempt Expr)) :
    ChartProduction → Decision (Attempt Expr)
  | .coerce inner => read inner
  | .apply fn args =>
    match c.concrete.function? fn with
    | none => .leaf (.error [])
    | some f =>
      (readAll read args).bind fun
        | .error parts => .leaf (.error parts)
        | .ok es => .leaf (.ok (.app f.name es))

theorem reading_grammar (c : Chart) (path : List ChartCatId) (id : InstanceId) :
    c.reading path (.grammar id) = .leaf (.ok (.hole 0)) := by
  rw [reading]

/-- What is on the path, or no category of the chart, cannot be read. -/
theorem reading_dead {c : Chart} {path : List ChartCatId} {id : ChartCatId}
    (h : id ∈ path ∨ c.category? id = none) : c.reading path (.chart id) = .leaf (.error []) := by
  rw [reading]
  split
  · rfl
  · rename_i hnew
    split
    · rfl
    · rename_i cat hcat
      rcases h with h | h
      · exact absurd h hnew
      · cases hcat.symm.trans h

/-- A category that is not on the path is read as one of its productions. -/
theorem reading_chart {c : Chart} {path : List ChartCatId} {id : ChartCatId} {cat : ChartCat}
    (hnew : id ∉ path) (hcat : c.category? id = some cat) :
    c.reading path (.chart id) = .choose cat.productions.length fun i =>
      c.readProduction (c.reading (id :: path)) cat.productions[i] := by
  rw [reading, dif_neg hnew]
  split
  · rename_i hnone
    cases hnone.symm.trans hcat
  · rename_i cat' hcat'
    obtain rfl := Option.some.inj (hcat.symm.trans hcat')
    refine congrArg _ (funext fun i => ?_)
    cases cat.productions[i] <;> rfl

/-- Induction on the categories that are not on a path yet, as the readings off it go. -/
@[elab_as_elim]
theorem induction_on_path (c : Chart) {motive : List ChartCatId → CatRef → Prop}
    (grammar : ∀ path id, motive path (.grammar id))
    (dead : ∀ path id, id ∈ path ∨ c.category? id = none → motive path (.chart id))
    (chart : ∀ path id cat, id ∉ path → c.category? id = some cat →
      (∀ X, motive (id :: path) X) → motive path (.chart id))
    (path : List ChartCatId) (X : CatRef) : motive path X := by
  induction hm : unvisited c.categoryIds path using Nat.strongRecOn generalizing path X with
  | ind m ih =>
    cases X with
    | grammar id => exact grammar path id
    | chart id =>
      by_cases hnew : id ∈ path
      · exact dead path id (.inl hnew)
      · cases hcat : c.category? id with
        | none => exact dead path id (.inr hcat)
        | some cat =>
          have hless := unvisited_cons_lt (mem_categoryIds_of_category? hcat) hnew
          exact chart path id cat hnew hcat fun X => ih _ (hm ▸ hless) _ X rfl

/-- All readings of the whole input. -/
def readings (c : Chart) : Decision (Attempt Expr) :=
  .choose c.completed.length fun i => c.reading [] (.chart c.completed[i])

end Chart

/-- Where an enumeration of readings stands. -/
structure Readings where
  search : Search := {}
  /-- The expressions that it has yielded. -/
  seen : List ExprId := []

namespace Readings

/-- What is kept from round to round. -/
structure State where
  seen : List ExprId
  exprs : ExprStore
  counters : Counters

/-- Stores what a reading comes to. Only an expression that was not seen before is yielded. -/
def accept (r : Option (Chart.Attempt Expr)) (s : State) : Option ExprId × State :=
  match r with
  | none => (none, s)
  | some (.error parts) => (none, { s with exprs := (s.exprs.internExprs parts).2 })
  | some (.ok e) =>
    let (id, exprs) := s.exprs.internExpr e
    if id ∈ s.seen then (none, { s with exprs })
    else
      (some id,
        { s with seen := id :: s.seen, exprs, counters.parseTrees := s.counters.parseTrees + 1 })

/-- The next expression that the whole input can be read as, if there is one. -/
def next? (c : Chart) (r : Readings) (exprs : ExprStore) (counters : Counters) :
    Except Choice.Fault (Option ExprId × Readings × ExprStore × Counters) := do
  let (id?, search, s) ← r.search.next? c.readings accept ⟨r.seen, exprs, counters⟩
  return (id?, ⟨search, s.seen⟩, s.exprs, s.counters)

/-- The first expressions that the whole input can be read as, up to `limit` of them. -/
def take (c : Chart) (limit : Nat) (exprs : ExprStore) (counters : Counters) :
    Except Choice.Fault (List ExprId × ExprStore × Counters) := do
  let (ids, _, s) ← Search.take c.readings accept limit {} ⟨[], exprs, counters⟩
  return (ids, s.exprs, s.counters)

end Readings

end Polyglot
