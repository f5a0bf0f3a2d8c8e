import Polyglot.Proofs.Chart.Width
import Polyglot.Proofs.Expr.Sharing

/-!
# The trees of a chart, depth first

A completed category of a chart stands for all trees that one gets by picking a production for it,
for every category that this one applies to, and so on, without coming to a category a second time
on one way down. A depth-first search that tries productions in the order in which they are stored
gets to these trees one by one.

- `Chart.Unfolding`: one tree of a category, off a path of categories.
- `Chart.trees`: all of them, in depth-first order; `mem_trees_iff`.
- `Chart.values_readings`: the decisions of a reading lead to these trees, in this order.
-/

namespace Polyglot

namespace Chart

/-- A tree of a category that comes to no category of the path, nor to any category twice on one
way down. What no part of the input belongs to is a hole. -/
inductive Unfolding (c : Chart) : List ChartCatId → CatRef → Expr → Prop where
  | unread (path : List ChartCatId) (id : InstanceId) : Unfolding c path (.grammar id) (.hole 0)
  | coerce {path : List ChartCatId} {id : ChartCatId} {cat : ChartCat} {inner : CatRef} {e : Expr}
      (hnew : id ∉ path) (hcat : c.category? id = some cat)
      (hproduction : .coerce inner ∈ cat.productions) (h : Unfolding c (id :: path) inner e) :
      Unfolding c path (.chart id) e
  | apply {path : List ChartCatId} {id : ChartCatId} {cat : ChartCat} {fn : FunId}
      {args : List CatRef} {f : ConcreteFunction} {es : List Expr}
      (hnew : id ∉ path) (hcat : c.category? id = some cat)
      (hproduction : .apply fn args ∈ cat.productions) (hfn : c.concrete.function? fn = some f)
      (hlength : args.length = es.length)
      (hargs : ∀ (i : Nat) (arg : CatRef) (e : Expr), args[i]? = some arg → es[i]? = some e →
        Unfolding c (id :: path) arg e) :
      Unfolding c path (.chart id) (.app f.name es)

/-- All ways to pick a tree for each argument, those of the last one varying fastest. -/
def treesOfAll (trees : CatRef → List Expr) : List CatRef → List (List Expr)
  | [] => [[]]
  | arg :: args => (trees arg).flatMap fun e => (treesOfAll trees args).map (e :: ·)

/-- The trees of a production, from those of its arguments. -/
def treesOfProduction (c : Chart) (trees : CatRef → List Expr) : ChartProduction → List Expr
  | .coerce inner => trees inner
  | .apply fn args =>
    match c.concrete.function? fn with
    | none => []
    | some f => (treesOfAll trees args).map (.app f.name)

/-- The trees of a category off a path, depth first: productions are tried in order. -/
def treesOf (c : Chart) (path : List ChartCatId) : CatRef → List Expr
  | .grammar _ => [.hole 0]
  | .chart id =>
    if hid : id ∈ path then []
    else
      match h : c.category? id with
      | none => []
      | some cat =>
        have := unvisited_cons_lt (mem_categoryIds_of_category? h) hid
        cat.productions.flatMap (c.treesOfProduction fun arg => c.treesOf (id :: path) arg)
termination_by unvisited c.categoryIds path

/-- The trees of the whole input, depth first: completed categories are tried in order. -/
def trees (c : Chart) : List Expr := c.completed.flatMap fun id => c.treesOf [] (.chart id)

variable {c : Chart} {path : List ChartCatId} {X : CatRef} {e : Expr}

/-! ## The trees are the acyclic unfoldings -/

theorem mem_treesOfAll {trees : CatRef → List Expr} {args : List CatRef} {es : List Expr} :
    es ∈ treesOfAll trees args ↔ List.Forall₂ (fun arg e => e ∈ trees arg) args es := by
  induction args generalizing es with
  | nil => simp [treesOfAll]
  | cons arg args ih =>
    simp only [treesOfAll, List.mem_flatMap, List.mem_map, List.forall₂_cons_left_iff, ih]
    constructor
    · rintro ⟨e, he, es', hes, rfl⟩
      exact ⟨e, es', he, hes, rfl⟩
    · rintro ⟨e, es', he, hes, rfl⟩
      exact ⟨e, he, es', hes, rfl⟩

theorem mem_treesOfProduction {trees : CatRef → List Expr} {q : ChartProduction} :
    e ∈ c.treesOfProduction trees q ↔ (∃ inner, q = .coerce inner ∧ e ∈ trees inner) ∨
      ∃ fn args f es, q = .apply fn args ∧ c.concrete.function? fn = some f ∧
        List.Forall₂ (fun arg e => e ∈ trees arg) args es ∧ e = .app f.name es := by
  cases q with
  | coerce inner => simp [treesOfProduction]
  | apply fn args =>
    rw [treesOfProduction]
    cases hfn : c.concrete.function? fn with
    | none => simp [hfn]
    | some f =>
      simp only [List.mem_map, mem_treesOfAll]
      constructor
      · rintro ⟨es, hes, rfl⟩
        exact .inr ⟨fn, args, f, es, rfl, hfn, hes, rfl⟩
      · rintro (⟨_, hq, -⟩ | ⟨_, _, f', es, hq, hfn', hes, rfl⟩)
        · cases hq
        · cases hq
          cases hfn.symm.trans hfn'
          exact ⟨es, hes, rfl⟩

/-- A category that is not on the path has the trees of its productions, in order. -/
theorem treesOf_chart {id : ChartCatId} {cat : ChartCat} (hnew : id ∉ path)
    (hcat : c.category? id = some cat) :
    c.treesOf path (.chart id) =
      cat.productions.flatMap (c.treesOfProduction (c.treesOf (id :: path))) := by
  rw [treesOf, dif_neg hnew]
  split
  · rename_i hnone
    cases hcat.symm.trans hnone
  · rename_i cat' hcat'
    cases hcat.symm.trans hcat'
    rfl

/-- What is on the path, or no category of the chart, has no trees. -/
theorem treesOf_dead {id : ChartCatId} (h : id ∈ path ∨ c.category? id = none) :
    c.treesOf path (.chart id) = [] := by
  rw [treesOf]
  split
  · rfl
  · rename_i hnew
    split
    · rfl
    · rename_i cat hcat
      rcases h with h | h
      · exact absurd h hnew
      · cases hcat.symm.trans h

theorem mem_treesOf_chart {id : ChartCatId} :
    e ∈ c.treesOf path (.chart id) ↔ id ∉ path ∧ ∃ cat, c.category? id = some cat ∧
      ∃ q ∈ cat.productions, e ∈ c.treesOfProduction (c.treesOf (id :: path)) q := by
  by_cases hnew : id ∈ path
  · rw [treesOf_dead (.inl hnew)]
    simp [hnew]
  · cases hcat : c.category? id with
    | none =>
      rw [treesOf_dead (.inr hcat)]
      simp
    | some cat =>
      rw [treesOf_chart hnew hcat]
      simp [hnew]

/-- The search gets to the trees of a category off a path, and to no others. -/
theorem mem_treesOf_iff : e ∈ c.treesOf path X ↔ c.Unfolding path X e := by
  constructor
  · intro he
    induction path, X using c.induction_on_path generalizing e with
    | grammar path id =>
      rw [treesOf, List.mem_singleton] at he
      exact he ▸ .unread path id
    | dead path id hdead =>
      rw [treesOf_dead hdead] at he
      cases he
    | chart path id cat hnew hcat ih =>
      rw [treesOf_chart hnew hcat] at he
      obtain ⟨q, hproduction, he⟩ := List.mem_flatMap.1 he
      rcases mem_treesOfProduction.1 he with
        ⟨inner, rfl, he⟩ | ⟨fn, args, f, es, rfl, hfn, hes, rfl⟩
      · exact .coerce hnew hcat hproduction (ih inner he)
      · exact .apply hnew hcat hproduction hfn hes.length_eq fun i arg e harg he =>
          ih arg (rel_of_forall₂ hes harg he)
  · intro h
    induction h with
    | unread path id => rw [treesOf, List.mem_singleton]
    | coerce hnew hcat hproduction _ ih =>
      exact mem_treesOf_chart.2 ⟨hnew, _, hcat, _, hproduction,
        mem_treesOfProduction.2 (.inl ⟨_, rfl, ih⟩)⟩
    | apply hnew hcat hproduction hfn hlength _ ih =>
      exact mem_treesOf_chart.2 ⟨hnew, _, hcat, _, hproduction, mem_treesOfProduction.2
        (.inr ⟨_, _, _, _, rfl, hfn, forall₂_of_getElem? hlength ih, rfl⟩)⟩

/-- The trees of the whole input are those of the completed categories. -/
theorem mem_trees_iff : e ∈ c.trees ↔ ∃ id ∈ c.completed, c.Unfolding [] (.chart id) e := by
  simp only [trees, List.mem_flatMap, mem_treesOf_iff]

/-- A tree of a chart has no literals. -/
theorem Unfolding.literalFree (h : c.Unfolding path X e) : e.LiteralFree := by
  induction h with
  | unread => exact .hole 0
  | coerce _ _ _ _ ih => exact ih
  | apply _ _ _ _ hlength _ ih =>
    refine .app fun e he => ?_
    obtain ⟨i, hi, rfl⟩ := List.mem_iff_getElem.1 he
    exact ih i _ _ (List.getElem?_eq_getElem (hlength ▸ hi)) (List.getElem?_eq_getElem hi)

/-! ## The decisions of a reading -/

/-- The trees among what readings come to. -/
def successes {α : Type} (rs : List (Attempt α)) : List α := rs.filterMap Except.toOption

theorem successes_failed {α : Type} (parts : List Expr) :
    successes (Decision.leaf (Except.error parts : Attempt α)).values = [] := by
  rw [Decision.values_leaf]
  rfl

theorem successes_flatten {α : Type} (rss : List (List (Attempt α))) :
    successes rss.flatten = (rss.map successes).flatten := List.filterMap_flatten ..

/-- If what fails stays failed, then only the successes count for what comes next. -/
theorem successes_flatMap {α β : Type} {f : Attempt α → List (Attempt β)}
    (hf : ∀ parts, successes (f (.error parts)) = []) (rs : List (Attempt α)) :
    successes (rs.flatMap f) = (successes rs).flatMap fun a => successes (f (.ok a)) := by
  induction rs with
  | nil => rfl
  | cons r rs ih =>
    rw [List.flatMap_cons, successes, List.filterMap_append, ← successes, ← successes, ih]
    cases r with
    | error parts => rw [hf, List.nil_append]; rfl
    | ok a => rfl

/-- Readings of several arguments come to all ways to read each of them, in the order of the
search. -/
theorem values_readAll {read : CatRef → Decision (Attempt Expr)} {trees : CatRef → List Expr}
    (h : ∀ arg, successes (read arg).values = trees arg) (args : List CatRef) :
    successes (readAll read args).values = treesOfAll trees args := by
  induction args with
  | nil => simp [readAll, treesOfAll, Decision.values_leaf, successes, Except.toOption]
  | cons arg args ih =>
    rw [readAll, treesOfAll, Decision.values_bind, successes_flatMap successes_failed, h]
    refine congrArg (List.flatMap · (trees arg)) (funext fun e => ?_)
    dsimp only
    rw [Decision.values_bind, successes_flatMap fun _ => successes_failed _, ih]
    simp only [Decision.values_leaf]
    exact List.map_eq_flatMap.symm

/-- The readings of a production come to its trees, if those of its arguments do. -/
theorem values_production {read : CatRef → Decision (Attempt Expr)} {trees : CatRef → List Expr}
    (h : ∀ arg, successes (read arg).values = trees arg) (q : ChartProduction) :
    successes (c.readProduction read q).values = c.treesOfProduction trees q := by
  cases q with
  | coerce inner => exact h inner
  | apply fn args =>
    simp only [readProduction, treesOfProduction]
    cases c.concrete.function? fn with
    | none => exact successes_failed _
    | some f =>
      dsimp only
      rw [Decision.values_bind, successes_flatMap successes_failed, values_readAll h]
      simp only [Decision.values_leaf]
      exact List.map_eq_flatMap.symm

/-- A reading of a category comes to its trees, in the order of the search. -/
theorem values_reading (c : Chart) (path : List ChartCatId) (X : CatRef) :
    successes (c.reading path X).values = c.treesOf path X := by
  induction path, X using c.induction_on_path with
  | grammar path id =>
    simp [reading_grammar, treesOf, Decision.values_leaf, successes, Except.toOption]
  | dead path id hdead =>
    rw [reading_dead hdead, treesOf_dead hdead]
    exact successes_failed _
  | chart path id cat hnew hcat ih =>
    rw [reading_chart hnew hcat, treesOf_chart hnew hcat, Decision.values_choose,
      successes_flatten, List.map_ofFn, List.flatMap_def, ← List.ofFn_getElem_eq_map]
    refine congrArg _ (congrArg _ (funext fun i => ?_))
    exact values_production ih cat.productions[i]

/-- A reading of the whole input comes to its trees, in the order of the search. -/
theorem values_readings (c : Chart) : successes c.readings.values = c.trees := by
  rw [readings, trees, Decision.values_choose, successes_flatten, List.map_ofFn, List.flatMap_def,
    ← List.ofFn_getElem_eq_map]
  exact congrArg _ (congrArg _ (funext fun i => values_reading c [] (.chart c.completed[i])))

end Chart

end Polyglot
