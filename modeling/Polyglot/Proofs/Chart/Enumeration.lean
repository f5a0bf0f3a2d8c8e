import Polyglot.Chart.Readings
import Polyglot.Proofs.Chart.Exactness
import Polyglot.Proofs.Exhaustion
import Polyglot.Proofs.Generation.Correspondence

/-!
# The expressions of a chart

The readings of a chart are enumerated by going down from its goals; a way down that comes to a
category a second time is given up. So what is enumerated are the expressions of those phrases in
which no category comes up below itself.

- `UnfoldsOff`: the phrases that a category unfolds to off a path of categories.
- `Built.ok_mem_values_reading`: the leaves of the enumeration.
- `Readings.exists_of_mem_take`: an id that is yielded stands for the expression of a reading.
-/

namespace Polyglot

/-- A category unfolds to a phrase without coming to a category of a path, or twice to one. -/
inductive UnfoldsOff (F : Fact → Prop) : List ChartCatId → CatRef → Phrase → Prop where
  | unread (path : List ChartCatId) (id : InstanceId) : UnfoldsOff F path (.grammar id) .unread
  | node {path : List ChartCatId} {done : ChartCatId} {q : ChartProduction} {p : Production}
      {parts : List Phrase} (hnew : done ∉ path) (hproduces : F (.produces done q))
      (hstems : Stems F q p) (hlength : parts.length = q.args.length)
      (hparts : ∀ (i : Nat) (X : CatRef) (part : Phrase), q.args[i]? = some X →
        parts[i]? = some part → UnfoldsOff F (done :: path) X part) :
      UnfoldsOff F path (.chart done) (.node p parts)

theorem UnfoldsOff.unfolds {F : Fact → Prop} {path : List ChartCatId} {X : CatRef} {t : Phrase}
    (h : UnfoldsOff F path X t) : Unfolds F X t := by
  induction h with
  | unread path id => exact .unread id
  | node _ hproduces hstems hlength _ ih => exact .node hproduces hstems hlength ih

/-- A phrase stands for an expression without literals. -/
theorem Phrase.Denotes.literalFree {c : Concrete} {t : Phrase} {e : Expr} (h : t.Denotes c e) :
    e.LiteralFree := by
  induction h with
  | unread => exact .hole 0
  | coerce _ ih => exact ih
  | apply _ hlength _ ih =>
    refine .app fun e he => ?_
    obtain ⟨i, hi, rfl⟩ := List.mem_iff_getElem.1 he
    exact ih i _ _ (List.getElem?_eq_getElem (hlength ▸ hi)) (List.getElem?_eq_getElem hi)

namespace Chart

variable {c : Concrete} {v : Nat → Sym} {ids : List InstanceId} {goal : Nat} {chart : Chart}

/-! ## The leaves of the enumeration -/

/-- The productions that are known of a category are those that it has. -/
theorem produces_iff {C : ChartCatId} {q : ChartProduction} :
    chart.facts (.produces C q) ↔ ∃ cat, chart.category? C = some cat ∧ q ∈ cat.productions := by
  simp only [category?, Option.bind_eq_some_iff]
  constructor
  · rintro ⟨k, s, hs, rfl, cat, hcat, hq⟩
    exact ⟨cat, ⟨s, hs, hcat⟩, hq⟩
  · rintro ⟨cat, ⟨s, hs, hcat⟩, hq⟩
    exact ⟨C.step, s, hs, rfl, cat, hcat, hq⟩

/-- Arguments are read one by one. -/
theorem ok_mem_values_readAll {read : CatRef → Decision (Attempt Expr)} {args : List CatRef}
    {es : List Expr} :
    .ok es ∈ (readAll read args).values ↔
      List.Forall₂ (fun X e => .ok e ∈ (read X).values) args es := by
  induction args generalizing es with
  | nil =>
    rw [readAll, Decision.mem_values_leaf, List.forall₂_nil_left_iff, Except.ok.injEq]
  | cons X args ih =>
    rw [readAll, Decision.mem_values_bind]
    constructor
    · rintro ⟨r, hr, hes⟩
      cases r with
      | error parts => cases Decision.mem_values_leaf.1 hes
      | ok e =>
        obtain ⟨r', hr', hes⟩ := Decision.mem_values_bind.1 hes
        cases r' with
        | error parts => cases Decision.mem_values_leaf.1 hes
        | ok es' =>
          cases Decision.mem_values_leaf.1 hes
          exact .cons hr (ih.1 hr')
    · rintro (_ | ⟨he, hes⟩)
      exact ⟨_, he, Decision.mem_values_bind.2 ⟨_, ih.2 hes, Decision.mem_values_leaf.2 rfl⟩⟩

/-- What the reading of a production comes to, given that of its arguments. -/
theorem ok_mem_values_production {read : CatRef → Decision (Attempt Expr)} {q : ChartProduction}
    {e : Expr} :
    .ok e ∈ (chart.readProduction read q).values ↔
      (∃ inner, q = .coerce inner ∧ .ok e ∈ (read inner).values) ∨
      ∃ fn args f es, q = .apply fn args ∧ chart.concrete.function? fn = some f ∧
        e = .app f.name es ∧ List.Forall₂ (fun X e => .ok e ∈ (read X).values) args es := by
  cases q with
  | coerce inner => simp [readProduction]
  | apply fn args =>
    rw [readProduction]
    cases hf : chart.concrete.function? fn with
    | none => simp [hf]
    | some f =>
      simp only [Decision.mem_values_bind]
      constructor
      · rintro ⟨r, hr, he⟩
        cases r with
        | error parts => cases Decision.mem_values_leaf.1 he
        | ok es =>
          cases Decision.mem_values_leaf.1 he
          exact .inr ⟨fn, args, f, es, rfl, hf, rfl, ok_mem_values_readAll.1 hr⟩
      · rintro (⟨inner, hq, -⟩ | ⟨fn', args', f', es, hq, hf', rfl, hes⟩)
        · cases hq
        · cases hq
          cases hf.symm.trans hf'
          exact ⟨.ok es, ok_mem_values_readAll.2 hes, Decision.mem_values_leaf.2 rfl⟩

/-- What the reading of a category comes to: nothing on the path, and a production of it. -/
theorem ok_mem_values_chart {path : List ChartCatId} {C : ChartCatId} {e : Expr} :
    .ok e ∈ (chart.reading path (.chart C)).values ↔ C ∉ path ∧ ∃ q, chart.facts (.produces C q) ∧
      ((∃ inner, q = .coerce inner ∧ .ok e ∈ (chart.reading (C :: path) inner).values) ∨
        ∃ fn args f es, q = .apply fn args ∧ chart.concrete.function? fn = some f ∧
          e = .app f.name es ∧
          List.Forall₂ (fun X e => .ok e ∈ (chart.reading (C :: path) X).values) args es) := by
  by_cases hnew : C ∈ path
  · rw [reading_dead (.inl hnew)]
    exact iff_of_false (fun h => by cases Decision.mem_values_leaf.1 h) fun h => h.1 hnew
  · cases hcat : chart.category? C with
    | none =>
      rw [reading_dead (.inr hcat)]
      refine iff_of_false (fun h => by cases Decision.mem_values_leaf.1 h) ?_
      rintro ⟨-, q, hq, -⟩
      obtain ⟨cat, hcat', -⟩ := produces_iff.1 hq
      cases hcat.symm.trans hcat'
    | some cat =>
      rw [reading_chart hnew hcat, Decision.mem_values_choose]
      constructor
      · rintro ⟨i, hi⟩
        refine ⟨hnew, cat.productions[i], produces_iff.2 ⟨cat, hcat, List.getElem_mem _⟩, ?_⟩
        exact ok_mem_values_production.1 hi
      · rintro ⟨-, q, hq, he⟩
        obtain ⟨cat', hcat', hq⟩ := produces_iff.1 hq
        cases hcat.symm.trans hcat'
        obtain ⟨i, hi, rfl⟩ := List.mem_iff_getElem.1 hq
        exact ⟨⟨i, hi⟩, ok_mem_values_production.2 he⟩

/-- An expression at a leaf of the enumeration is that of a phrase that the category unfolds to off
the path. -/
theorem Built.exists_unfoldsOff_of_reading (h : Built c v ids goal chart) {path : List ChartCatId}
    {X : CatRef} {id : InstanceId} {L : List Span} (hchain : Chain chart.facts X id L) {e : Expr}
    (he : .ok e ∈ (chart.reading path X).values) :
    ∃ t, UnfoldsOff chart.facts path X t ∧ t.Denotes c e := by
  induction path, X using chart.induction_on_path generalizing id L e with
  | grammar path id' =>
    rw [reading_grammar, Decision.mem_values_leaf] at he
    cases he
    exact ⟨.unread, .unread path id', .unread⟩
  | dead path C hdead =>
    rw [reading_dead hdead] at he
    cases Decision.mem_values_leaf.1 he
  | chart path C cat hnew hcat ih =>
    obtain ⟨-, q, hproduces, he⟩ := ok_mem_values_chart.1 he
    obtain ⟨p, hp, hmeans⟩ := h.sound.means hchain hproduces
    have hargs : ∀ Y ∈ q.args, ∀ e, .ok e ∈ (chart.reading (C :: path) Y).values →
        ∃ t, UnfoldsOff chart.facts (C :: path) Y t ∧ t.Denotes c e := by
      intro Y hY e he
      obtain ⟨id', L', hchain'⟩ := hmeans.chain hY
      exact ih Y hchain' he
    rcases he with ⟨inner, rfl, he⟩ | ⟨fn, args, f, es, rfl, hf, rfl, hes⟩
    · cases p with
      | apply fn args => cases hmeans.head
      | coerce target =>
        obtain ⟨t, ht, hdenotes⟩ := hargs inner List.mem_cons_self e he
        refine ⟨.node (.coerce target) [t],
          .node hnew hproduces hmeans.stems rfl fun i Y part hY hpart => ?_, .coerce hdenotes⟩
        obtain ⟨hi, rfl⟩ := List.getElem?_eq_some_iff.1 hY
        obtain rfl : i = 0 := Nat.lt_one_iff.1 hi
        cases hpart
        exact ht
    · cases p with
      | coerce target => cases hmeans.head
      | apply fn' args' =>
        cases hmeans.head
        obtain ⟨parts, hunfolds, hdenotes⟩ := exists_between_forall₂ hes hargs
        refine ⟨.node (.apply fn args') parts,
          .node hnew hproduces hmeans.stems hunfolds.length_eq.symm fun i Y part hY hpart =>
            rel_of_forall₂ hunfolds hY hpart,
          .apply (h.concrete ▸ hf) hdenotes.length_eq.symm fun i part e hpart he =>
            rel_of_forall₂ hdenotes hpart he⟩

/-- The expression of a phrase that a category unfolds to off the path is at a leaf of the
enumeration. -/
theorem Built.mem_reading_of_unfoldsOff (h : Built c v ids goal chart) {path : List ChartCatId}
    {X : CatRef} {id : InstanceId} {L : List Span} (hchain : Chain chart.facts X id L) {e : Expr}
    {t : Phrase} (ht : UnfoldsOff chart.facts path X t) (hdenotes : t.Denotes c e) :
    .ok e ∈ (chart.reading path X).values := by
  induction ht generalizing id L e with
  | unread path id =>
    cases hdenotes
    rw [reading_grammar, Decision.mem_values_leaf]
  | @node path C q p parts hnew hproduces hstems hlength _ ih =>
    obtain ⟨p', hp, hmeans⟩ := h.sound.means hchain hproduces
    refine ok_mem_values_chart.2 ⟨hnew, q, hproduces, ?_⟩
    have hargs : ∀ (i : Nat) (Y : CatRef) (part : Phrase) (e : Expr), q.args[i]? = some Y →
        parts[i]? = some part → part.Denotes c e →
        .ok e ∈ (chart.reading (C :: path) Y).values := by
      intro i Y part e hY hpart hdenotes
      obtain ⟨id', L', hchain'⟩ := hmeans.chain (List.mem_of_getElem? hY)
      exact ih i Y part hY hpart hchain' hdenotes
    cases hdenotes with
    | @coerce target part e hdenotes =>
      cases q with
      | apply fn args => cases hstems.head
      | coerce inner => exact .inl ⟨inner, rfl, hargs 0 inner part e rfl rfl hdenotes⟩
    | @apply fn args f _ es hfn hlength' hparts =>
      cases q with
      | coerce inner => cases hstems.head
      | apply fn' args' =>
        cases hstems.head
        refine .inr ⟨fn, args', f, es, rfl, h.concrete ▸ hfn, rfl, ?_⟩
        refine forall₂_of_getElem? (hlength.symm.trans hlength'.symm) fun i Y e hY he => ?_
        have hi : i < parts.length := hlength' ▸ (List.getElem?_eq_some_iff.1 he).1
        have hpart := List.getElem?_eq_getElem hi
        exact hargs i Y _ e hY hpart (hparts i _ e hpart he)

/-- **The leaves of the enumeration** are the expressions of the phrases that a category unfolds to
off the path. -/
theorem Built.ok_mem_values_reading (h : Built c v ids goal chart) {path : List ChartCatId}
    {X : CatRef} {id : InstanceId} {L : List Span} (hchain : Chain chart.facts X id L) {e : Expr} :
    .ok e ∈ (chart.reading path X).values ↔
      ∃ t, UnfoldsOff chart.facts path X t ∧ t.Denotes c e := by
  constructor
  · exact h.exists_unfoldsOff_of_reading hchain
  · rintro ⟨t, ht, hdenotes⟩
    exact h.mem_reading_of_unfoldsOff hchain ht hdenotes

/-- The leaves of the enumeration of a whole chart. -/
theorem Built.ok_mem_values_readings (h : Built c v ids goal chart) {e : Expr} :
    .ok e ∈ chart.readings.values ↔
      ∃ C ∈ chart.completed, ∃ t, UnfoldsOff chart.facts [] (.chart C) t ∧ t.Denotes c e := by
  have hgoal : ∀ C ∈ chart.completed, .ok e ∈ (chart.reading [] (.chart C)).values ↔
      ∃ t, UnfoldsOff chart.facts [] (.chart C) t ∧ t.Denotes c e := by
    intro C hC
    obtain ⟨-, id, -, S, n, -, hcloses⟩ := h.completes_goal hC
    exact h.ok_mem_values_reading (.chart hcloses (.grammar id))
  rw [readings, Decision.mem_values_choose]
  constructor
  · rintro ⟨i, hi⟩
    exact ⟨_, List.getElem_mem _, (hgoal _ (List.getElem_mem _)).1 hi⟩
  · rintro ⟨C, hC, ht⟩
    obtain ⟨i, hi, rfl⟩ := List.mem_iff_getElem.1 hC
    exact ⟨⟨i, hi⟩, (hgoal _ hC).2 ht⟩

end Chart

/-! ## The ids that are yielded -/

namespace Readings

variable {chart : Chart}

/-- A round keeps what is stored. -/
theorem accept_extends {s : State} (h : s.exprs.Ordered) (r : Option (Chart.Attempt Expr)) :
    (accept r s).2.exprs.Ordered ∧ s.exprs.Extends (accept r s).2.exprs := by
  rcases r with _ | parts | e
  · exact ⟨h, .refl _⟩
  · exact ExprStore.extends_internExprs h parts
  · obtain ⟨hordered, hextends, -⟩ := ExprStore.internExpr_spec h e
    simp only [accept]
    split <;> exact ⟨hordered, hextends⟩

/-- A round that comes to an expression leaves an id behind that stands for it and has been yielded,
now or before. -/
theorem accept_ok {s : State} (h : s.exprs.Ordered) {e : Expr} (he : e.LiteralFree) :
    ∃ id, (accept (some (.ok e)) s).2.exprs.expr? id = some e ∧
      ((accept (some (.ok e)) s).1 = none ∧ id ∈ s.seen ∧
          (accept (some (.ok e)) s).2.seen = s.seen ∨
        (accept (some (.ok e)) s).1 = some id ∧
          (accept (some (.ok e)) s).2.seen = id :: s.seen) := by
  have hid := ExprStore.expr?_internExpr h he
  refine ⟨(s.exprs.internExpr e).1, ?_⟩
  simp only [accept]
  split
  · rename_i hseen
    exact ⟨hid, .inl ⟨rfl, hseen, rfl⟩⟩
  · exact ⟨hid, .inr ⟨rfl, rfl⟩⟩

/-- An id that is yielded stands for an expression at a leaf of the enumeration, if the expressions
there have no literals. -/
theorem exists_of_mem_take (hfree : ∀ e, .ok e ∈ chart.readings.values → e.LiteralFree)
    {limit : Nat} {exprs exprs' : ExprStore} (hordered : exprs.Ordered)
    {counters counters' : Counters} {ids : List ExprId}
    (h : take chart limit exprs counters = .ok (ids, exprs', counters')) {id : ExprId}
    (hid : id ∈ ids) : ∃ e, exprs'.expr? id = some e ∧ .ok e ∈ chart.readings.values := by
  rw [take] at h
  obtain ⟨⟨ids', s', state⟩, htake, h⟩ := bind_eq_ok.1 h
  cases h
  -- The invariant of a round: ids that were yielded stand for such expressions and go on to do so.
  have hround : ∀ (r : Option (Chart.Attempt Expr)) (s : State),
      (∀ a, r = some a → a ∈ chart.readings.values) → s.exprs.Ordered →
        (accept r s).2.exprs.Ordered ∧
        (∀ id, (accept r s).1 = some id →
          ∃ e, (accept r s).2.exprs.expr? id = some e ∧ .ok e ∈ chart.readings.values) ∧
        ∀ id, (∃ e, s.exprs.expr? id = some e ∧ .ok e ∈ chart.readings.values) →
          ∃ e, (accept r s).2.exprs.expr? id = some e ∧ .ok e ∈ chart.readings.values := by
    intro r s hr hs
    obtain ⟨hordered, hextends⟩ := accept_extends hs r
    refine ⟨hordered, fun id hid => ?_, fun id ⟨e, he, hmem⟩ => ⟨e, hextends.expr? he, hmem⟩⟩
    rcases r with _ | parts | e
    · cases hid
    · cases hid
    · have hmem := hr _ rfl
      obtain ⟨id', hid', ⟨hnone, -⟩ | ⟨hsome, -⟩⟩ := accept_ok hs (hfree e hmem)
      · cases hid.symm.trans hnone
      · cases hid.symm.trans hsome
        exact ⟨e, hid', hmem⟩
  obtain ⟨-, hyield, -⟩ := Search.take_invariant
    (Q := fun id (s : State) => ∃ e, s.exprs.expr? id = some e ∧ .ok e ∈ chart.readings.values)
    hround limit {} hordered htake
  exact hyield id hid

/-- When all rounds are made, what has been seen is what was yielded, and every expression that a
round came to has an id among it. -/
theorem stateAfter_accept (rs : List (Option (Chart.Attempt Expr)))
    (hfree : ∀ e, some (.ok e) ∈ rs → e.LiteralFree) {s : State} (hs : s.exprs.Ordered) :
    s.exprs.Extends (Search.stateAfter accept rs s).exprs ∧
      (Search.stateAfter accept rs s).seen = (Search.acceptedOf accept rs s).reverse ++ s.seen ∧
      ∀ e, some (.ok e) ∈ rs → ∃ id ∈ (Search.stateAfter accept rs s).seen,
        (Search.stateAfter accept rs s).exprs.expr? id = some e := by
  induction rs generalizing s with
  | nil => exact ⟨.refl _, rfl, by simp⟩
  | cons r rs ih =>
    obtain ⟨hordered, hextends⟩ := accept_extends hs r
    obtain ⟨hextends', hseen, hfound⟩ :=
      ih (fun e he => hfree e (List.mem_cons_of_mem _ he)) hordered
    -- What the first round yields comes first, and it has been seen in all later rounds.
    have hseen' : (Search.stateAfter accept (r :: rs) s).seen =
        (Search.acceptedOf accept (r :: rs) s).reverse ++ s.seen ∧
        ∀ e, r = some (.ok e) → ∃ id ∈ (Search.stateAfter accept (r :: rs) s).seen,
          (Search.stateAfter accept (r :: rs) s).exprs.expr? id = some e := by
      rw [Search.stateAfter, Search.acceptedOf, hseen]
      rcases r with _ | parts | e
      · exact ⟨rfl, by simp⟩
      · exact ⟨rfl, by simp⟩
      · obtain ⟨id, hid, haccept⟩ := accept_ok hs (hfree e List.mem_cons_self)
        have hid' := hextends'.expr? hid
        cases hround : accept (some (.ok e)) s with
        | mk id? state =>
          rw [hround] at hid' haccept
          dsimp only at haccept
          rcases haccept with ⟨rfl, hmem, heq⟩ | ⟨rfl, heq⟩
          · refine ⟨by rw [heq], fun e' he' => ?_⟩
            cases he'
            exact ⟨id, by simp [heq, hmem], hid'⟩
          · refine ⟨by simp [heq], fun e' he' => ?_⟩
            cases he'
            exact ⟨id, by simp [heq], hid'⟩
    refine ⟨hextends.trans hextends', hseen'.1, fun e he => ?_⟩
    rcases List.mem_cons.1 he with rfl | he
    · exact hseen'.2 e rfl
    · exact hfound e he

/-- Every expression at a leaf of the enumeration is yielded, if enough expressions are asked for
and no decision is wider than a record of decisions. -/
theorem exists_take (hnarrow : chart.readings.Narrow)
    (hfree : ∀ e, .ok e ∈ chart.readings.values → e.LiteralFree) {exprs : ExprStore}
    (hordered : exprs.Ordered) (counters : Counters) :
    ∃ count ids exprs' counters', take chart count exprs counters = .ok (ids, exprs', counters') ∧
      ∀ e, .ok e ∈ chart.readings.values → ∃ id ∈ ids, exprs'.expr? id = some e := by
  let start : State := ⟨[], exprs, counters⟩
  let accepted := Search.accepted chart.readings accept {} start
  obtain ⟨s', state, htake, hfinal⟩ := Search.take_eq hnarrow accept (accepted.length + 1) {}
    (Search.stands_start _) start
  have hall : accepted.take (accepted.length + 1) = accepted :=
    List.take_of_length_le (Nat.le_succ _)
  rw [hall] at htake
  have hstate := hfinal (Nat.lt_succ_self _)
  have hmem : ∀ e, .ok e ∈ chart.readings.values ↔
      some (.ok e) ∈ ({} : Search).upcoming chart.readings := by
    intro e
    rw [Search.upcoming_start, Decision.values, List.mem_filterMap, List.mem_map]
  obtain ⟨-, hseen, hfound⟩ := stateAfter_accept (({} : Search).upcoming chart.readings)
    (fun e he => hfree e ((hmem e).2 he)) (s := start) hordered
  refine ⟨accepted.length + 1, accepted, state.exprs, state.counters, ?_, fun e he => ?_⟩
  · rw [take, htake]
    rfl
  · obtain ⟨id, hid, hexpr⟩ := hfound e ((hmem e).1 he)
    rw [hseen, List.append_nil, List.mem_reverse] at hid
    exact ⟨id, hid, by rw [hstate]; exact hexpr⟩

end Readings

end Polyglot
