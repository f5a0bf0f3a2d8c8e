import Polyglot.Proofs.Expr.Store
import Polyglot.Proofs.Generation.Ascent

/-!
# The derivations of an expression, each once

What a derivation has to fulfil can be said without any search: every application in it is made by a
production of its function whose argument instances can be reached from those of the arguments
(`Derivation.Expresses`). The search decides on derivations of the arguments, on ways up from them
and on a production, and drops what it has yielded before.

- `Linearizer.mem_values_derivations`: the leaves of the search are these derivations.
- `Derivation.Expresses.eq_of_canonical_eq`: the filter drops nothing but repetitions.
- `Concretizations.answers_eq`: so the answers are these derivations, each once, and then none.
-/

namespace Polyglot

/-! ## What a derivation says -/

/-- Two lists that match a third are equal if their members can be told apart by a function. -/
theorem eq_of_map_eq {α β γ : Type} {R : α → β → Prop} {f : α → γ} {as as' : List α}
    {bs : List β} (h : List.Forall₂ R as bs) (h' : List.Forall₂ R as' bs)
    (hinj : ∀ b ∈ bs, ∀ {a a'}, R a b → R a' b → f a = f a' → a = a')
    (heq : as.map f = as'.map f) : as = as' := by
  induction h generalizing as' with
  | nil =>
    cases h'
    rfl
  | cons hab _ ih =>
    cases h' with
    | cons hab' h' =>
      simp only [List.map_cons, List.cons.injEq] at heq
      rw [hinj _ List.mem_cons_self hab hab' heq.1,
        ih h' (fun b hb => hinj b (List.mem_cons_of_mem _ hb)) heq.2]

namespace Derivation

/-- A derivation makes an expression. Nothing is asked of the instance of an argument that is not
known. -/
inductive Expresses (a : Abstract) (c : Concrete) : Derivation → Expr → Prop where
  | hole (index : Nat) : Expresses a c (.hole index) (.hole index)
  | lit (value : Literal) : Expresses a c (.lit (literalInstance value) value) (.lit value)
  | app {id : InstanceId} {fn : FunId} {name : Sym} {ds : List Derivation} {es : List Expr}
      {decl : AbstractFunction} {f : ConcreteFunction} {args : List InstanceId}
      (hdecl : a.function? name = some decl) (harity : decl.arity = es.length)
      (hargs : List.Forall₂ (Expresses a c) ds es) (hprod : .apply fn args ∈ c.productionsOf id)
      (hfn : c.function? fn = some f) (hname : f.name = name)
      (hreach : List.Forall₂
        (fun d arg => ∀ root, d.root? = some root → c.Reaches root arg) ds args) :
      Expresses a c (.app id fn name ds) (.app name es)

theorem canonicalAll_eq_map (ds : List Derivation) : canonicalAll ds = ds.map canonical := by
  induction ds with
  | nil => rfl
  | cons d ds ih => rw [canonicalAll, ih, List.map_cons]

/-- Derivations of one expression that count as equal are equal: the expression fixes the values of
their literals. -/
theorem Expresses.eq_of_canonical_eq {a : Abstract} {c : Concrete} {e : Expr} {d d' : Derivation}
    (h : d.Expresses a c e) (h' : d'.Expresses a c e) (heq : d.canonical = d'.canonical) :
    d = d' := by
  induction e using Expr.induction generalizing d d' with
  | hole index =>
    cases h
    cases h'
    rfl
  | lit value =>
    cases h
    cases h'
    rfl
  | app name es ih =>
    cases h with
    | @app id fn _ ds _ _ _ _ _ _ hargs =>
      cases h' with
      | @app id' fn' _ ds' _ _ _ _ _ _ hargs' =>
        simp only [canonical, canonicalAll_eq_map, app.injEq] at heq ⊢
        obtain ⟨hid, hfn, -, hmap⟩ := heq
        exact ⟨hid, hfn, trivial, eq_of_map_eq hargs hargs' ih hmap⟩

end Derivation

/-! ## The leaves of the search -/

namespace Linearizer

variable {g : Grammar} {c : Concrete}

/-- An argument can be passed as what an instance reaches; one that is not known, as anything. -/
theorem exists_mem_values_passed {id? : Option InstanceId} {arg : InstanceId} :
    (∃ p ∈ ((ofConcrete g c).passed id?).values, p.all (· = arg) = true) ↔
      ∀ id, id? = some id → c.Reaches id arg := by
  cases id? with
  | none => simp [passed]
  | some id =>
    simp only [passed, Decision.mem_values_bind, Option.some.injEq, forall_eq']
    rw [← Index.mem_climb]
    constructor
    · rintro ⟨p, ⟨⟨top, n⟩, htop, hp⟩, harg⟩
      cases Decision.mem_values_leaf.1 hp
      simp only [Option.all_some, decide_eq_true_eq] at harg
      exact ⟨n, harg ▸ htop⟩
    · rintro ⟨n, htop⟩
      exact ⟨some arg, ⟨(arg, n), htop, by simp⟩, by simp⟩

/-- Derivations of arguments come with one way of passing each. -/
theorem mem_values_argDerivations {l : Linearizer} {es : List Expr} {ds : List Derivation}
    {ps : List (Option InstanceId)} :
    (ds, ps) ∈ (l.argDerivations es).values ↔
      List.Forall₂ (fun d e => d ∈ (l.derivations e).values) ds es ∧
        List.Forall₂ (fun d p => p ∈ (l.passed d.root?).values) ds ps := by
  induction es generalizing ds ps with
  | nil =>
    rw [argDerivations, Decision.mem_values_leaf]
    constructor
    · rintro ⟨rfl, rfl⟩
      exact ⟨.nil, .nil⟩
    · rintro ⟨hds, hps⟩
      cases hds
      cases hps
      rfl
  | cons e es ih =>
    simp only [argDerivations, Decision.mem_values_bind, Decision.mem_values_leaf, Prod.mk.injEq]
    constructor
    · rintro ⟨d, hd, p, hp, ⟨ds, ps⟩, hrest, rfl, rfl⟩
      obtain ⟨hds, hps⟩ := ih.1 hrest
      exact ⟨.cons hd hds, .cons hp hps⟩
    · rintro ⟨hds, hps⟩
      cases hds with
      | cons hd hds =>
        cases hps with
        | cons hp hps => exact ⟨_, hd, _, hp, (_, _), ih.2 ⟨hds, hps⟩, rfl, rfl⟩

/-- Some way of passing the arguments agrees with a production if its instances can be reached. -/
theorem exists_agrees {ds : List Derivation} {args : List InstanceId} :
    (∃ ps, List.Forall₂ (fun d p => p ∈ ((ofConcrete g c).passed d.root?).values) ds ps ∧
        Index.agrees args ps = true) ↔
      List.Forall₂ (fun d arg => ∀ root, d.root? = some root → c.Reaches root arg) ds args := by
  constructor
  · rintro ⟨ps, hps, hagrees⟩
    induction hps generalizing args with
    | nil =>
      cases args with
      | nil => exact .nil
      | cons arg args => simp [Index.agrees] at hagrees
    | @cons d p ds ps hp _ ih =>
      cases args with
      | nil => simp [Index.agrees] at hagrees
      | cons arg args =>
        simp only [Index.agrees, Bool.and_eq_true] at hagrees
        exact .cons (exists_mem_values_passed.1 ⟨p, hp, hagrees.1⟩) (ih hagrees.2)
  · intro h
    induction h with
    | nil => exact ⟨[], .nil, rfl⟩
    | @cons d arg ds args hd _ ih =>
      obtain ⟨p, hp, harg⟩ := exists_mem_values_passed.2 hd
      obtain ⟨ps, hps, hagrees⟩ := ih
      exact ⟨p :: ps, .cons hp hps, by simp only [Index.agrees, harg, hagrees, Bool.and_self]⟩

/-- The leaves of the search are the derivations that make the expression. -/
theorem mem_values_derivations {e : Expr} {d : Derivation} :
    d ∈ ((ofConcrete g c).derivations e).values ↔ d.Expresses g.abs c e := by
  induction e using Expr.induction generalizing d with
  | hole index =>
    rw [derivations, Decision.mem_values_leaf]
    constructor
    · rintro rfl
      exact .hole index
    · intro h
      cases h
      rfl
  | lit value =>
    rw [derivations, Decision.mem_values_leaf]
    constructor
    · rintro rfl
      exact .lit value
    · intro h
      cases h
      rfl
  | app name es ih =>
    have hargs : ∀ ds : List Derivation,
        List.Forall₂ (fun d e => d ∈ ((ofConcrete g c).derivations e).values) ds es ↔
          List.Forall₂ (Derivation.Expresses g.abs c) ds es := by
      intro ds
      simp only [List.forall₂_iff_get]
      refine and_congr_right fun hlen => forall_congr' fun i => forall_congr' fun hi =>
        forall_congr' fun hi' => ?_
      exact ih _ (List.get_mem es ⟨i, hi'⟩)
    rw [derivations]
    -- Without a declaration, or with another number of arguments, neither side has anything.
    cases hdecl : (ofConcrete g c).abs.function? name with
    | none =>
      refine iff_of_false Decision.not_mem_values_fail fun h => ?_
      cases h with
      | app hdecl' => exact nomatch hdecl.symm.trans hdecl'
    | some decl =>
      dsimp only
      split
      · rename_i harity
        refine iff_of_false Decision.not_mem_values_fail fun h => ?_
        cases h with
        | app hdecl' harity' =>
          cases hdecl.symm.trans hdecl'
          exact harity harity'
      · rename_i harity
        simp only [Decision.mem_values_bind, Decision.mem_values_ofList, Decision.mem_values_leaf]
        constructor
        · rintro ⟨⟨ds, ps⟩, hds, entry, hentry, rfl⟩
          obtain ⟨hds, hps⟩ := mem_values_argDerivations.1 hds
          obtain ⟨args, hprod, ⟨f, hf, hname⟩, hagrees⟩ := Index.mem_matching.1 hentry
          exact .app hdecl (not_not.1 harity) ((hargs ds).1 hds) hprod hf hname
            (exists_agrees.1 ⟨ps, hps, hagrees⟩)
        · intro h
          cases h with
          | @app id fn _ ds _ _ f args _ _ hds hprod hf hname hreach =>
            obtain ⟨ps, hps, hagrees⟩ := exists_agrees.2 hreach
            exact ⟨(ds, ps), mem_values_argDerivations.2 ⟨(hargs ds).2 hds, hps⟩, ⟨id, fn⟩,
              Index.mem_matching.2 ⟨args, hprod, ⟨f, hf, hname⟩, hagrees⟩, rfl⟩

/-! ## The width of the search -/

theorem narrow_passed (hwidth : c.allProductions.length < Choice.maxAlternatives)
    (id? : Option InstanceId) : ((ofConcrete g c).passed id?).Narrow := by
  cases id? with
  | none => trivial
  | some id =>
    have hsupers := fun g => Nat.lt_of_le_of_lt (Index.length_supers_le c g) hwidth
    exact (Index.narrow_climbFrom hsupers [] id).bind fun _ _ => trivial

/-- No decision of the search is wider than the syntax has productions, staying on a way up apart.
-/
theorem narrow_derivations (hwidth : c.allProductions.length < Choice.maxAlternatives) (e : Expr) :
    ((ofConcrete g c).derivations e).Narrow := by
  induction e using Expr.induction with
  | hole index => trivial
  | lit value => trivial
  | app name es ih =>
    have hargs : ((ofConcrete g c).argDerivations es).Narrow := by
      induction es with
      | nil => trivial
      | cons e es ihes =>
        rw [argDerivations]
        refine (ih e List.mem_cons_self).bind fun d _ => (narrow_passed hwidth _).bind fun p _ => ?_
        exact (ihes fun e he => ih e (List.mem_cons_of_mem _ he)).bind fun _ _ => trivial
    have hfail : (Decision.fail : Decision Derivation).Narrow :=
      ⟨Nat.zero_le _, fun i => i.elim0⟩
    rw [derivations]
    split
    · exact hfail
    · split
      · exact hfail
      · refine hargs.bind fun ds _ => Decision.Narrow.bind ⟨?_, fun _ => trivial⟩ fun _ _ => trivial
        exact Nat.le_of_lt (Nat.lt_of_le_of_lt (Index.length_matching_le c name _) hwidth)

end Linearizer

/-! ## The answers -/

namespace Concretizations

/-- Of derivations that count as equal only the first one, if none was seen before. -/
def fresh (seen : List Derivation) : List Derivation → List Derivation
  | [] => []
  | d :: ds =>
    if d.canonical ∈ seen then fresh seen ds else d :: fresh (d.canonical :: seen) ds

variable {seen ds : List Derivation} {d : Derivation}

/-- The filter yields what is fresh, whatever the counters say. -/
theorem acceptedOf_accept (ds? : List (Option Derivation)) (seen : List Derivation)
    (counters : Counters) :
    Search.acceptedOf accept ds? (seen, counters) = fresh seen (ds?.filterMap id) := by
  induction ds? generalizing seen counters with
  | nil => rfl
  | cons d? ds? ih =>
    cases d? with
    | none => simpa [Search.acceptedOf, accept] using ih seen _
    | some d =>
      by_cases h : d.canonical ∈ seen
      · simpa [Search.acceptedOf, accept, fresh, h] using ih seen _
      · simpa [Search.acceptedOf, accept, fresh, h] using ih (d.canonical :: seen) _

theorem mem_of_mem_fresh (h : d ∈ fresh seen ds) : d ∈ ds ∧ d.canonical ∉ seen := by
  induction ds generalizing seen with
  | nil => cases h
  | cons d' ds ih =>
    rw [fresh] at h
    split at h
    · obtain ⟨hds, hseen⟩ := ih h
      exact ⟨List.mem_cons_of_mem _ hds, hseen⟩
    · rename_i hnew
      rcases List.mem_cons.1 h with rfl | h
      · exact ⟨List.mem_cons_self, hnew⟩
      · obtain ⟨hds, hseen⟩ := ih h
        exact ⟨List.mem_cons_of_mem _ hds, fun hmem => hseen (List.mem_cons_of_mem _ hmem)⟩

theorem exists_mem_fresh (h : d ∈ ds) (hseen : d.canonical ∉ seen) :
    ∃ d' ∈ fresh seen ds, d'.canonical = d.canonical := by
  induction ds generalizing seen with
  | nil => cases h
  | cons d' ds ih =>
    rw [fresh]
    split
    · rename_i hold
      rcases List.mem_cons.1 h with rfl | h
      · exact absurd hold hseen
      · exact ih h hseen
    · -- The one in front counts as equal, or what is looked for is fresh for the rest.
      by_cases heq : d'.canonical = d.canonical
      · exact ⟨d', List.mem_cons_self, heq⟩
      · rcases List.mem_cons.1 h with rfl | h
        · exact absurd rfl heq
        · have hseen' : d.canonical ∉ d'.canonical :: seen := by simp [hseen, Ne.symm heq]
          obtain ⟨d'', hmem, hcanon⟩ := ih h hseen'
          exact ⟨d'', List.mem_cons_of_mem _ hmem, hcanon⟩

theorem nodup_fresh (seen ds : List Derivation) :
    ((fresh seen ds).map Derivation.canonical).Nodup := by
  induction ds generalizing seen with
  | nil => exact .nil
  | cons d ds ih =>
    rw [fresh]
    split
    · exact ih seen
    · rw [List.map_cons, List.nodup_cons]
      refine ⟨fun hmem => ?_, ih _⟩
      obtain ⟨d', hd', heq⟩ := List.mem_map.1 hmem
      exact (mem_of_mem_fresh hd').2 (by simp [heq])

/-- The answers to so many calls for the next derivation. -/
def answers (l : Linearizer) (e : Expr) :
    Nat → Concretizations → Counters → Except Choice.Fault (List (Option Derivation))
  | 0, _, _ => .ok []
  | n + 1, c, counters => do
    let (d?, c, counters) ← c.next? l e counters
    let rest ← answers l e n c counters
    return d? :: rest

/-- Calls take the derivations that a search has still to yield off the front, and then there are
none. -/
theorem answers_eq_accepted {l : Linearizer} {e : Expr} (n : Nat) (c : Concretizations)
    (hstands : Search.Stands (l.derivations e).cut c.search) (counters : Counters) :
    answers l e n c counters = .ok ((List.range n).map fun k =>
      (c.search.accepted (l.derivations e).cut accept (c.seen, counters))[k]?) := by
  induction n generalizing c counters with
  | zero => rfl
  | succ n ih =>
    obtain ⟨search, ⟨seen, counters'⟩, hnext, hstands', htail, -⟩ :=
      Search.next?_eq (Decision.narrow_cut _) accept c.search hstands (c.seen, counters)
    rw [Search.next?_cut] at hnext
    -- A call takes the head of what is left, and the search then stands for the tail.
    have hrest := ih ⟨search, seen⟩ hstands' counters'
    rw [htail] at hrest
    rw [answers, next?, hnext]
    show (answers l e n ⟨search, seen⟩ counters' >>= _) = _
    rw [hrest, List.range_succ_eq_map, List.map_cons, List.map_map, ← List.head?_eq_getElem?]
    simp [bind, Except.bind, pure, Except.pure, Function.comp_def]

/-- What the filter leaves of the derivations that the search gets to. -/
def found (l : Linearizer) (e : Expr) : List Derivation := fresh [] (l.derivations e).cut.values

/-- From the start the answers are what was found, in order, and then none. -/
theorem answers_eq_found (l : Linearizer) (e : Expr) (n : Nat) (counters : Counters) :
    answers l e n {} counters = .ok ((List.range n).map fun k => (found l e)[k]?) := by
  rw [answers_eq_accepted n {} (Search.stands_start _), Search.accepted, Search.upcoming_start,
    acceptedOf_accept, List.filterMap_map]
  rfl

variable {g : Grammar} {c : Concrete} {e : Expr}

theorem expresses_of_mem_found (h : d ∈ found (.ofConcrete g c) e) : d.Expresses g.abs c e :=
  Linearizer.mem_values_derivations.1 (Decision.mem_values_of_cut (mem_of_mem_fresh h).1)

/-- If the search gets everywhere then all derivations are found. -/
theorem mem_found (hwidth : c.allProductions.length < Choice.maxAlternatives)
    (h : d.Expresses g.abs c e) : d ∈ found (.ofConcrete g c) e := by
  have hmem := (Decision.mem_values_cut_iff (Linearizer.narrow_derivations hwidth e)).2
    (Linearizer.mem_values_derivations.2 h)
  obtain ⟨d', hd', hcanon⟩ := exists_mem_fresh hmem List.not_mem_nil
  exact (expresses_of_mem_found hd').eq_of_canonical_eq h hcanon ▸ hd'

/-- An answer is something that was found. -/
theorem mem_found_of_mem_answers {l : Linearizer} {n : Nat} {counters : Counters}
    {ds : List (Option Derivation)} (h : answers l e n {} counters = .ok ds) (hd : some d ∈ ds) :
    d ∈ found l e := by
  cases h.symm.trans (answers_eq_found l e n counters)
  obtain ⟨k, -, hk⟩ := List.mem_map.1 hd
  exact List.mem_of_getElem? hk

/-- **Exactly the derivations, each once**: the calls for the next derivation of a stored expression
answer with derivations that make it, no two of which count as equal, and after the last one with
none for ever. They are all such derivations, unless the syntax has so many productions that a
record of decisions cannot hold the choice among them. -/
theorem answers_eq (g : Grammar) (c : Concrete) {s : ExprStore} (hordered : s.Ordered)
    {id : ExprId} (hid : id.index < s.size) (counters : Counters) :
    ∃ (e : Expr) (ds : List Derivation), s.expr? id = some e ∧
      (∀ d ∈ ds, d.Expresses g.abs c e) ∧
      (ds.map Derivation.canonical).Nodup ∧
      (∀ n, answers (.ofConcrete g c) e n {} counters =
        .ok ((List.range n).map fun k => ds[k]?)) ∧
      (c.allProductions.length < Choice.maxAlternatives →
        ∀ d : Derivation, d.Expresses g.abs c e → d ∈ ds) := by
  obtain ⟨e, he⟩ := ExprStore.exists_expr? hordered hid
  exact ⟨e, _, he, fun d => expresses_of_mem_found, nodup_fresh ..,
    fun n => answers_eq_found _ e n _, fun hwidth d => mem_found hwidth⟩

/-- A thing that is said in two ways, the second of them taking over the first, and pairs of things
that are said in the second way. -/
def pairs : Grammar where
  abs :=
    { name := ⟨0⟩
      funs := [{ name := ⟨1⟩, args := [], cat := ⟨3⟩ },
        { name := ⟨2⟩, args := [⟨3⟩, ⟨3⟩], cat := ⟨3⟩ }] }
  concretes :=
    [{ name := ⟨4⟩
       instances :=
        [⟨some ⟨3⟩, 1, some [.apply ⟨0⟩ []]⟩,
          ⟨some ⟨3⟩, 1, some [.coerce (.ofIndex 0), .apply ⟨0⟩ [],
            .apply ⟨1⟩ [.ofIndex 1, .ofIndex 1]]⟩]
       funs := [⟨⟨1⟩, [⟨0⟩]⟩, ⟨⟨2⟩, [⟨1⟩]⟩]
       sequences := [[.tokens [⟨5⟩]], [.sub 0 0, .sub 1 0]] }]

/-- A pair whose two parts are the same stored expression. -/
def pairOfOne : ExprStore := ((({} : ExprStore).app ⟨1⟩ []).2.app ⟨2⟩ [⟨0⟩, ⟨0⟩]).2

theorem answers_eq_pairOfOne :
    pairOfOne.Ordered ∧ 1 < pairOfOne.size ∧
      ∃ c ∈ pairs.concretes, ∃ (e : Expr) (ds : List Derivation), pairOfOne.expr? ⟨1⟩ = some e ∧
        (∀ d, d ∈ ds ↔ d.Expresses pairs.abs c e) ∧
        (ds.map Derivation.canonical).Nodup ∧
        ∀ n, answers (.ofConcrete pairs c) e n {} {} =
          .ok ((List.range n).map fun k => ds[k]?) := by
  have hordered : pairOfOne.Ordered :=
    (ExprStore.ordered_empty.intern (by simp [ExprStore.Node.args])).intern (by decide +kernel)
  have hsize : (⟨1⟩ : ExprId).index < pairOfOne.size := by decide +kernel
  have hwidth : (pairs.concretes[0]).allProductions.length < Choice.maxAlternatives := by decide
  obtain ⟨e, ds, he, hsound, hnodup, hanswers, hall⟩ :=
    answers_eq pairs pairs.concretes[0] hordered hsize {}
  exact ⟨hordered, hsize, _, List.mem_cons_self, e, ds, he,
    fun d => ⟨hsound d, hall hwidth d⟩, hnodup, hanswers⟩

end Concretizations

end Polyglot
