import Polyglot.Proofs.Chart.Shape
import Polyglot.Proofs.Exhaustion
import Polyglot.Proofs.Expr.Mirrors
import Polyglot.Proofs.Grammar.Lookups

/-!
# Charts depend on names only

A token is looked up by its name, and a token that the grammar does not use has no handle, or one
that no item waits for: it is rejected in the same way. All words that items wait for were interned
when the grammar was made, and so were the names of the functions that are read off a chart.

- `Chart.Upkept.waitingItems?_eq`: the same items wait for a token, whatever else was interned.
- `Chart.built_of_reading`: what readings are built of.
- `Readings.mirrors_next?`: stores that differ in handles only get the same readings.
-/

namespace Polyglot

variable {base symbols s s' : SymbolStore}

/-! ## Tokens -/

/-- Words that items stand before have names. -/
theorem Concrete.Known.of_standsBefore {c : Concrete} (hc : c.Known base) {item : Item}
    {token : Sym} (h : c.StandsBefore item token) : base.Knows token := by
  obtain ⟨x, ts, hx, hform, htoken⟩ := h
  obtain ⟨body, hbody, hx⟩ := Option.bind_eq_some_iff.1 hx
  have hknown : x.Known base := by
    cases hhead : item.production.head with
    | none =>
      rw [hhead] at hbody
      cases hbody
      rw [List.mem_singleton.1 (List.mem_of_getElem? hx)]
      exact fun ts hts => by cases hts
    | some fn =>
      rw [hhead] at hbody
      exact hc body (mem_sequences_of_sequenceOf? hbody) x (List.mem_of_getElem? hx)
  exact hknown ts (Constituent.mem_forms_iff.2 ⟨_, hform⟩) token (List.mem_of_getElem? htoken)

namespace Chart

variable {a : Abstract} {c : Concrete} {ids : List InstanceId} {goal : Nat} {chart : Chart}

namespace Upkept

variable (h : Upkept c ids goal chart) (hc : c.Known base)
include h hc

/-- Words that items wait for have names. -/
theorem knows_of_waits {token : Sym} (htoken : token ∈ chart.last.transitions.map Prod.fst) :
    base.Knows token := by
  have hlast : chart.steps[chart.past.size]? = some chart.last := by
    simp [Chart.steps]
  obtain ⟨hne, -, hstands⟩ := h.waiting hlast htoken
  obtain ⟨idx, hidx⟩ := List.exists_mem_of_ne_nil _ hne
  obtain ⟨item, -, hitem⟩ := hstands idx hidx
  rw [h.concrete] at hitem
  exact hc.of_standsBefore hitem

variable (hs : base.Extends symbols)
include hs

/-- **The same items wait for a token**, whatever else was interned. -/
theorem waitingItems?_eq (token : String) :
    chart.waitingItems? symbols token = chart.waitingItems? base token := by
  refine hs.bind_find? (fun sym waiting hwaiting => h.knows_of_waits hc ?_) token
  cases hitems : chart.last.waitingFor sym with
  | nil => simp [hitems] at hwaiting
  | cons idx idxs =>
    have hidx : idx ∈ chart.last.waitingFor sym := hitems ▸ List.mem_cons_self
    have hentry : (sym, idx) ∈ chart.last.transitions := by
      simpa [Step.waitingFor] using hidx
    exact List.mem_map_of_mem hentry

theorem feed_eq (limit : Nat) (token : String) (counters : Counters) :
    chart.feed limit symbols token counters = chart.feed limit base token counters := by
  rw [Chart.feed, Chart.feed, h.waitingItems?_eq hc hs]

/-- The same tokens are expected. -/
theorem expectedTokens_eq : chart.expectedTokens symbols = chart.expectedTokens base := by
  have hnames : (chart.last.transitions.map Prod.fst).eraseDups.filterMap symbols.resolve? =
      (chart.last.transitions.map Prod.fst).eraseDups.filterMap base.resolve? := by
    refine List.filterMap_congr fun token htoken => hs.resolve?_eq (h.knows_of_waits hc ?_)
    exact (eraseDups_sublist _).subset htoken
  exact congrArg (List.mergeSort · fun a b => a ≤ b) hnames

end Upkept

/-! ## Readings -/

/-- The expressions that the reading of a category has built, whether or not it came to its end. -/
def Attempt.built : Attempt Expr → List Expr
  | .ok e => [e]
  | .error parts => parts

/-- The same for several arguments. -/
def Attempt.builtAll : Attempt (List Expr) → List Expr
  | .ok es => es
  | .error parts => parts

variable {P : Expr → Prop}

theorem built_of_readAll {read : CatRef → Decision (Attempt Expr)} {args : List CatRef}
    (h : ∀ X, ∀ r ∈ (read X).values, ∀ e ∈ Attempt.built r, P e) :
    ∀ r ∈ (readAll read args).values, ∀ e ∈ Attempt.builtAll r, P e := by
  induction args with
  | nil =>
    intro r hr e he
    rw [readAll, Decision.mem_values_leaf] at hr
    subst hr
    cases he
  | cons X args ih =>
    intro r hr
    obtain ⟨first, hfirst, hr⟩ := Decision.mem_values_bind.1 hr
    cases first with
    | error parts =>
      cases Decision.mem_values_leaf.1 hr
      exact h X _ hfirst
    | ok e =>
      obtain ⟨rest, hrest, hr⟩ := Decision.mem_values_bind.1 hr
      cases rest with
      | error parts | ok es =>
        cases Decision.mem_values_leaf.1 hr
        exact List.forall_mem_cons.2 ⟨h X _ hfirst e List.mem_cons_self, ih _ hrest⟩

theorem built_of_readProduction {read : CatRef → Decision (Attempt Expr)}
    (happ : ∀ f ∈ chart.concrete.funs, ∀ es, (∀ e ∈ es, P e) → P (.app f.name es))
    (h : ∀ X, ∀ r ∈ (read X).values, ∀ e ∈ Attempt.built r, P e) (q : ChartProduction) :
    ∀ r ∈ (chart.readProduction read q).values, ∀ e ∈ Attempt.built r, P e := by
  cases q with
  | coerce inner => exact h inner
  | apply fn args =>
    intro r hr
    rw [readProduction] at hr
    split at hr
    · cases Decision.mem_values_leaf.1 hr
      intro e he
      cases he
    · rename_i f hf
      obtain ⟨all, hall, hr⟩ := Decision.mem_values_bind.1 hr
      have hbuilt := built_of_readAll h all hall
      cases all with
      | error parts =>
        cases Decision.mem_values_leaf.1 hr
        exact hbuilt
      | ok es =>
        cases Decision.mem_values_leaf.1 hr
        intro e he
        rw [List.mem_singleton.1 he]
        exact happ f (List.mem_of_getElem? hf) es hbuilt

/-- What readings build are holes, and applications of concrete functions to what was built. -/
theorem built_of_reading (hhole : P (.hole 0))
    (happ : ∀ f ∈ chart.concrete.funs, ∀ es, (∀ e ∈ es, P e) → P (.app f.name es))
    (path : List ChartCatId) (X : CatRef) :
    ∀ r ∈ (chart.reading path X).values, ∀ e ∈ Attempt.built r, P e := by
  induction path, X using chart.induction_on_path with
  | grammar path id =>
    intro r hr e he
    rw [reading_grammar, Decision.mem_values_leaf] at hr
    subst hr
    rw [List.mem_singleton.1 he]
    exact hhole
  | dead path id hdead =>
    intro r hr e he
    rw [reading_dead hdead, Decision.mem_values_leaf] at hr
    subst hr
    cases he
  | chart path id cat hnew hcat ih =>
    intro r hr
    rw [reading_chart hnew hcat] at hr
    obtain ⟨i, hr⟩ := Decision.mem_values_choose.1 hr
    exact built_of_readProduction happ ih _ r hr

/-- All functions in what readings build have names. -/
theorem known_of_readings (hfuns : ∀ f ∈ chart.concrete.funs, base.Knows f.name) :
    ∀ r ∈ chart.readings.values, ∀ e ∈ Attempt.built r, e.Known base := by
  intro r hr
  obtain ⟨i, hr⟩ := Decision.mem_values_choose.1 hr
  exact built_of_reading (.hole 0) (fun f hf es hes => Expr.known_app (hfuns f hf) hes) _ _ r hr

end Chart

namespace Readings

variable {chart : Chart} {x y : State} {v : Option (Chart.Attempt Expr)}

/-- States of an enumeration whose stores differ in handles only. -/
structure State.Mirrors (s s' : SymbolStore) (x y : State) : Prop where
  seen : y.seen = x.seen
  exprs : x.exprs.Mirrors s s' y.exprs
  counters : y.counters = x.counters

/-- The same is accepted, and the stores go on to differ in handles only. -/
theorem mirrors_accept (hv : ∀ r, v = some r → ∀ e ∈ Chart.Attempt.built r, e.Mirrors s s' e)
    (h : x.Mirrors s s' y) :
    (accept v y).1 = (accept v x).1 ∧ (accept v x).2.Mirrors s s' (accept v y).2 := by
  obtain ⟨hseen, hexprs, hcounters⟩ := h
  cases v with
  | none => exact ⟨rfl, hseen, hexprs, hcounters⟩
  | some r =>
    cases r with
    | error parts => exact ⟨rfl, hseen, (hexprs.internExprs (hv _ rfl)).2, hcounters⟩
    | ok e =>
      obtain ⟨hid, hafter⟩ := hexprs.internExpr (hv _ rfl e List.mem_cons_self)
      rw [accept, accept]
      dsimp only
      rw [hid, hseen, hcounters]
      split
      · exact ⟨rfl, rfl, hafter, rfl⟩
      · exact ⟨rfl, rfl, hafter, rfl⟩

variable (hs : base.Extends s) (hs' : base.Extends s')
  (hfuns : ∀ f ∈ chart.concrete.funs, base.Knows f.name)
include hs hs' hfuns

/-- What a reading builds is the same, whatever the handles of other names are. -/
theorem mirrors_of_reading (hv : ∀ r, v = some r → r ∈ chart.readings.values) :
    ∀ r, v = some r → ∀ e ∈ Chart.Attempt.built r, e.Mirrors s s' e :=
  fun r hr e he => (Chart.known_of_readings hfuns r (hv r hr) e he).mono hs hs'

/-- **Stores that differ in handles only get the same readings.** -/
theorem mirrors_next? {exprs exprs' : ExprStore} (h : exprs.Mirrors s s' exprs') (r : Readings)
    (counters : Counters) :
    (∃ f, r.next? chart exprs counters = .error f ∧ r.next? chart exprs' counters = .error f) ∨
      ∃ id? r' after after' counters',
        r.next? chart exprs counters = .ok (id?, r', after, counters') ∧
        r.next? chart exprs' counters = .ok (id?, r', after', counters') ∧
        after.Mirrors s s' after' := by
  have hstart : State.Mirrors s s' ⟨r.seen, exprs, counters⟩ ⟨r.seen, exprs', counters⟩ :=
    ⟨rfl, h, rfl⟩
  rw [next?, next?]
  have hstep : ∀ v x y, (∀ r, v = some r → r ∈ chart.readings.values) → x.Mirrors s s' y →
      (accept v y).1 = (accept v x).1 ∧ (accept v x).2.Mirrors s s' (accept v y).2 :=
    fun v x y hv => mirrors_accept (mirrors_of_reading hs hs' hfuns hv)
  rcases r.search.next?_rel hstep hstart with
    ⟨f, hf, hf'⟩ | ⟨id?, search, x, y, hx, hy, hseen, hexprs, hcounters⟩
  · rw [hf, hf']
    exact .inl ⟨f, rfl, rfl⟩
  · rw [hx, hy]
    refine .inr ⟨id?, ⟨search, x.seen⟩, x.exprs, y.exprs, x.counters, rfl, ?_, hexprs⟩
    show Except.ok (id?, (⟨search, y.seen⟩ : Readings), y.exprs, y.counters) = _
    rw [hseen, hcounters]

/-- What is stored of the first readings differs in handles of no other names. -/
theorem mirrors_take {limit : Nat} {counters counters' : Counters} {ids : List ExprId}
    {exprs : ExprStore} (h : take chart limit {} counters = .ok (ids, exprs, counters')) :
    exprs.Mirrors s s' exprs := by
  obtain ⟨⟨ids, search, state⟩, htake, heq⟩ := bind_eq_ok.1 h
  cases heq
  refine (Search.take_invariant (P := fun state : State => state.exprs.Mirrors s s' state.exprs)
    (Q := fun _ _ => True) (fun v state hv hstate => ?_) limit {}
    (ExprStore.mirrors_empty s s') htake).1
  have hafter := mirrors_accept (mirrors_of_reading hs hs' hfuns hv)
    (⟨rfl, hstate, rfl⟩ : state.Mirrors s s' state)
  exact ⟨hafter.2.exprs, fun _ _ => trivial, fun _ _ => trivial⟩

end Readings

end Polyglot
