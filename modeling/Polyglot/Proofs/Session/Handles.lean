import Polyglot.Proofs.Chart.Interned
import Polyglot.Proofs.Generation.Interned
import Polyglot.Proofs.Session.Safety
import Polyglot.Proofs.Session.Shape

/-!
# Sessions depend on names only

A session goes on in the same way whatever else is interned in the meantime: what its requests look
up by name is found, or not, as if nothing was. And two sessions whose stored expressions differ in
handles only, because other names were interned before these, give the same answers.

- `Session.Within`: all that a session has got is about languages of one grammar.
- `Session.Within.ask_eq`: what is interned makes no difference to an answer.
- `Session.Mirrors.ask`: nor do handles of stored expressions.
-/

namespace Polyglot

/-! ## Sessions in the languages of a grammar -/

/-- A request is about a language of a grammar. -/
def Request.Within (g : Grammar) : Request → Prop
  | .parse c _ _ => c ∈ g.concretes
  | .concretize l _ => ∃ c ∈ g.concretes, l = .ofConcrete g c
  | _ => True

namespace Session

variable {limit : Nat} {base s s' : SymbolStore} {w : WrittenGrammar} {g : Grammar}
  {x y : Session}

/-- What a program has got is about languages of a grammar, and it got it with some handles. -/
structure Within (limit : Nat) (base : SymbolStore) (g : Grammar) (x : Session) : Prop where
  intact : x.Intact limit base
  states : ∀ (n : Nat) (o : Origin) (state : ParseState), x.states[n]? = some (o, state) →
    o.concrete ∈ g.concretes
  readings : ∀ (n : Nat) (state : ParseState) (r : Readings), x.readings[n]? = some (state, r) →
    state.concrete ∈ g.concretes
  concretizations : ∀ (n : Nat) (l : Linearizer) (e : Expr) (r : Concretizations),
    x.concretizations[n]? = some (l, e, r) → ∃ c ∈ g.concretes, l = .ofConcrete g c

namespace Within

variable (h : x.Within limit base g) (hbuild : w.build = .ok g)
include h hbuild

/-- What a state sees is well kept. -/
theorem upkept {n : Nat} {o : Origin} {state : ParseState}
    (hn : x.states[n]? = some (o, state)) :
    ∃ ids goal, (x.lines.chart state).Upkept state.concrete ids goal ∧
      state.concrete ∈ g.concretes := by
  have ho := h.states n o state hn
  obtain ⟨category, -, hupkept⟩ := h.intact.upkept hbuild hn ho
  have hconcrete : state.concrete = o.concrete := hupkept.concrete
  rw [← hconcrete] at hupkept ho
  exact ⟨category.instances, o.field, hupkept, ho⟩

/-- A request leaves a session about languages of the grammar. -/
theorem ask {q : Request} (hq : q.Within g) :
    (x.ask limit base q).2.Within limit base g := by
  have hafter : x.After limit base q _ := x.after_ask q
  refine ⟨(h.intact.ask q).1, fun n o state hn => ?_, ?_, ?_⟩
  · rcases hafter.origin hn with hn | ⟨c, cat, field, rfl, rfl⟩ | ⟨m, token, o', _, rfl, hm, rfl⟩
    · exact h.states n o state hn
    · exact hq
    · exact h.states m o' _ hm
  · generalize (x.ask limit base q).2 = x' at hafter
    cases hafter with
    | count | parse | feed | store | concretize | nextDerivation => exact h.readings
    | results hn =>
      intro k state' r hk
      rw [Array.getElem?_push] at hk
      split at hk
      · cases hk
        exact (h.upkept hbuild hn).elim fun _ hs => hs.elim fun _ hs => hs.2
      · exact h.readings k state' r hk
    | @nextResult m state r _ _ _ _ hm =>
      intro k state' r' hk
      rcases eq_or_of_getElem?_setIfInBounds hk with heq | hold
      · cases heq
        exact h.readings m state r hm
      · exact h.readings k state' r' hold
  · generalize (x.ask limit base q).2 = x' at hafter
    cases hafter with
    | count | parse | feed | store | results | nextResult => exact h.concretizations
    | concretize =>
      intro k l e r hk
      rw [Array.getElem?_push] at hk
      split at hk
      · cases hk
        exact hq
      · exact h.concretizations k l e r hk
    | @nextDerivation m l e r _ _ _ hm =>
      intro k l' e' r' hk
      rcases eq_or_of_getElem?_setIfInBounds hk with heq | hold
      · cases heq
        exact h.concretizations m l e r hm
      · exact h.concretizations k l' e' r' hold

variable (hg : g.Named base) (hs : base.Extends s)
include hg hs

/-- The same items of a state wait for a token, whatever else was interned. -/
theorem waitingItems?_eq {n : Nat} {o : Origin} {state : ParseState}
    (hn : x.states[n]? = some (o, state)) (token : String) :
    state.waitingItems? s token = state.waitingItems? base token := by
  obtain ⟨ids, goal, hupkept, hc⟩ := h.upkept hbuild hn
  exact hupkept.waitingItems?_eq (hg.words _ hc) hs token

theorem expectedTokens_eq {n : Nat} {o : Origin} {state : ParseState}
    (hn : x.states[n]? = some (o, state)) :
    state.expectedTokens s = state.expectedTokens base := by
  obtain ⟨ids, goal, hupkept, hc⟩ := h.upkept hbuild hn
  exact hupkept.expectedTokens_eq (hg.words _ hc) hs

/-- **A request is answered in the same way**, whatever else was interned. -/
theorem ask_eq {q : Request} (hq : q.Within g) :
    x.ask limit s q = x.ask limit base q := by
  cases q with
  | parse c cat field =>
    rw [Session.ask, Session.ask, ParseState.parse, ParseState.parse, hg.goal hs hq]
  | feed n token =>
    rw [Session.ask, Session.ask]
    cases hn : x.states[n]? with
    | none => rfl
    | some entry =>
      dsimp only
      rw [ParseState.feed, ParseState.feed, h.waitingItems?_eq hbuild hg hs hn]
  | store | results | nextResult | concretize | nextDerivation => rfl

end Within

/-! ## Sessions that differ in handles only -/

/-- Enumerations of derivations of expressions that differ in handles only. -/
structure Follows (s s' : SymbolStore) (a b : Linearizer × Expr × Concretizations) : Prop where
  linearizer : b.1 = a.1
  expr : a.2.1.Mirrors s s' b.2.1
  stands : b.2.2 = a.2.2

theorem Follows.mono {a b : Linearizer × Expr × Concretizations} (h : Follows s s' a b)
    {t t' : SymbolStore} (hs : s.Extends t) (hs' : s'.Extends t') : Follows t t' a b :=
  ⟨h.linearizer, h.expr.mono hs hs', h.stands⟩

/-- Sessions that differ in the handles of stored expressions only. -/
inductive Mirrors (s s' : SymbolStore) (x : Session) : Session → Prop where
  | mk {exprs : ExprStore} {concretizations : Array (Linearizer × Expr × Concretizations)}
      (hexprs : x.exprs.Mirrors s s' exprs)
      (hconcretizations : List.Forall₂ (Follows s s') x.concretizations.toList
        concretizations.toList) :
      Mirrors s s' x { x with exprs, concretizations }

end Session

/-- Requests that differ in the handles of a node only. -/
inductive Request.Mirrors (s s' : SymbolStore) : Request → Request → Prop where
  | store {node node' : ExprStore.Node} (h : node.Mirrors s s' node') :
      Mirrors s s' (.store node) (.store node')
  | refl {q : Request} (h : ∀ node, q ≠ .store node) : Mirrors s s' q q

namespace Session

variable {limit : Nat} {base s s' t t' : SymbolStore} {g : Grammar} {x y : Session}

theorem Mirrors.mono (h : x.Mirrors s s' y) (hs : s.Extends t) (hs' : s'.Extends t') :
    x.Mirrors t t' y := by
  cases h with
  | mk hexprs hentries =>
    exact .mk (hexprs.mono hs hs') (hentries.imp fun a b hab => hab.mono hs hs')

/-- An enumeration that is begun is one of the same derivations. -/
theorem Mirrors.concretize (h : x.Mirrors s s' y) (l : Linearizer) (id : ExprId) :
    (y.ask limit base (.concretize l id)).1 = (x.ask limit base (.concretize l id)).1 ∧
      (x.ask limit base (.concretize l id)).2.Mirrors s s'
        (y.ask limit base (.concretize l id)).2 := by
  cases h with
  | @mk exprs entries hexprs hentries =>
    rw [Session.ask, Session.ask]
    dsimp only
    cases he : x.exprs.expr? id with
    | none =>
      rw [hexprs.expr?_eq_none he]
      exact ⟨rfl, .mk hexprs hentries⟩
    | some e =>
      obtain ⟨e', he', hmirrors⟩ := hexprs.exists_expr? he
      have hsize : x.concretizations.size = entries.size := hentries.length_eq
      rw [he']
      refine ⟨congrArg Answer.enumeration hsize.symm, .mk hexprs ?_⟩
      rw [Array.toList_push, Array.toList_push]
      exact List.rel_append hentries (.cons ⟨rfl, hmirrors, rfl⟩ .nil)

section Enumerations

variable (h : x.Mirrors s s' y) (hx : x.Within limit base g) (hg : g.Named base)
  (hs : base.Extends s) (hs' : base.Extends s')
include h hx hg hs hs'

/-- An enumeration of readings goes on in the same way, and what it stores differs in handles only.
-/
theorem Mirrors.nextResult (n : Nat) :
    (y.ask limit base (.nextResult n)).1 = (x.ask limit base (.nextResult n)).1 ∧
      (x.ask limit base (.nextResult n)).2.Mirrors s s'
        (y.ask limit base (.nextResult n)).2 := by
  cases h with
  | @mk exprs entries hexprs hentries =>
    rw [Session.ask, Session.ask]
    dsimp only
    cases hn : x.readings[n]? with
    | none => exact ⟨rfl, .mk hexprs hentries⟩
    | some entry =>
      obtain ⟨state, r⟩ := entry
      have hfuns : ∀ f ∈ (x.lines.chart state).concrete.funs, base.Knows f.name :=
        hg.funs _ (hx.readings n state r hn)
      dsimp only
      rcases Readings.mirrors_next? hs hs' hfuns hexprs r x.counters
        with ⟨f, hf, hf'⟩ | ⟨id?, r', after, after', counters', hnext, hnext', hafter⟩
      · rw [hf, hf']
        exact ⟨rfl, .mk hexprs hentries⟩
      · rw [hnext, hnext']
        exact ⟨rfl, .mk hafter hentries⟩

/-- So does an enumeration of derivations. -/
theorem Mirrors.nextDerivation (n : Nat) :
    (y.ask limit base (.nextDerivation n)).1 = (x.ask limit base (.nextDerivation n)).1 ∧
      (x.ask limit base (.nextDerivation n)).2.Mirrors s s'
        (y.ask limit base (.nextDerivation n)).2 := by
  cases h with
  | @mk exprs entries hexprs hentries =>
    have hsize : x.concretizations.size = entries.size := hentries.length_eq
    rw [Session.ask, Session.ask]
    dsimp only
    cases hn : x.concretizations[n]? with
    | none =>
      rw [Array.getElem?_eq_none (hsize ▸ Array.getElem?_eq_none_iff.1 hn)]
      exact ⟨rfl, .mk hexprs hentries⟩
    | some entry =>
      obtain ⟨⟨l', e', r'⟩, hn', hfollows⟩ := exists_rel_of_forall₂ hentries hn
      obtain ⟨l, e, r⟩ := entry
      obtain ⟨hl, he, hr⟩ := hfollows
      obtain rfl : l' = l := hl
      obtain rfl : r' = r := hr
      have hnext : r'.next? l' e' x.counters = r'.next? l' e x.counters := by
        obtain ⟨c, -, rfl⟩ := hx.concretizations n l' e r' hn
        rw [Concretizations.next?, Concretizations.next?, hg.derivations_eq hs hs' he]
      rw [hn']
      dsimp only
      rw [hnext]
      split
      · exact ⟨rfl, .mk hexprs hentries⟩
      · refine ⟨rfl, .mk hexprs ?_⟩
        rw [Array.toList_setIfInBounds, Array.toList_setIfInBounds]
        refine forall₂_set hentries ?_ n
        exact ⟨rfl, he, rfl⟩

/-- **Sessions that differ in handles only answer in the same way**, and go on to do so. -/
theorem Mirrors.ask {q q' : Request} (hq : q.Mirrors s s' q') :
    (y.ask limit base q').1 = (x.ask limit base q).1 ∧
      (x.ask limit base q).2.Mirrors s s' (y.ask limit base q').2 := by
  cases hq with
  | store hnode =>
    cases h with
    | mk hexprs hentries =>
      obtain ⟨hid, hafter⟩ := hexprs.intern hnode
      exact ⟨congrArg Answer.expr hid, .mk hafter hentries⟩
  | @refl q hstore =>
    cases q with
    | store node => exact absurd rfl (hstore node)
    | concretize l id => exact h.concretize l id
    | nextResult n => exact h.nextResult hx hg hs hs' n
    | nextDerivation n => exact h.nextDerivation hx hg hs hs' n
    | parse c cat field =>
      cases h with
      | mk hexprs hentries =>
        rw [Session.ask, Session.ask]
        dsimp only
        split <;> exact ⟨rfl, .mk hexprs hentries⟩
    | feed n token =>
      cases h with
      | mk hexprs hentries =>
        rw [Session.ask, Session.ask]
        dsimp only
        split
        · exact ⟨rfl, .mk hexprs hentries⟩
        · split <;> exact ⟨rfl, .mk hexprs hentries⟩
    | results n =>
      cases h with
      | mk hexprs hentries =>
        rw [Session.ask, Session.ask]
        dsimp only
        split <;> exact ⟨rfl, .mk hexprs hentries⟩

end Enumerations

end Session

end Polyglot
