import Polyglot.Proofs.Chart.Answers
import Polyglot.Proofs.Generation.Concretization
import Polyglot.Proofs.Renditions
import Polyglot.Proofs.Session.Safety
import Polyglot.Rendition.InTurn

/-!
# What the renditions of a line are

The trees of a chart and the derivations of a tree are enumerated lazily, and both enumerations have
a list of what they have still to yield: a call takes its head off, whatever is stored or counted
besides. So it makes no difference whether readings are taken first and rendered afterwards or each
is rendered before the next. Both ways the renditions are those of the first trees, and an error is
that of the first tree that has one.

- `Readings.exists_take_found`, `Concretizations.exists_take_found`: taking some yields the first.
- `Rendition.ofTree`: the rendition of a tree, with neither stores nor counters.
- `Rendition.ofReading_eq_ofTree`, `Rendition.map_ofReadingInTurn`: that of a reading of it.
- `Rendition.readingsInTurn_eq_mapM`: all those that are still to come.
-/

namespace Polyglot

/-- How many results are taken does not depend on alternatives that a record cannot hold. -/
theorem Search.take_cut {α β σ : Type} (t : Decision α) (accept : Option α → σ → Option β × σ)
    (limit : Nat) (s : Search) (state : σ) :
    take t.cut accept limit s state = take t accept limit s state := by
  induction limit generalizing s state with
  | zero => rfl
  | succ limit ih =>
    rw [take, take, next?_cut]
    refine bind_congr_ok fun p _ => ?_
    obtain ⟨b?, s', state'⟩ := p
    cases b? with
    | none => rfl
    | some b =>
      dsimp only
      rw [ih]

/-! ## What enumerations take -/

namespace Readings

variable {chart : Chart} {r : Readings} {s : ExprStore} {owed : List Expr}

/-- So many calls pay so many of the trees that are owed. -/
theorem Owes.take (h : Owes chart r s owed) (limit : Nat) (counters : Counters) :
    ∃ ids search state, Search.take chart.readings accept limit r.search ⟨r.seen, s, counters⟩ =
        .ok (ids, search, state) ∧ s.Extends state.exprs ∧
      List.Forall₂ state.exprs.Denotes ids (owed.take limit) := by
  induction limit generalizing r s owed counters with
  | zero => exact ⟨[], r.search, ⟨r.seen, s, counters⟩, rfl, .refl s, .nil⟩
  | succ limit ih =>
    obtain ⟨id?, r', s', counters', hnext, hextends, hhead, howes⟩ := h.next? counters
    obtain ⟨⟨id?', search, state⟩, hsearch, heq⟩ := bind_eq_ok.1 hnext
    cases heq
    rw [Search.take, hsearch]
    cases owed with
    | nil =>
      cases hhead
      exact ⟨[], search, state, rfl, hextends, .nil⟩
    | cons e owed =>
      cases hhead with
      | some hdenotes =>
        obtain ⟨ids, search', state', htake, hextends', hids⟩ := ih howes state.counters
        refine ⟨_ :: ids, search', state', ?_, hextends.trans hextends',
          .cons (hdenotes.extends hextends') hids⟩
        show (Search.take chart.readings accept limit search state >>= _) = _
        rw [htake]
        rfl

/-- **The first readings of a chart**: whoever takes some gets the first trees that there are, each
once, whatever is stored already. -/
theorem exists_take_found (chart : Chart) (limit : Nat) (exprs : ExprStore) (counters : Counters) :
    ∃ ids exprs' counters', take chart limit exprs counters = .ok (ids, exprs', counters') ∧
      List.Forall₂ exprs'.Denotes ids ((found chart).take limit) := by
  obtain ⟨ids, search, state, htake, -, hids⟩ := (owes_start chart exprs).take limit counters
  refine ⟨ids, state.exprs, state.counters, ?_, hids⟩
  show (Search.take chart.readings accept limit {} ⟨[], exprs, counters⟩ >>= _) = _
  rw [htake]
  rfl

theorem ordered_take {chart : Chart} {limit : Nat} {exprs exprs' : ExprStore}
    {counters counters' : Counters} {ids : List ExprId} (hexprs : exprs.Ordered)
    (h : Readings.take chart limit exprs counters = .ok (ids, exprs', counters')) :
    exprs'.Ordered := by
  obtain ⟨⟨ids, search, state⟩, htake, heq⟩ := bind_eq_ok.1 h
  cases heq
  exact (Search.take_invariant (P := fun state : State => state.exprs.Ordered)
    (Q := fun _ _ => True)
    (fun v state _ hstate => ⟨(accept_extends hstate v).1, fun _ _ => trivial, fun _ _ => trivial⟩)
    limit {} hexprs htake).1

end Readings

namespace Concretizations

/-- Whoever takes some derivations of an expression gets the first that there are. -/
theorem exists_take_found (l : Linearizer) (e : Expr) (limit : Nat) (counters : Counters) :
    ∃ counters', take l e limit counters = .ok ((found l e).take limit, counters') := by
  obtain ⟨search, ⟨seen, counters'⟩, htake, -⟩ := Search.take_eq (Decision.narrow_cut _) accept
    limit {} (Search.stands_start _) ([], counters)
  rw [Search.take_cut, Search.accepted, Search.upcoming_start, acceptedOf_accept,
    List.filterMap_map] at htake
  refine ⟨counters', ?_⟩
  show (Search.take (l.derivations e) accept limit {} ([], counters) >>= _) = _
  rw [htake]
  rfl

/-- The derivations that an enumeration has still to yield. -/
def pending (l : Linearizer) (e : Expr) (c : Concretizations) (counters : Counters) :
    List Derivation :=
  c.search.accepted (l.derivations e).cut accept (c.seen, counters)

/-- A call takes the first derivation off those that are still to come. -/
theorem exists_next? {l : Linearizer} {e : Expr} {c : Concretizations}
    (h : Search.Stands (l.derivations e).cut c.search) (counters : Counters) :
    ∃ c' counters', c.next? l e counters =
        .ok ((pending l e c counters).head?, c', counters') ∧
      Search.Stands (l.derivations e).cut c'.search ∧
      pending l e c' counters' = (pending l e c counters).tail := by
  obtain ⟨search, ⟨seen, counters'⟩, hnext, hstands, htail, -⟩ :=
    Search.next?_eq (Decision.narrow_cut _) accept c.search h (c.seen, counters)
  rw [Search.next?_cut] at hnext
  refine ⟨⟨search, seen⟩, counters', ?_, hstands, htail⟩
  rw [next?, hnext]
  rfl

theorem pending_start (l : Linearizer) (e : Expr) (counters : Counters) :
    pending l e {} counters = found l e := by
  rw [pending, Search.accepted, Search.upcoming_start, acceptedOf_accept, List.filterMap_map]
  rfl

end Concretizations

/-! ## The rendition of a tree -/

namespace Rendition

/-- The text of a derivation. -/
def ofDerivation (l : Linearizer) (symbols : SymbolStore) (field : Nat) (d : Derivation) :
    Except Stop String :=
  (ofLinearizer (l.tokens symbols d field)).map unwords

/-- The rendition of a tree. -/
def ofTree (l : Linearizer) (symbols : SymbolStore) (options : RenditionOptions) (e : Expr) :
    Except Stop Rendition := do
  let outputs ← ((Concretizations.found l e).take options.maxConcretizations).mapM
    (ofDerivation l symbols options.toField)
  return ⟨(e.text symbols).toOption.getD "", outputs⟩

variable {l : Linearizer} {symbols : SymbolStore} {e : Expr} {exprs : ExprStore} {id : ExprId}
  {options : RenditionOptions}

theorem texts_eq_mapM (field limit : Nat) (counters : Counters) :
    texts l symbols e field limit counters =
      ((Concretizations.found l e).take limit).mapM (ofDerivation l symbols field) := by
  obtain ⟨counters', htake⟩ := Concretizations.exists_take_found l e limit counters
  rw [texts, htake]
  rfl

/-- The rendition of a reading is that of its tree, if its functions have names. -/
theorem ofReading_eq_ofTree {text : String} (he : exprs.expr? id = some e)
    (htext : e.text symbols = .ok text) (counters : Counters) :
    ofReading l symbols exprs options counters id = ofTree l symbols options e := by
  rw [ofReading, ofTree, ExprStore.text, he]
  dsimp only
  rw [htext, texts_eq_mapM]
  rfl

theorem map_textsInTurn {c : Concretizations}
    (h : Search.Stands (l.derivations e).cut c.search) (field limit : Nat) (counters : Counters) :
    (textsInTurn l symbols e field limit c counters).map Prod.fst =
      ((Concretizations.pending l e c counters).take limit).mapM
        (ofDerivation l symbols field) := by
  -- Every call leaves another enumeration behind, and other counters.
  induction limit generalizing c counters with
  | zero => rfl
  | succ limit ih =>
    obtain ⟨c', counters', hnext, hstands, htail⟩ := Concretizations.exists_next? h counters
    have ih := ih hstands counters'
    rw [htail] at ih
    rw [textsInTurn, hnext]
    cases hpending : Concretizations.pending l e c counters with
    | nil => rfl
    | cons d ds =>
      rw [hpending, List.tail_cons] at ih
      rw [List.take_succ_cons, List.mapM_cons, ← ih]
      show ((ofDerivation l symbols field d >>= _).map _) = _
      cases ofDerivation l symbols field d with
      | error f => rfl
      | ok text =>
        show ((textsInTurn l symbols e field limit c' counters' >>= _).map _) = _
        cases textsInTurn l symbols e field limit c' counters' with
        | error f => rfl
        | ok p => rfl

/-- In turn the rendition of a reading is the same. -/
theorem map_ofReadingInTurn {text : String} (he : exprs.expr? id = some e)
    (htext : e.text symbols = .ok text) (counters : Counters) :
    (ofReadingInTurn l symbols options exprs counters id).map Prod.fst =
      ofTree l symbols options e := by
  have hstands : Search.Stands (l.derivations e).cut ({} : Concretizations).search :=
    Search.stands_start _
  have htexts : (textsInTurn l symbols e options.toField options.maxConcretizations {}
      counters).map Prod.fst = ((Concretizations.found l e).take options.maxConcretizations).mapM
        (ofDerivation l symbols options.toField) := by
    rw [map_textsInTurn hstands, Concretizations.pending_start]
  rw [ofTree, ← htexts, ofReadingInTurn, ExprStore.text, he]
  dsimp only
  rw [htext]
  cases textsInTurn l symbols e options.toField options.maxConcretizations {} counters with
  | error f => rfl
  | ok p => rfl

/-- **One reading after the other** or all at once: the renditions are those of the trees. -/
theorem readingsInTurn_eq_mapM {chart : Chart} {r : Readings} {owed : List Expr}
    (h : r.Owes chart exprs owed) (hexprs : exprs.Ordered)
    (htext : ∀ e ∈ owed, ∃ text, e.text symbols = .ok text) (limit : Nat) (counters : Counters) :
    readingsInTurn l symbols options chart limit r exprs counters =
      (owed.take limit).mapM (ofTree l symbols options) := by
  induction limit generalizing r exprs owed counters with
  | zero => rfl
  | succ limit ih =>
    obtain ⟨id?, r', exprs', counters', hnext, hextends, hhead, howes⟩ := h.next? counters
    have hordered := Readings.ordered_next? hnext hexprs
    rw [readingsInTurn, hnext]
    cases owed with
    | nil =>
      cases hhead
      rfl
    | cons e owed =>
      cases hhead with
      | @some id _ hdenotes =>
        obtain ⟨text, htext'⟩ := htext e List.mem_cons_self
        have hreading : (ofReadingInTurn l symbols options exprs' counters' id).map Prod.fst =
            ofTree l symbols options e :=
          map_ofReadingInTurn (hdenotes.expr? hordered) htext' counters'
        rw [List.take_succ_cons, List.mapM_cons, ← hreading]
        show (ofReadingInTurn l symbols options exprs' counters' id >>= _) = _
        cases ofReadingInTurn l symbols options exprs' counters' id with
        | error f => rfl
        | ok p =>
          obtain ⟨rendition, counters''⟩ := p
          have hrest := ih howes hordered (fun e' he' => htext e' (List.mem_cons_of_mem _ he'))
            counters''
          show (readingsInTurn l symbols options chart limit r' exprs' counters'' >>= _) = _
          rw [hrest]
          rfl

end Rendition

end Polyglot
