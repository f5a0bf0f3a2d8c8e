import Polyglot.Proofs.Chart.Exactness
import Polyglot.Proofs.Generation.Phrasing

/-!
# What is derived can be linearized

A derivation that the generator finds is linearized at every field that the instance of its root
has. The checks of a grammar say so of productions whose arguments are the instances that they are
applied to; an argument of a derivation may be of another instance, but the one that it is applied
as was reached by coercions, and along these no field is lost. At a field that the root does not
have nothing is emitted but the error that says so.

- `Event.track`: the applications that have begun and not ended.
- `Emission.Closed`: an emission without an error that ends all applications that it begins.
- `Derivation.Expresses.closed`: linearization at a field of the root is closed.
- `Concretizations.linearize_exact`: when it succeeds, and how it fails if not.
-/

namespace Polyglot

/-! ## Applications that begin and end -/

/-- The applications that have begun and not ended after an event, the last one first. Only the last
one can end, under its own name. -/
def Event.track : List String → Event → Option (List String)
  | opened, .beginApply fn _ => some (fn :: opened)
  | fn' :: opened, .endApply fn => if fn = fn' then some opened else none
  | [], .endApply _ => none
  | opened, .tokens _ | opened, .literal _ | opened, .hole _ => some opened

/-- Every application that begins ends after those that began later, and none ends without having
begun. -/
def Event.Balanced (events : List Event) : Prop := events.foldlM Event.track [] = some []

namespace Emission

/-- There is no error, and what begins ends, whatever has begun before. -/
structure Closed (e : Emission) : Prop where
  error_eq : e.error = none
  tracked : ∀ opened, e.events.foldlM Event.track opened = some opened

variable {a b : Emission}

theorem Closed.balanced (h : a.Closed) : Event.Balanced a.events := h.tracked []

theorem closed_empty : Closed {} := ⟨rfl, fun _ => rfl⟩

theorem closed_event {e : Event} (h : ∀ opened, Event.track opened e = some opened) :
    (event e).Closed :=
  ⟨rfl, fun opened => by simp [event, h]⟩

theorem closed_words (ws : List String) : (words ws).Closed := by
  unfold words
  split
  · exact closed_empty
  · exact closed_event fun opened => by cases opened <;> rfl

theorem Closed.andThen (ha : a.Closed) (hb : b.Closed) : (a.andThen b).Closed := by
  rw [Emission.andThen, ha.error_eq]
  refine ⟨hb.error_eq, fun opened => ?_⟩
  rw [List.foldlM_append, ha.tracked]
  exact hb.tracked opened

theorem closed_all {es : List Emission} (h : ∀ e ∈ es, e.Closed) : (all es).Closed := by
  induction es with
  | nil => exact closed_empty
  | cons e es ih =>
    exact (h e List.mem_cons_self).andThen (ih fun e' he' => h e' (List.mem_cons_of_mem _ he'))

/-- An application is closed if what is emitted within it is. -/
theorem Closed.application (h : a.Closed) (fn : String) (argCount : Nat) :
    (((event (.beginApply fn argCount)).andThen a).andThen (event (.endApply fn))).Closed := by
  refine ⟨by simp [Emission.andThen, event, h.error_eq], fun opened => ?_⟩
  have hopen : Event.track opened (.beginApply fn argCount) = some (fn :: opened) := by
    cases opened <;> rfl
  have hclose : Event.track (fn :: opened) (.endApply fn) = some opened := if_pos rfl
  simp [Emission.andThen, event, h.error_eq, List.foldlM_append, hopen, h.tracked, hclose]

end Emission

/-! ## Derivations -/

namespace Derivation

variable {a : Abstract} {c : Concrete} {symbols : SymbolStore} {d : Derivation} {e : Expr}

/-- A field that the instance of the root has; a hole has every field. -/
def HasField (c : Concrete) (d : Derivation) (field : Nat) : Prop :=
  ∀ id, d.root? = some id → ∃ n, c.fieldCount? id = some n ∧ field < n

theorem fieldCount?_literalInstance (c : Concrete) (value : Literal) :
    c.fieldCount? (literalInstance value) = some 1 := by
  cases value <;> rfl

theorem linearize_lit (id : InstanceId) (value : Literal) (field : Nat) :
    Linearizer.linearize symbols c (.lit id value) field =
      if field = 0 then .event (.literal value)
      else .fail (.fieldOutOfRange value.text field 1) := by
  rw [Linearizer.linearize]

/-- What an error calls the root of a derivation. Nothing is wrong with a hole. -/
def rootText (symbols : SymbolStore) : Derivation → String
  | .app _ _ name _ => symbols.name name
  | .lit _ value => value.text
  | .hole _ => ""

/-- What an application emits at a constituent of its function, if its arguments have the fields
that are read of them. -/
theorem closed_constituent {fn : String} {ds : List Derivation} {x : Constituent}
    (hargs : ∀ arg, x.arg? = some arg → arg < ds.length)
    (hreads : ∀ arg g d, x.read? = some (arg, g) → ds[arg]? = some d →
      (Linearizer.linearize symbols c d g).Closed) :
    (x.emit symbols fn (ds.map (Linearizer.linearize symbols c))).Closed := by
  have hread : ∀ arg g, x.arg? = some arg → x.read? = some (arg, g) →
      ∃ d, ds[arg]? = some d ∧ (Linearizer.linearize symbols c d g).Closed := by
    intro arg g harg hg
    have hd := List.getElem?_eq_getElem (hargs arg harg)
    exact ⟨_, hd, hreads arg g _ hg hd⟩
  cases x with
  | tokens ts => exact Emission.closed_words _
  | variants v => exact Emission.closed_words _
  | var arg index =>
    have harg : arg < ds.length := hargs arg rfl
    simp only [Constituent.emit, List.getElem?_map, List.getElem?_eq_getElem harg, Option.map_some]
    exact Emission.closed_words _
  | sub arg g | lit arg g =>
    obtain ⟨d, hd, hclosed⟩ := hread arg g rfl rfl
    simp only [Constituent.emit, List.getElem?_map, hd, Option.map_some]
    exact hclosed

/-- The sequence of an applied function for a field of its instance, with what its constituents
read: arguments that there are, and fields that their instances have. -/
theorem exists_sequence (hfits : c.Fits a) {id : InstanceId} {fn : FunId} {name : Sym}
    {ds : List Derivation} {es : List Expr}
    (h : (app id fn name ds).Expresses a c (.app name es)) {n field : Nat}
    (hn : c.fieldCount? id = some n) (hfield : field < n) :
    ∃ s, c.sequenceOf? fn field = some s ∧ ∀ x ∈ s,
      (∀ arg, x.arg? = some arg → arg < ds.length) ∧
      ∀ arg g d, x.read? = some (arg, g) → ds[arg]? = some d → d.HasField c g := by
  cases h with
  | @app _ _ _ _ _ decl f args hdecl harity hargs hprod hfn hname hreach =>
    obtain ⟨n', hn', f', hf', hcount, -, -, hreadable⟩ := hfits.of_mem hprod
    cases hn.symm.trans hn'
    cases hfn.symm.trans hf'
    have hfield' : field < f.fields.length := hcount ▸ hfield
    obtain ⟨decl', hdecl', hsequences⟩ := hfits.functions f (List.mem_of_getElem? hfn)
    cases hdecl.symm.trans (hname ▸ hdecl')
    obtain ⟨s, hs, harg⟩ := hsequences _ (List.getElem_mem hfield')
    refine ⟨s, by simp [Concrete.sequenceOf?, hfn, List.getElem?_eq_getElem hfield', hs],
      fun x hx => ⟨fun arg h => ?_, fun arg g d hg hd root hroot => ?_⟩⟩
    · rw [hargs.length_eq, ← harity]
      exact harg x hx arg h
    · -- the instance that the argument is applied as has the field, and so does its own
      obtain ⟨top, m, htop, hm, hlt⟩ :=
        hreadable _ (List.getElem_mem hfield') s hs x hx arg g hg
      exact hfits.wellFormed.fieldCount_of_reaches (rel_of_forall₂ hreach hd htop root hroot) hm hlt

/-- A derivation is linearized without an error at the fields that its root has. -/
theorem Expresses.closed (hfits : c.Fits a) (h : d.Expresses a c e) {field : Nat}
    (hfield : d.HasField c field) : (Linearizer.linearize symbols c d field).Closed := by
  induction d using Derivation.induction generalizing e field with
  | hole index => exact Emission.closed_event fun opened => by cases opened <;> rfl
  | lit id value =>
    cases h
    obtain ⟨n, hn, hlt⟩ := hfield _ rfl
    cases hn.symm.trans (fieldCount?_literalInstance c value)
    rw [linearize_lit, if_pos (by omega)]
    exact Emission.closed_event fun opened => by cases opened <;> rfl
  | app id fn name ds ih =>
    obtain ⟨n, hn, hlt⟩ := hfield id rfl
    cases e with
    | lit value => cases h
    | hole index => cases h
    | app name' es =>
      obtain rfl : name = name' := by cases h; rfl
      obtain ⟨s, hs, hreads⟩ := exists_sequence hfits h hn hlt
      have hexpresses : List.Forall₂ (Expresses a c) ds es := by
        cases h
        assumption
      rw [linearize_app, hs]
      refine Emission.Closed.application (Emission.closed_all fun emission hmem => ?_) _ _
      obtain ⟨x, hx, rfl⟩ := List.mem_map.1 hmem
      refine closed_constituent (hreads x hx).1 fun arg g d hg hd => ?_
      obtain ⟨hi, rfl⟩ := List.getElem?_eq_some_iff.1 hd
      exact ih _ (List.getElem_mem hi) (hexpresses.get hi (hexpresses.length_eq ▸ hi))
        ((hreads x hx).2 arg g _ hg hd)

/-- At a field that its root does not have a derivation emits nothing but an error about the
root. -/
theorem Expresses.linearize_eq_fail (hfits : c.Fits a) (h : d.Expresses a c e) {id : InstanceId}
    (hroot : d.root? = some id) {n field : Nat} (hn : c.fieldCount? id = some n)
    (hfield : n ≤ field) :
    Linearizer.linearize symbols c d field =
      .fail (.fieldOutOfRange (d.rootText symbols) field n) := by
  cases h with
  | hole index => cases hroot
  | lit value =>
    cases hroot
    cases hn.symm.trans (fieldCount?_literalInstance c value)
    rw [linearize_lit, if_neg (by omega)]
    rfl
  | @app id' fn name ds es decl f args hdecl harity hargs hprod hfn hname hreach =>
    cases hroot
    obtain ⟨n', hn', f', hf', hcount, -⟩ := hfits.of_mem hprod
    cases hn.symm.trans hn'
    cases hfn.symm.trans hf'
    have hnone : c.sequenceOf? fn field = none := by
      simp [Concrete.sequenceOf?, hfn, List.getElem?_eq_none (hcount ▸ hfield : _ ≤ field)]
    rw [linearize_app, hnone, hfn]
    simp [rootText, hcount]

/-- The root of a derivation is a built-in instance or one of the syntax. -/
theorem Expresses.exists_fieldCount? (hfits : c.Fits a) (h : d.Expresses a c e) {id : InstanceId}
    (hroot : d.root? = some id) : ∃ n, c.fieldCount? id = some n := by
  cases h with
  | hole index => cases hroot
  | lit value =>
    cases hroot
    exact ⟨1, fieldCount?_literalInstance c value⟩
  | app _ _ _ hprod =>
    cases hroot
    exact (hfits.of_mem hprod).imp fun _ h => h.1

end Derivation

namespace Concretizations

/-- **What is derived can be linearized.** For every grammar that is accepted, every concrete syntax
of it, every derivation that the generator finds for any expression and every field: linearization
fails if and only if the derivation has a root, so that it is no hole, and the field is not one of
those of the root's instance, which has one if it is that of a literal; then the error says how many
fields the root has, and nothing was emitted before it. Otherwise no argument and no part of an
argument is missing, the applications that begin and end are balanced, and the tokens that come out
are the one way to word the derivation at the field with base forms. -/
theorem linearize_exact {w : WrittenGrammar} {g : Grammar} (hbuild : w.build = .ok g) {c : Concrete}
    (hc : c ∈ g.concretes) (symbols : SymbolStore) {e : Expr} {n : Nat} {counters : Counters}
    {ds : List (Option Derivation)}
    (hanswers : answers (.ofConcrete g c) e n {} counters = .ok ds) {d : Derivation}
    (hd : some d ∈ ds) (field : Nat) :
    (∀ id, d.root? = some id → ∃ count, c.fieldCount? id = some count) ∧
    (∀ id value, d = .lit id value → c.fieldCount? id = some 1) ∧
    ((Linearizer.linearize symbols c d field).error.isSome ↔
      ∃ id count, d.root? = some id ∧ c.fieldCount? id = some count ∧ count ≤ field) ∧
    (∀ id count, d.root? = some id → c.fieldCount? id = some count → count ≤ field →
      Linearizer.linearize symbols c d field =
        .fail (.fieldOutOfRange (d.rootText symbols) field count)) ∧
    ((Linearizer.linearize symbols c d field).error = none →
      Event.Balanced (Linearizer.linearize symbols c d field).events ∧
      ∀ ws, d.Worded (fun v => [v.base]) symbols c field ws ↔
        ws = (Linearizer.linearize symbols c d field).tokens) := by
  have hfits := Concrete.fits_of_build hbuild hc
  have hexpresses := expresses_of_mem_found (mem_found_of_mem_answers hanswers hd)
  have hcount : ∀ id, d.root? = some id → ∃ count, c.fieldCount? id = some count :=
    fun id => hexpresses.exists_fieldCount? hfits
  have hfail : ∀ id count, d.root? = some id → c.fieldCount? id = some count → count ≤ field →
      Linearizer.linearize symbols c d field =
        .fail (.fieldOutOfRange (d.rootText symbols) field count) :=
    fun id count hroot hn hle => hexpresses.linearize_eq_fail hfits hroot hn hle
  -- the field is one of the root's or it is not
  have hsplit : (Linearizer.linearize symbols c d field).Closed ∨
      ∃ id count, d.root? = some id ∧ c.fieldCount? id = some count ∧ count ≤ field := by
    by_cases hfield : d.HasField c field
    · exact .inl (hexpresses.closed hfits hfield)
    · right
      simp only [Derivation.HasField, not_forall] at hfield
      obtain ⟨id, hroot, hnot⟩ := hfield
      obtain ⟨count, hn⟩ := hcount id hroot
      exact ⟨id, count, hroot, hn, Nat.le_of_not_lt fun hlt => hnot ⟨count, hn, hlt⟩⟩
  have hlit : ∀ id value, d = .lit id value → c.fieldCount? id = some 1 := by
    rintro id value rfl
    cases hexpresses
    exact Derivation.fieldCount?_literalInstance c value
  refine ⟨hcount, hlit, ⟨fun herror => ?_, ?_⟩, hfail, fun hnone => ?_⟩
  · rcases hsplit with hclosed | hout
    · rw [hclosed.error_eq] at herror
      cases herror
    · exact hout
  · rintro ⟨id, count, hroot, hn, hle⟩
    rw [hfail id count hroot hn hle]
    rfl
  · rcases hsplit with hclosed | ⟨id, count, hroot, hn, hle⟩
    · refine ⟨hclosed.balanced, fun ws => ?_⟩
      rw [Derivation.worded_base_iff, Emission.result_eq_ok_iff]
      exact and_iff_right hnone
    · rw [hfail id count hroot hn hle] at hnone
      cases hnone

/-- A verb that is not known, in a phrase with one field. -/
theorem linearize_exact_unknown : ∃ g, particleVerbs.build = .ok g ∧ english ∈ g.concretes ∧
    answers (.ofConcrete g english) (.app ⟨4⟩ [.hole 7]) 1 {} {} =
      .ok [some (.app (.ofIndex 0) ⟨1⟩ ⟨4⟩ [.hole 7])] ∧
    (Linearizer.linearize particleSymbols english (.app (.ofIndex 0) ⟨1⟩ ⟨4⟩ [.hole 7]) 0).error =
      none ∧
    Event.Balanced (Linearizer.linearize particleSymbols english
      (.app (.ofIndex 0) ⟨1⟩ ⟨4⟩ [.hole 7]) 0).events ∧
    (∀ ws, Derivation.Worded (fun v => [v.base]) particleSymbols english
      (.app (.ofIndex 0) ⟨1⟩ ⟨4⟩ [.hole 7]) 0 ws ↔
        ws = (Linearizer.linearize particleSymbols english
          (.app (.ofIndex 0) ⟨1⟩ ⟨4⟩ [.hole 7]) 0).tokens) ∧
    (Linearizer.linearize particleSymbols english
      (.app (.ofIndex 0) ⟨1⟩ ⟨4⟩ [.hole 7]) 0).tokens = ["?", "it", "?"] ∧
    Linearizer.linearize particleSymbols english (.app (.ofIndex 0) ⟨1⟩ ⟨4⟩ [.hole 7]) 1 =
      .fail (.fieldOutOfRange (particleSymbols.name ⟨4⟩) 1 1) := by
  obtain ⟨g, hbuild, hconcretes⟩ := build_particleVerbs
  have hc : english ∈ g.concretes := hconcretes ▸ List.mem_cons_self
  have hanswers : answers (.ofConcrete g english) (.app ⟨4⟩ [.hole 7]) 1 {} {} =
      .ok [some (.app (.ofIndex 0) ⟨1⟩ ⟨4⟩ [.hole 7])] := by
    refine eq_ok_of_toOption ?_
    have hsearch : (particleVerbs.build.toOption.bind fun g =>
        (answers (.ofConcrete g english) (.app ⟨4⟩ [.hole 7]) 1 {} {}).toOption) =
          some [some (.app (.ofIndex 0) ⟨1⟩ ⟨4⟩ [.hole 7])] := by
      decide +kernel
    rwa [hbuild] at hsearch
  have hroot : (Derivation.app (.ofIndex 0) ⟨1⟩ ⟨4⟩ [.hole 7]).root? = some (.ofIndex 0) := rfl
  have hcount : english.fieldCount? (.ofIndex 0) = some 1 := by decide
  obtain ⟨-, -, hfails, -, hemits⟩ :=
    linearize_exact hbuild hc particleSymbols hanswers List.mem_cons_self 0
  obtain ⟨-, -, -, hfail, -⟩ :=
    linearize_exact hbuild hc particleSymbols hanswers List.mem_cons_self 1
  have hnone : (Linearizer.linearize particleSymbols english
      (.app (.ofIndex 0) ⟨1⟩ ⟨4⟩ [.hole 7]) 0).error = none := by
    rw [← Option.not_isSome_iff_eq_none, hfails]
    rintro ⟨id, count, hid, hn, hle⟩
    cases hroot.symm.trans hid
    cases hcount.symm.trans hn
    cases hle
  obtain ⟨hbalanced, hworded⟩ := hemits hnone
  exact ⟨g, hbuild, hc, hanswers, hnone, hbalanced, hworded, by decide +kernel,
    hfail _ _ hroot hcount (Nat.le_refl 1)⟩

end Concretizations

end Polyglot
