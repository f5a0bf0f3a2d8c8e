import Polyglot.Proofs.Expr.Mirrors
import Polyglot.Proofs.Generation.Concretization
import Polyglot.Proofs.Generation.Wording
import Polyglot.Proofs.Grammar.Lookups

/-!
# Generation depends on names only

An expression may apply functions that the grammar does not declare, and their handles depend on
what else was interned. It has no derivation then, whatever these handles are; and functions that
are declared, like all words of the grammar, keep the handles that they got when it was made.

- `Grammar.Named.derivations_eq`: expressions that differ in handles only have the same derivations.
- `Grammar.Named.linearize_eq`: a derivation emits the same, whatever else was interned.
- `Concretizations.expresses_of_next?`: what is yielded are derivations.
- `Grammar.Named.text_eq`: so expressions that differ in handles only have the same text.
-/

namespace Polyglot

open SymbolStore (Namesakes)

/-- Arguments with the same derivations are derived in the same way. -/
theorem Linearizer.argDerivations_congr {l : Linearizer} {args args' : List Expr}
    (h : List.Forall₂ (fun e e' => l.derivations e' = l.derivations e) args args') :
    l.argDerivations args' = l.argDerivations args := by
  induction h with
  | nil => rfl
  | cons hfirst _ ih => rw [argDerivations, argDerivations, hfirst, ih]

/-- What a constituent emits does not depend on what else was interned. -/
theorem Constituent.Known.emit_eq {base s : SymbolStore} {x : Constituent} (hx : x.Known base)
    (hs : base.Extends s) (fn : String) (args : List (Nat → Emission)) :
    emit s fn args x = emit base fn args x := by
  have hnames : ∀ ts ∈ x.forms, ts.map s.name = ts.map base.name := fun ts hts =>
    List.map_congr_left fun sym hsym => hs.name_eq (hx ts hts sym hsym)
  cases x with
  | sub arg field => rfl
  | lit arg field => rfl
  | var arg index => rfl
  | tokens ts => rw [emit, emit, hnames ts List.mem_cons_self]
  | variants v => rw [emit, emit, hnames v.base List.mem_cons_self]

namespace Grammar.Named

variable {g : Grammar} {c : Concrete} {base s s' : SymbolStore} {e e' : Expr}
  (hg : g.Named base) (hs : base.Extends s)
include hg

theorem knows_of_function? {fn : Sym} {decl : AbstractFunction}
    (h : g.abs.function? fn = some decl) : base.Knows fn := by
  have hname : decl.name = fn := by simpa using List.find?_some h
  rw [← hname]
  exact hg.functions decl (List.mem_of_find?_eq_some h)

include hs

/-- Handles of one name are equal, or neither of them is that of a function. -/
theorem eq_or_function?_eq_none (hs' : base.Extends s') {fn fn' : Sym}
    (hfn : Namesakes s s' fn fn') :
    fn = fn' ∨ g.abs.function? fn = none ∧ g.abs.function? fn' = none := by
  cases hdecl : g.abs.function? fn with
  | some decl => exact .inl (hfn.eq_of_knows hs hs' (hg.knows_of_function? hdecl))
  | none =>
    cases hdecl' : g.abs.function? fn' with
    | none => exact .inr ⟨rfl, rfl⟩
    | some decl => exact .inl (hfn.symm.eq_of_knows hs' hs (hg.knows_of_function? hdecl')).symm

/-- **Expressions that differ in handles only have the same derivations.** -/
theorem derivations_eq (hs' : base.Extends s') (h : e.Mirrors s s' e') :
    (Linearizer.ofConcrete g c).derivations e' = (Linearizer.ofConcrete g c).derivations e := by
  induction e using Expr.induction generalizing e' with
  | hole index =>
    cases h
    rfl
  | lit value =>
    cases h
    rfl
  | app fn args ih =>
    cases h with
    | @app _ fn' _ args' hfn hargs =>
      rw [Linearizer.derivations, Linearizer.derivations]
      rcases hg.eq_or_function?_eq_none hs hs' hfn with rfl | ⟨hnone, hnone'⟩
      · have hsame := Linearizer.argDerivations_congr (l := .ofConcrete g c) <|
          forall₂_of_getElem? hargs.length_eq fun i e e' he he' =>
            ih e (List.mem_of_getElem? he) (rel_of_forall₂ hargs he he')
        rw [hsame, hargs.length_eq]
      · -- Neither handle is declared, so there is nothing to derive.
        simp only [Linearizer.ofConcrete, hnone, hnone']

/-- **A derivation emits the same**, whatever else was interned, in any language of the grammar. -/
theorem linearize_eq {c' : Concrete} (hc : c ∈ g.concretes) {d : Derivation}
    (hd : d.Expresses g.abs c' e) :
    Linearizer.linearize s c d = Linearizer.linearize base c d := by
  induction e using Expr.induction generalizing d with
  | hole index =>
    cases hd
    rfl
  | lit value =>
    cases hd
    rfl
  | app fn es ih =>
    cases hd with
    | @app id f _ ds _ _ _ _ hdecl _ hargs =>
      have hname : s.name fn = base.name fn := hs.name_eq (hg.knows_of_function? hdecl)
      have hds : ds.map (Linearizer.linearize s c) = ds.map (Linearizer.linearize base c) := by
        refine List.map_congr_left fun d hd => ?_
        obtain ⟨i, hi, rfl⟩ := List.mem_iff_getElem.1 hd
        have hi' : i < es.length := hargs.length_eq ▸ hi
        exact ih es[i] (List.getElem_mem hi') (hargs.get hi hi')
      funext field
      rw [Derivation.linearize_app, Derivation.linearize_app, hname, hds]
      cases hbody : c.sequenceOf? f field with
      | none => rfl
      | some body =>
        have hwords := hg.words c hc body (Concrete.mem_sequences_of_sequenceOf? hbody)
        have hemit := List.map_congr_left fun x hx =>
          (hwords x hx).emit_eq hs (base.name fn) (ds.map (Linearizer.linearize base c))
        dsimp only
        rw [hemit]

theorem tokens_eq {l : Linearizer} {c' : Concrete} (hc : l.concrete ∈ g.concretes)
    {d : Derivation} (hd : d.Expresses g.abs c' e) (field : Nat) :
    l.tokens s d field = l.tokens base d field := by
  rw [Linearizer.tokens, Linearizer.tokens, hg.linearize_eq hs hc hd]

end Grammar.Named

/-! ## What is yielded -/

namespace Concretizations

variable {g : Grammar} {c : Concrete} {e : Expr}

theorem expresses_of_accept {d? : Option Derivation} {state : List Derivation × Counters}
    (hd : ∀ d, d? = some d → d ∈ ((Linearizer.ofConcrete g c).derivations e).values) :
    ∀ d, (accept d? state).1 = some d → d.Expresses g.abs c e := by
  intro d h
  cases d? with
  | none => cases h
  | some d' =>
    rw [accept] at h
    dsimp only at h
    split at h
    · cases h
    · cases h
      exact Linearizer.mem_values_derivations.1 (hd d rfl)

/-- What an enumeration of derivations yields expresses the expression. -/
theorem expresses_of_next? {r r' : Concretizations} {counters counters' : Counters}
    {d : Derivation} (h : r.next? (.ofConcrete g c) e counters = .ok (some d, r', counters')) :
    d.Expresses g.abs c e := by
  obtain ⟨⟨d?, search, state⟩, hnext, heq⟩ := bind_eq_ok.1 h
  cases heq
  refine (Search.next?_invariant (P := fun _ => True) (Q := fun d _ => d.Expresses g.abs c e)
    (fun v state hv _ => ?_) r.search trivial hnext).2.1 d rfl
  exact ⟨trivial, expresses_of_accept hv, fun _ hd => hd⟩

/-- So do the first ones. -/
theorem expresses_of_take {limit : Nat} {counters counters' : Counters} {ds : List Derivation}
    (h : take (.ofConcrete g c) e limit counters = .ok (ds, counters')) :
    ∀ d ∈ ds, d.Expresses g.abs c e := by
  obtain ⟨⟨ds, search, state⟩, htake, heq⟩ := bind_eq_ok.1 h
  cases heq
  refine (Search.take_invariant (P := fun _ => True) (Q := fun d _ => d.Expresses g.abs c e)
    (fun v state hv _ => ?_) limit {} trivial htake).2.1
  exact ⟨trivial, expresses_of_accept hv, fun _ hd => hd⟩

end Concretizations

/-- **The text of an expression is the same**, whatever else was interned before or after it. -/
theorem Grammar.Named.text_eq {g : Grammar} {c : Concrete} {base s s' : SymbolStore}
    (hg : g.Named base) (hs : base.Extends s) (hs' : base.Extends s') (hc : c ∈ g.concretes)
    {e e' : Expr} (h : e.Mirrors s s' e') (field : Nat) (counters : Counters) :
    (Linearizer.ofConcrete g c).text s' e' field counters =
      (Linearizer.ofConcrete g c).text s e field counters := by
  have hnext : ({} : Concretizations).next? (.ofConcrete g c) e' counters =
      ({} : Concretizations).next? (.ofConcrete g c) e counters := by
    rw [Concretizations.next?, Concretizations.next?, hg.derivations_eq hs hs' h]
  rw [Linearizer.text, Linearizer.text, hnext]
  refine bind_congr_ok fun found hr => ?_
  obtain ⟨d?, r, counters'⟩ := found
  cases d? with
  | none => rfl
  | some d =>
    have hd := Concretizations.expresses_of_next? hr
    dsimp only
    rw [hg.tokens_eq (l := .ofConcrete g c) hs hc hd, hg.tokens_eq (l := .ofConcrete g c) hs' hc hd]

end Polyglot
