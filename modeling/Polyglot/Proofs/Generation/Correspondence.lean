import Polyglot.Proofs.Chart.Forest
import Polyglot.Proofs.Generation.Concretization
import Polyglot.Proofs.Generation.Wording

/-!
# Phrases and derivations

A phrase is what a parser makes of words and a derivation what a generator makes of an expression.
Phrases have a node for every coercion, derivations have none: there a coercion is a step on the way
up from the instance of an argument. What is open in a phrase is a hole in the expression.

- `Phrase.Denotes`: the expression of a phrase.
- `Phrase.Denotes.exists_derivation`: a phrase leaves behind a derivation of its expression, which
  can be worded by all words of the phrase.
-/

namespace Polyglot

/-- The expression that a phrase stands for: what is open is a hole, and coercions leave no trace.
-/
inductive Phrase.Denotes (c : Concrete) : Phrase → Expr → Prop where
  | unread : Denotes c .unread (.hole 0)
  | coerce {target : InstanceId} {part : Phrase} {e : Expr} (h : Denotes c part e) :
      Denotes c (.node (.coerce target) [part]) e
  | apply {fn : FunId} {args : List InstanceId} {f : ConcreteFunction} {parts : List Phrase}
      {es : List Expr} (hfn : c.function? fn = some f) (hlength : es.length = parts.length)
      (hparts : ∀ (i : Nat) (part : Phrase) (e : Expr), parts[i]? = some part →
        es[i]? = some e → Denotes c part e) :
      Denotes c (.node (.apply fn args) parts) (.app f.name es)

section Worded

variable {forms : Variants → List (List Sym)} {symbols : SymbolStore}
  {args : List (Nat → List String → Prop)}

theorem worded_nil : Sequence.Worded forms symbols args [] [] := ⟨[], .nil, rfl⟩

theorem worded_cons {x : Constituent} {s : Sequence} {piece ws : List String}
    (hx : Constituent.Worded forms symbols args piece x)
    (hs : Sequence.Worded forms symbols args s ws) :
    Sequence.Worded forms symbols args (x :: s) (piece ++ ws) := by
  obtain ⟨pieces, hpieces, rfl⟩ := hs
  exact ⟨piece :: pieces, .cons hx hpieces, rfl⟩

end Worded

/-! ## From phrases to derivations -/

variable {c : Concrete} {symbols : SymbolStore}

/-- A sequence that is spelled over phrases is worded over derivations that are worded like these.
-/
theorem Concrete.Spells.worded {parts : List Phrase} {ds : List Derivation}
    (hlength : ds.length = parts.length)
    (hparts : ∀ (i : Nat) (part : Phrase) (d : Derivation), parts[i]? = some part →
      ds[i]? = some d → ∀ field ws, part.Yields c Variants.forms field ws →
        d.Worded Variants.forms symbols c field (ws.map symbols.name))
    {s : List Constituent} {ws : List Sym} (h : c.Spells Variants.forms parts s ws) :
    Sequence.Worded Variants.forms symbols (ds.map (Derivation.Worded Variants.forms symbols c)) s
      (ws.map symbols.name) := by
  induction h with
  | nil => exact worded_nil
  | @words parts x s ts ws hform _ ih =>
    rw [List.map_append]
    refine worded_cons ?_ (ih hlength hparts)
    cases x with
    | sub arg field => simp [Constituent.formsBy] at hform
    | lit arg field => simp [Constituent.formsBy] at hform
    | var arg index => simp [Constituent.formsBy] at hform
    | tokens ts' =>
      simp only [Constituent.formsBy, List.mem_singleton] at hform
      rw [hform]
      rfl
    | variants v => exact ⟨ts, hform, rfl⟩
  | @sub parts ps arg field s body p ts ws hpart hbody hread _ _ ih =>
    rw [List.map_append]
    refine worded_cons ?_ (ih hlength hparts)
    have hlt : arg < ds.length := hlength ▸ (List.getElem?_eq_some_iff.1 hpart).1
    have hd := List.getElem?_eq_getElem hlt
    exact Derivation.worded_arg_iff.2 ⟨_, hd, hparts arg _ _ hpart hd field ts
      ⟨p, ps, body, rfl, hbody, hread⟩⟩

/-- The words of a coercion are those of what it coerces. -/
theorem Phrase.Yields.of_coerce {target : InstanceId} {part : Phrase} {field : Nat} {ws : List Sym}
    (h : (Phrase.node (.coerce target) [part]).Yields c Variants.forms field ws) :
    part.Yields c Variants.forms field ws := by
  obtain ⟨p, parts, body, heq, hbody, hspells⟩ := h
  cases heq
  cases hbody
  cases hspells with
  | words hform => simp [Constituent.formsBy] at hform
  | sub hpart hbody hread hrest =>
    cases hrest with
    | nil =>
      rw [List.append_nil]
      exact ⟨_, _, _, Option.some.inj hpart, hbody, hread⟩

/-- A phrase that makes an instance leaves behind a derivation of its expression, the instance of
which reaches that of the phrase, and which can be worded by all words of the phrase. -/
theorem Phrase.Denotes.exists_derivation {a : Abstract} (hdeclared : c.Declared a)
    (symbols : SymbolStore) {t : Phrase} {e : Expr} (h : t.Denotes c e) {id : InstanceId}
    {fields : List Nat} (hmakes : c.Makes id fields t) :
    ∃ d : Derivation, d.Expresses a c e ∧ (∀ root, d.root? = some root → c.Reaches root id) ∧
      ∀ field ws, t.Yields c Variants.forms field ws →
        d.Worded Variants.forms symbols c field (ws.map symbols.name) := by
  induction h generalizing id fields with
  | unread =>
    refine ⟨.hole 0, .hole 0, nofun, fun field ws hyields => ?_⟩
    obtain ⟨p, parts, body, heq, -⟩ := hyields
    cases heq
  | @coerce target part e _ ih =>
    cases hmakes with
    | node hp _ _ hparts =>
      obtain ⟨d, hexpresses, hreach, hworded⟩ := ih (hparts 0 target part rfl rfl)
      refine ⟨d, hexpresses, fun root hroot => (hreach root hroot).tail hp, ?_⟩
      exact fun field ws hyields => hworded field ws hyields.of_coerce
  | @apply fn args f parts es hfn hlength _ ih =>
    cases hmakes with
    | node hp _ hlength' hparts =>
      obtain ⟨f', decl, hfn', hdecl, harity⟩ := hdeclared _ _ _ hp
      cases hfn.symm.trans hfn'
      change parts.length = args.length at hlength'
      -- A derivation for each of the arguments, with all that is known of that place.
      have hargs : ∀ i < parts.length, ∃ d : Derivation,
          (∀ e, es[i]? = some e → d.Expresses a c e) ∧
          (∀ arg root, args[i]? = some arg → d.root? = some root → c.Reaches root arg) ∧
          ∀ part field ws, parts[i]? = some part → part.Yields c Variants.forms field ws →
            d.Worded Variants.forms symbols c field (ws.map symbols.name) := by
        intro i hi
        have hpart := List.getElem?_eq_getElem hi
        have harg := List.getElem?_eq_getElem (hlength' ▸ hi : i < args.length)
        have he := List.getElem?_eq_getElem (hlength ▸ hi : i < es.length)
        obtain ⟨d, hexpresses, hreach, hworded⟩ := ih i _ _ hpart he (hparts i _ _ harg hpart)
        refine ⟨d, fun e he' => ?_, fun arg root harg' => ?_, fun part field ws hpart' => ?_⟩
        · cases he.symm.trans he'
          exact hexpresses
        · cases harg.symm.trans harg'
          exact hreach root
        · cases hpart.symm.trans hpart'
          exact hworded field ws
      obtain ⟨ds, hds, hall⟩ := exists_list_of_lt hargs
      refine ⟨.app id fn f.name ds, .app hdecl (by rw [← harity, ← hlength', hlength]) ?_ hp hfn rfl
        ?_, ?_, ?_⟩
      · exact forall₂_of_getElem? (hds.trans hlength.symm) fun i d e hd he => (hall i d hd).1 e he
      · exact forall₂_of_getElem? (hds.trans hlength') fun i d arg hd harg root =>
          (hall i d hd).2.1 arg root harg
      · intro root hroot
        cases hroot
        exact .refl
      · intro field ws hyields
        obtain ⟨p, ps, body, heq, hbody, hspells⟩ := hyields
        cases heq
        refine Derivation.worded_app.2 ⟨body, hbody, hspells.worded hds ?_⟩
        exact fun i part d hpart hd field ws => (hall i d hd).2.2 part field ws hpart

end Polyglot
