import Polyglot.Proofs.Chart.Running
import Polyglot.Proofs.Lists

/-!
# The forest of a chart

The categories of a chart and their productions form a packed forest. Unfolding a category gives a
phrase: a production for the category and, below it, phrases for the arguments, open where an
argument is still an instance of the grammar.

- `Unfolds`: the phrases that a category unfolds to; every category does to some
  (`Sound.exists_unfolds`).
- `Sound.makes_of_unfolds`: such a phrase makes the instance that the category comes from, and has
  the words of the input wherever it was read.
- `Covers`: the phrases that a category may still come to unfold to once some fields have been read
  of it.
-/

namespace Polyglot

/-- A production of a chart stems from a production of the grammar: it makes the same function, and
its arguments come from the same instances. -/
structure Stems (F : Fact → Prop) (q : ChartProduction) (p : Production) : Prop where
  head : q.head = p.head
  length : q.args.length = p.args.length
  args : ∀ (i : Nat) (id : InstanceId), p.args[i]? = some id →
    ∃ X L, q.args[i]? = some X ∧ Chain F X id L

/-- A category unfolds to a phrase. -/
inductive Unfolds (F : Fact → Prop) : CatRef → Phrase → Prop where
  | unread (id : InstanceId) : Unfolds F (.grammar id) .unread
  | node {done : ChartCatId} {q : ChartProduction} {p : Production} {parts : List Phrase}
      (hproduces : F (.produces done q)) (hstems : Stems F q p)
      (hlength : parts.length = q.args.length)
      (hparts : ∀ (i : Nat) (X : CatRef) (part : Phrase), q.args[i]? = some X →
        parts[i]? = some part → Unfolds F X part) :
      Unfolds F (.chart done) (.node p parts)

variable {c : Concrete} {v : Nat → Sym} {ids : List InstanceId} {goal n : Nat} {F : Fact → Prop}

/-! ## What unfolds was read -/

/-- A production stems from one production of the grammar only. -/
theorem Stems.unique (hfun : Functional F) {q : ChartProduction} {p p' : Production}
    (h : Stems F q p) (h' : Stems F q p') : p = p' := by
  refine Production.eq_of_head_args (h.head.symm.trans h'.head) ?_
  refine List.ext_getElem (h.length.symm.trans h'.length) fun i hi hi' => ?_
  obtain ⟨X, L, hX, hchain⟩ := h.args i _ (List.getElem?_eq_getElem hi)
  obtain ⟨X', L', hX', hchain'⟩ := h'.args i _ (List.getElem?_eq_getElem hi')
  cases hX.symm.trans hX'
  exact (hchain.unique hfun hchain').1

theorem Means.stems {L : List Span} {q : ChartProduction} {p : Production}
    (h : Means c v F L q p) : Stems F q p where
  head := h.head
  length := h.length
  args i id hid := by
    obtain ⟨X, L', hX, hchain, -⟩ := h.args i id hid
    exact ⟨X, L', hX, hchain⟩

namespace Sound

/-- What a category unfolds to makes the instance that it comes from, for the fields that were read
of it, and has the words that were read. -/
theorem makes_of_unfolds (hF : Sound c v ids goal F) {X : CatRef} {t : Phrase}
    (h : Unfolds F X t) {id : InstanceId} {L : List Span} (hchain : Chain F X id L) :
    c.Makes id (L.map Span.field) t ∧
      ∀ s ∈ L, t.Yields c Variants.forms s.field (between v s.start s.stop) := by
  induction h generalizing id L with
  | unread id =>
    cases hchain
    exact ⟨.unread _, nofun⟩
  | @node done q p parts hproduces hstems hlength hparts ih =>
    obtain ⟨p', hp, hmeans⟩ := hF.means hchain hproduces
    obtain rfl := hstems.unique hF.functional hmeans.stems
    -- Each argument has the words that were read of it, by induction.
    have hfits : Fits c v F q parts := by
      intro i X id' L' hX hchain' s hs
      have hi : i < parts.length := hlength ▸ (List.getElem?_eq_some_iff.1 hX).1
      have hpart := List.getElem?_eq_getElem hi
      exact ⟨parts[i], hpart, (ih i X _ hX hpart hchain').2 s hs⟩
    have hfields : L.map Span.field ≠ [] := by
      cases hchain
      simp
    refine ⟨.node hp hfields (hlength.trans hmeans.length) fun i id' part hid' hpart => ?_, ?_⟩
    · obtain ⟨X, L', hX, hchain', hreads⟩ := hmeans.args i id' hid'
      rw [← hreads]
      exact (ih i X part hX hpart hchain').1
    · intro s hs
      obtain ⟨body, hbody, hspells⟩ := hmeans.spells parts hfits s hs
      exact ⟨p, parts, body, rfl, hbody, hspells⟩

end Sound

/-! ## Everything unfolds -/

theorem ChartCatId.before_wf : WellFounded ChartCatId.Before := by
  refine Subrelation.wf (r := InvImage (Prod.Lex (· < ·) (· < ·)) fun C : ChartCatId =>
    (C.step, C.idx)) ?_ (InvImage.wf _ (Prod.lex Nat.lt_wfRel Nat.lt_wfRel).wf)
  rintro ⟨s, i⟩ ⟨s', i'⟩ (h | ⟨h, h'⟩)
  · exact .left _ _ h
  · cases h
    exact .right _ h'

/-- A production of a category unfolds to a phrase if its arguments do. -/
theorem Unfolds.exists_node {C : ChartCatId} {q : ChartProduction} {p : Production}
    (hproduces : F (.produces C q)) (hstems : Stems F q p)
    (hargs : ∀ X ∈ q.args, ∃ t, Unfolds F X t) :
    ∃ parts, Unfolds F (.chart C) (.node p parts) := by
  obtain ⟨parts, hparts⟩ := exists_forall₂ hargs
  exact ⟨parts, .node hproduces hstems hparts.length_eq.symm
    fun i X part hX hpart => rel_of_forall₂ hparts hX hpart⟩

/-- Every category that is complete unfolds to a phrase: the production that completed it has
arguments that were complete before. -/
theorem Sound.exists_unfolds (hF : Sound c v ids goal F) {C : ChartCatId} {S : ItemSetRef}
    {X : CatRef} {f m : Nat} (hdone : F (.closes C S X f m)) : ∃ t, Unfolds F (.chart C) t := by
  induction C using ChartCatId.before_wf.induction generalizing S X f m with
  | _ C ih =>
    obtain ⟨-, -, ⟨id, L, hchain, -⟩, q, hproduces, hbefore⟩ := hF.grounded _ hdone
    obtain ⟨p, -, hmeans⟩ := hF.means (.chart hdone hchain) hproduces
    -- An argument stands before the category, or it is an instance that is left open.
    have hargs : ∀ Y ∈ q.args, ∃ t, Unfolds F Y t := by
      intro Y hY
      cases Y with
      | grammar id' => exact ⟨.unread, .unread id'⟩
      | chart done =>
        obtain ⟨id', L', hchain'⟩ := hmeans.chain hY
        cases hchain' with
        | chart hdone' _ => exact ih done (hbefore done hY) hdone'
    obtain ⟨parts, hparts⟩ := Unfolds.exists_node hproduces hmeans.stems hargs
    exact ⟨_, hparts⟩

/-- So every production of a category unfolds, not only the one that completed it. -/
theorem Sound.exists_unfolds_of_produces (hF : Sound c v ids goal F) {C : ChartCatId}
    {q : ChartProduction} (hproduces : F (.produces C q)) {L : List Span} {p : Production}
    (hmeans : Means c v F L q p) :
    ∃ parts, Unfolds F (.chart C) (.node p parts) := by
  refine Unfolds.exists_node hproduces hmeans.stems fun Y hY => ?_
  cases Y with
  | grammar id' => exact ⟨.unread, .unread id'⟩
  | chart done =>
    obtain ⟨id', L', hchain'⟩ := hmeans.chain hY
    cases hchain' with
    | chart hdone _ => exact hF.exists_unfolds hdone

/-! ## What can be read unfolds -/

/-- What was read of a category is as long as the words of a phrase. -/
def Fills (c : Concrete) (pick : Variants → List (List Sym)) (t : Phrase) (L : List Span) : Prop :=
  ∀ s ∈ L, ∃ ts, t.Yields c pick s.field ts ∧ s.stop = s.start + ts.length

/-- A category covers a phrase that is still to be read at some fields: the phrase could be unfolded
from it as far as it has been read, and it was read where its words are. -/
inductive Covers (c : Concrete) (pick : Variants → List (List Sym)) (F : Fact → Prop) :
    CatRef → List Nat → Phrase → Prop where
  | grammar {id : InstanceId} {fields : List Nat} {t : Phrase} (h : c.Makes id fields t) :
      Covers c pick F (.grammar id) fields t
  | chart {done : ChartCatId} {id : InstanceId} {L : List Span} {fields : List Nat}
      {q : ChartProduction} {p : Production} {parts : List Phrase}
      (hchain : Chain F (.chart done) id L) (hfills : Fills c pick (.node p parts) L)
      (hproduces : F (.produces done q)) (hstems : Stems F q p)
      (hlength : parts.length = q.args.length)
      (hparts : ∀ (i : Nat) (X : CatRef) (part : Phrase), q.args[i]? = some X →
        parts[i]? = some part → Covers c pick F X (c.reads p fields i) part) :
      Covers c pick F (.chart done) fields (.node p parts)

variable {pick : Variants → List (List Sym)}

/-- What has been read of a category that covers a phrase. -/
theorem Covers.chain {X : CatRef} {fields : List Nat} {t : Phrase}
    (h : Covers c pick F X fields t) : ∃ id L, Chain F X id L ∧ Fills c pick t L := by
  cases h with
  | grammar => exact ⟨_, [], .grammar _, nofun⟩
  | chart hchain hfills => exact ⟨_, _, hchain, hfills⟩

/-- Where nothing is left to be read, to cover a phrase is to unfold to it. -/
theorem Covers.unfolds {X : CatRef} {fields : List Nat} {t : Phrase}
    (h : Covers c pick F X fields t) (hfields : fields = []) : Unfolds F X t := by
  induction h with
  | grammar h =>
    rw [h.eq_unread_iff.2 hfields]
    exact .unread _
  | chart _ _ hproduces hstems hlength _ ih =>
    subst hfields
    exact .node hproduces hstems hlength fun i X part hX hpart => ih i X part hX hpart rfl

/-- Phrases for the arguments of a production, with what is still to be read of each. -/
structure Parts (c : Concrete) (pick : Variants → List (List Sym)) (F : Fact → Prop)
    (q : ChartProduction) (p : Production) (rest : Nat → List Nat) (parts : List Phrase) :
    Prop where
  stems : Stems F q p
  length : parts.length = q.args.length
  covers : ∀ (i : Nat) (X : CatRef) (part : Phrase), q.args[i]? = some X →
    parts[i]? = some part → Covers c pick F X (rest i) part

/-- A category that covers a phrase offers a production for it. -/
theorem Covers.offers {X : CatRef} {fields : List Nat} {p : Production} {parts : List Phrase}
    (h : Covers c pick F X fields (.node p parts)) :
    ∃ q, Offers c F X q ∧ Parts c pick F q p (c.reads p fields) parts := by
  cases h with
  | grammar h =>
    cases h with
    | node hp _ hlength hparts =>
      refine ⟨.ofGrammar p, ⟨p, hp, rfl⟩, ⟨by simp, by simp, fun i id hid => ?_⟩, by simp [hlength],
        fun i X part hX hpart => ?_⟩
      · exact ⟨.grammar id, [], by simp [hid], .grammar id⟩
      · simp only [ChartProduction.args_ofGrammar, List.getElem?_map,
          Option.map_eq_some_iff] at hX
        obtain ⟨id, hid, rfl⟩ := hX
        exact .grammar (hparts i id part hid hpart)
  | chart _ _ hproduces hstems hlength hparts => exact ⟨_, hproduces, hstems, hlength, hparts⟩

/-- Reading on in one of the arguments leaves the others as they are. -/
theorem Parts.bind {q : ChartProduction} {p : Production} {rest rest' : Nat → List Nat}
    {parts : List Phrase} (h : Parts c pick F q p rest parts) {arg : Nat} {X : CatRef}
    {C : ChartCatId}
    {S : ItemSetRef} {f m : Nat} {part : Phrase} (harg : q.args[arg]? = some X)
    (hpart : parts[arg]? = some part) (hdone : F (.closes C S X f m))
    (hcovers : Covers c pick F (.chart C) (rest' arg) part)
    (hrest : ∀ i, i ≠ arg → rest' i = rest i) :
    Parts c pick F (q.bind arg (.chart C)) p rest' parts := by
  have hargs := ChartProduction.args_bind harg (.chart C)
  have hlt := (List.getElem?_eq_some_iff.1 harg).1
  refine ⟨⟨?_, ?_, ?_⟩, ?_, ?_⟩
  · rw [ChartProduction.head_bind, h.stems.head]
  · rw [hargs, List.length_set, h.stems.length]
  · intro i id hid
    obtain ⟨Y, L, hY, hchain⟩ := h.stems.args i id hid
    by_cases hi : arg = i
    · subst hi
      cases harg.symm.trans hY
      exact ⟨.chart C, _, by rw [hargs, List.getElem?_set_self hlt], .chart hdone hchain⟩
    · exact ⟨Y, L, by rwa [hargs, List.getElem?_set_ne hi], hchain⟩
  · rw [hargs, List.length_set, h.length]
  · intro i Y part' hY hpart'
    rw [hargs] at hY
    by_cases hi : arg = i
    · subst hi
      rw [List.getElem?_set_self hlt] at hY
      cases hY
      cases hpart.symm.trans hpart'
      exact hcovers
    · rw [List.getElem?_set_ne hi] at hY
      rw [hrest i (Ne.symm hi)]
      exact h.covers i Y part' hY hpart'

end Polyglot
