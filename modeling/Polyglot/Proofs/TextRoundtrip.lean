import Polyglot.Proofs.Chart.Enumeration

/-!
# What is parsed can be said again

Whatever is read out of a chart has a derivation in the same language that can be worded by the
tokens that the chart was fed. The parser got to the expression over a phrase; the derivation is
what the phrase leaves behind, and the generator finds it because its instances can be reached from
one another by the coercions of the phrase.

- `Readings.exists_worded_derivation`: from text to an expression and back.
-/

namespace Polyglot

namespace Readings

/-- **From text to an expression and back.** For every grammar that is accepted, every concrete
syntax of it and every field of a category that can be parsed: every expression that is read out of
the chart after some tokens has a derivation in this syntax that can be worded by these tokens, and
if nothing has several forms then it is linearized to them. The generator finds it, unless the
syntax has so many productions that a record of decisions cannot hold the choice among them. -/
theorem exists_worded_derivation {w : WrittenGrammar} {g : Grammar} (hbuild : w.build = .ok g)
    {c : Concrete} (hc : c ∈ g.concretes) {symbols : SymbolStore} {cat : String} {field : Nat}
    {category : ConcreteCategory} (hgoal : Chart.goal symbols c cat field = .ok category)
    (hfields : ∀ id ∈ category.instances, ∃ n, c.fieldCount? id = some n ∧ field < n)
    {limit : Nat} {counters counters₀ : Counters} {chart₀ chart : Chart}
    (hparse : Chart.parse limit symbols c cat field counters = (.ok chart₀, counters₀))
    {tokens : List String}
    (hfeed : (chart₀.feedAll limit symbols tokens counters₀).1 = .ok (some chart))
    {count : Nat} {exprs exprs' : ExprStore} (hordered : exprs.Ordered)
    {counters₁ counters₂ : Counters} {ids : List ExprId}
    (htake : take chart count exprs counters₁ = .ok (ids, exprs', counters₂)) {id : ExprId}
    (hid : id ∈ ids) :
    ∃ (e : Expr) (d : Derivation), exprs'.expr? id = some e ∧ d.Expresses g.abs c e ∧
      d.Worded Variants.forms symbols c field tokens ∧
      ((∀ s ∈ c.sequences, ∀ v, .variants v ∉ s) →
        (Linearizer.ofConcrete g c).tokens symbols d field = .ok tokens) ∧
      (c.allProductions.length < Choice.maxAlternatives →
        ∃ n ds, Concretizations.answers (.ofConcrete g c) e n {} {} = .ok ds ∧ some d ∈ ds) := by
  have hwf := Concrete.wellFormed_of_build hbuild hc
  have hdeclared := Concrete.declared_of_build hbuild hc
  have hstart := Chart.built_of_parse hwf hgoal hfields hparse
  obtain ⟨ws, hws⟩ := Chart.finds_of_feedAll hfeed
  obtain ⟨v, hbuilt, hinput⟩ := Chart.built_of_feedAll hwf hstart hws hfeed
  -- the expression that was yielded is that of a phrase with the words of the input
  have hfree : ∀ e, .ok e ∈ chart.readings.values → e.LiteralFree := by
    intro e he
    obtain ⟨C, -, t, -, hdenotes⟩ := hbuilt.ok_mem_values_readings.1 he
    exact hdenotes.literalFree
  obtain ⟨e, he, hmem⟩ := exists_of_mem_take hfree hordered htake hid
  obtain ⟨C, hC, t, hunfolds, hdenotes⟩ := hbuilt.ok_mem_values_readings.1 hmem
  have hreading := hbuilt.reading_of_unfolds hC hunfolds.unfolds
  rw [hinput] at hreading
  obtain ⟨goal, -, hmakes⟩ := hreading.makes
  -- and that phrase leaves a derivation behind
  obtain ⟨d, hexpresses, -, hworded⟩ := hdenotes.exists_derivation hdeclared symbols hmakes
  have htokens : d.Worded Variants.forms symbols c field tokens := by
    rw [← hws.eq_names]
    exact hworded field ws hreading.yields
  refine ⟨e, d, he, hexpresses, htokens,
    fun hplain => (Derivation.worded_forms_iff hplain).1 htokens, fun hwidth => ?_⟩
  obtain ⟨k, hk⟩ := List.mem_iff_getElem?.1 (Concretizations.mem_found hwidth hexpresses)
  refine ⟨k + 1, _, Concretizations.answers_eq_found _ e (k + 1) {}, ?_⟩
  exact List.mem_map.2 ⟨k, List.mem_range.2 (Nat.lt_succ_self k), hk⟩

theorem exists_worded_derivation_giveItUp :
    ∃ g category chart₀ counters₀ chart ids id exprs' counters₂,
      particleVerbs.build = .ok g ∧ english ∈ g.concretes ∧
      Chart.goal particleSymbols english "Action" 0 = .ok category ∧
      (∀ id ∈ category.instances, ∃ n, english.fieldCount? id = some n ∧ 0 < n) ∧
      Chart.parse 9 particleSymbols english "Action" 0 {} = (.ok chart₀, counters₀) ∧
      (chart₀.feedAll 9 particleSymbols ["give", "it", "up"] counters₀).1 = .ok (some chart) ∧
      ExprStore.Ordered {} ∧ take chart 2 {} {} = .ok (ids, exprs', counters₂) ∧ id ∈ ids ∧
      ∃ (e : Expr) (d : Derivation), exprs'.expr? id = some e ∧ d.Expresses g.abs english e ∧
        d.Worded Variants.forms particleSymbols english 0 ["give", "it", "up"] ∧
        (Linearizer.ofConcrete g english).tokens particleSymbols d 0 = .ok ["give", "it", "up"] ∧
        ∃ n ds, Concretizations.answers (.ofConcrete g english) e n {} {} = .ok ds ∧
          some d ∈ ds := by
  obtain ⟨g, hbuild, hconcretes⟩ := build_particleVerbs
  have hc : english ∈ g.concretes := hconcretes ▸ List.mem_cons_self
  have hwidth : english.allProductions.length < Choice.maxAlternatives := by decide
  have hrun : ((Chart.ofTokens? 9 particleSymbols english "Action" 0 ["give", "it", "up"]).bind
      fun chart => (take chart 2 {} {}).toOption.map (·.1)) = some [⟨1⟩] := by
    decide +kernel
  obtain ⟨chart, hchart, hids⟩ := Option.bind_eq_some_iff.1 hrun
  obtain ⟨chart₀, counters₀, hparse, hfeed⟩ := Chart.exists_of_ofTokens? hchart
  cases htake : take chart 2 {} {} with
  | error fault =>
    rw [htake] at hids
    cases hids
  | ok result =>
    obtain ⟨ids, exprs', counters₂⟩ := result
    rw [htake] at hids
    cases hids
    obtain ⟨e, d, he, hexpresses, hworded, htokens, hfound⟩ :=
      exists_worded_derivation hbuild hc goal_english fields_english hparse hfeed
        ExprStore.ordered_empty htake List.mem_cons_self
    exact ⟨g, _, chart₀, counters₀, chart, _, ⟨1⟩, exprs', counters₂, hbuild, hc, goal_english,
      fields_english, hparse, hfeed, ExprStore.ordered_empty, htake, List.mem_cons_self, e, d, he,
      hexpresses, hworded, htokens (by simp [english]), hfound hwidth⟩

end Readings

end Polyglot
