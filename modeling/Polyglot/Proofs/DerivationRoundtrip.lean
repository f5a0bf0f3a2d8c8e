import Polyglot.Proofs.Chart.Acyclic
import Polyglot.Proofs.Chart.Width

/-!
# What is generated can be parsed

The tokens of a derivation are read back by the chart of the same language, if linearization meets
nothing but words. The derivation is the trace of a phrase, and the chart covers every phrase that
its input has words for. Whether the expression itself is enumerated is another matter, since the
enumeration gives up where a category comes up below itself: it is if every sequence has some word
of its own.

- `Chart.Built.exists_unfoldsOff`: a phrase with base forms is not given up.
- `Concretizations.parses_back`: from a derivation to text and back.
-/

namespace Polyglot

variable {c : Concrete}

/-- The base form of what has several is one of its forms. -/
theorem Variants.base_subset (v : Variants) : [v.base] ⊆ v.forms := by
  simp [Variants.forms]

/-- The words of a phrase have names if those of the syntax have. -/
theorem Phrase.Yields.known {symbols : SymbolStore} (hc : c.Known symbols)
    {pick : Variants → List (List Sym)} (hpick : ∀ v, pick v ⊆ v.forms) {t : Phrase} {field : Nat}
    {ws : List Sym} (h : t.Yields c pick field ws) : ∀ sym ∈ ws, symbols.Knows sym := by
  obtain ⟨p, parts, body, -, hbody, hspells⟩ := h
  exact hspells.known hc hpick (hc.of_body? hbody)

namespace Chart

variable {v : Nat → Sym} {ids : List InstanceId} {goal : Nat} {chart : Chart}

/-- If every sequence has a word of its own then the enumeration does not give up a phrase for the
goal whose words in base forms are the input. -/
theorem Built.exists_unfoldsOff (h : Built c v ids goal chart)
    (haudible : ∀ s ∈ c.sequences, ∃ x ∈ s, x.Audible) {id : InstanceId} (hid : id ∈ ids)
    {t : Phrase} (hmakes : c.Makes id [goal] t) (hdirect : t.Direct [] id)
    (hyields : t.Yields c (fun v => [v.base]) goal (between v 0 chart.position)) :
    ∃ C ∈ chart.completed, UnfoldsOff chart.facts [] (.chart C) t := by
  have hlength : (between v 0 chart.position).length = chart.position := length_between ..
  obtain ⟨C, hC, L, hchain, hcovers⟩ :=
    (h.follows Variants.base_subset hid hmakes hyields (by rw [hlength])).2 hlength.symm
  exact ⟨C, hC, hcovers.unfoldsOff h.sound haudible rfl hdirect hchain nofun⟩

end Chart

namespace Concretizations

/-- **From a derivation to text and back.** For every grammar that is accepted and every concrete
syntax of it: if linearization of a derivation that the generator finds meets nothing but words at a
field that can be parsed, then it has tokens, none of which is refused, and the chart is complete
after them. If besides every sequence has a word of its own in base form, then what the derivation
shows of its expression is among the expressions that are read out of the chart, provided that none
of its categories is wider than a record of decisions can hold. -/
theorem parses_back {w : WrittenGrammar} {g : Grammar} (hbuild : w.build = .ok g)
    (hc : c ∈ g.concretes) {symbols : SymbolStore} (hsymbols : w.draft.2.symbols.Extends symbols)
    {e : Expr} {n : Nat} {counters : Counters} {ds : List (Option Derivation)}
    (hanswers : answers (.ofConcrete g c) e n {} counters = .ok ds) {d : Derivation}
    (hd : some d ∈ ds) {cat : String} {field : Nat} {category : ConcreteCategory}
    (hgoal : Chart.goal symbols c cat field = .ok category)
    (hfields : ∀ id ∈ category.instances, ∃ n, c.fieldCount? id = some n ∧ field < n)
    {id : InstanceId} (hroot : d.root? = some id) (hid : id ∈ category.instances)
    (hplain : d.Plain c field) {limit : Nat} {counters₀ counters₁ : Counters} {chart₀ : Chart}
    (hparse : Chart.parse limit symbols c cat field counters₀ = (.ok chart₀, counters₁)) :
    ∃ tokens, (Linearizer.ofConcrete g c).tokens symbols d field = .ok tokens ∧
      ((chart₀.feedAll limit symbols tokens counters₁).1 ≠ .error .exhausted →
        ∃ chart, (chart₀.feedAll limit symbols tokens counters₁).1 = .ok (some chart) ∧
          chart.isComplete = true ∧
          ((∀ s ∈ c.sequences, ∃ x ∈ s, x.Audible) → chart.Within Choice.maxAlternatives →
            ∀ exprs : ExprStore, exprs.Ordered → ∀ counters₂,
              ∃ count ids exprs' counters₃,
                Readings.take chart count exprs counters₂ = .ok (ids, exprs', counters₃) ∧
                ∃ id ∈ ids, exprs'.expr? id = some (d.visible c [field] e))) := by
  have hwf := Concrete.wellFormed_of_build hbuild hc
  have hstart := Chart.built_of_parse hwf hgoal hfields hparse
  -- the derivation is the trace of a phrase, whose words in base forms are the tokens
  have hexpresses := expresses_of_mem_found (mem_found_of_mem_answers hanswers hd)
  obtain ⟨t, hretraces, hdirect⟩ := hexpresses.exists_phrase hwf symbols hroot
    (List.cons_ne_nil field []) (by simpa using hplain) (by simpa using hfields id hid)
  have hmakes := hretraces.makes
  obtain ⟨ws, hyields, hworded⟩ := hretraces.worded field List.mem_cons_self
  have hknown : c.Known symbols := (Concrete.known_of_build hbuild hc).mono hsymbols
  have hfinds := SymbolStore.finds_names (hyields.known hknown Variants.base_subset)
  have hreading : c.Reading category.instances field t ws :=
    ⟨⟨id, hid, hmakes⟩, hyields.mono Variants.base_subset⟩
  refine ⟨_, Derivation.worded_base_iff.1 hworded, fun hends => ?_⟩
  -- so they are a reading, and no chart on the way refuses the next one
  obtain ⟨chart?, hfeed⟩ := Chart.ok_of_feedAll hwf hstart hends
  cases chart? with
  | none => exact absurd hfeed (Chart.ne_none_of_reading hwf hstart hreading hfinds.begins)
  | some chart =>
    obtain ⟨v, hbuilt, hinput⟩ := Chart.built_of_feedAll hwf hstart hfinds hfeed
    rw [← hinput] at hyields hreading
    refine ⟨chart, hfeed, hbuilt.isComplete_iff.2 ⟨t, hreading⟩, fun haudible hwithin exprs
      hordered counters₂ => ?_⟩
    -- and the phrase is among those that the enumeration comes to
    obtain ⟨C, hC, hunfolds⟩ :=
      hbuilt.exists_unfoldsOff haudible hid hmakes (hdirect [] List.not_mem_nil) hyields
    have hmem := hbuilt.ok_mem_values_readings.2 ⟨C, hC, t, hunfolds, hretraces.denotes⟩
    have hfree : ∀ e, .ok e ∈ chart.readings.values → e.LiteralFree := by
      intro e he
      obtain ⟨-, -, t, -, hdenotes⟩ := hbuilt.ok_mem_values_readings.1 he
      exact hdenotes.literalFree
    obtain ⟨count, ids, exprs', counters₃, htake, hfound⟩ :=
      Readings.exists_take (Chart.narrow_readings hwithin) hfree hordered counters₂
    exact ⟨count, ids, exprs', counters₃, htake, hfound _ hmem⟩

/-- An expression whose verb is said in two pieces. -/
def giveItUp : Expr := .app ⟨4⟩ [.app ⟨3⟩ []]

/-- Its derivation; the verb is of an instance that another one takes over. -/
def saidInTwo : Derivation := .app (.ofIndex 0) ⟨1⟩ ⟨4⟩ [.app (.ofIndex 1) ⟨0⟩ ⟨3⟩ []]

theorem plain_saidInTwo : saidInTwo.Plain english 0 := by
  have hverb : ∀ field < 2, (Derivation.app (.ofIndex 1) ⟨0⟩ ⟨3⟩ []).Plain english field := by
    intro field hfield s hs x hx
    obtain rfl | rfl : field = 0 ∨ field = 1 := by omega
    all_goals
      cases hs
      cases List.mem_singleton.1 hx
      trivial
  intro s hs x hx
  cases hs
  simp only [List.mem_cons, List.not_mem_nil, or_false] at hx
  rcases hx with rfl | rfl | rfl
  · rintro plain ⟨⟩
    exact hverb 0 (by decide)
  · trivial
  · rintro plain ⟨⟩
    exact hverb 1 (by decide)

theorem parses_back_giveItUp :
    ∃ g category chart₀ counters₁ tokens chart ids id exprs',
      particleVerbs.build = .ok g ∧ english ∈ g.concretes ∧
      particleVerbs.draft.2.symbols.Extends particleSymbols ∧
      answers (.ofConcrete g english) giveItUp 2 {} {} = .ok [some saidInTwo, none] ∧
      Chart.goal particleSymbols english "Action" 0 = .ok category ∧
      (∀ id ∈ category.instances, ∃ n, english.fieldCount? id = some n ∧ 0 < n) ∧
      saidInTwo.root? = some (.ofIndex 0) ∧ .ofIndex 0 ∈ category.instances ∧
      saidInTwo.Plain english 0 ∧
      Chart.parse 9 particleSymbols english "Action" 0 {} = (.ok chart₀, counters₁) ∧
      (Linearizer.ofConcrete g english).tokens particleSymbols saidInTwo 0 = .ok tokens ∧
      (chart₀.feedAll 9 particleSymbols tokens counters₁).1 = .ok (some chart) ∧
      chart.isComplete = true ∧
      (∀ s ∈ english.sequences, ∃ x ∈ s, x.Audible) ∧ chart.Within Choice.maxAlternatives ∧
      (∃ count counters₃, Readings.take chart count {} {} = .ok (ids, exprs', counters₃)) ∧
      id ∈ ids ∧ exprs'.expr? id = some giveItUp := by
  obtain ⟨g, hbuild, hconcretes⟩ := build_particleVerbs
  have hc : english ∈ g.concretes := hconcretes ▸ List.mem_cons_self
  have hsymbols : particleVerbs.draft.2.symbols.Extends particleSymbols := .refl _
  have hanswers : answers (.ofConcrete g english) giveItUp 2 {} {} =
      .ok [some saidInTwo, none] := by
    refine eq_ok_of_toOption ?_
    have hsearch : (particleVerbs.build.toOption.bind fun g =>
        (answers (.ofConcrete g english) giveItUp 2 {} {}).toOption) =
          some [some saidInTwo, none] := by
      decide +kernel
    rwa [hbuild] at hsearch
  have htokens : (Linearizer.ofConcrete g english).tokens particleSymbols saidInTwo 0 =
      .ok ["give", "it", "up"] :=
    eq_ok_of_toOption (by decide +kernel : (Linearizer.linearize particleSymbols english saidInTwo
      0).result.toOption = some ["give", "it", "up"])
  have hrun :
      (Chart.ofTokens? 9 particleSymbols english "Action" 0 ["give", "it", "up"]).isSome := by
    decide +kernel
  obtain ⟨chart', hchart⟩ := Option.isSome_iff_exists.1 hrun
  obtain ⟨chart₀, counters₁, hparse, hfeed'⟩ := Chart.exists_of_ofTokens? hchart
  obtain ⟨tokens, htokens', hback⟩ := parses_back hbuild hc hsymbols hanswers
    List.mem_cons_self goal_english fields_english rfl List.mem_cons_self plain_saidInTwo hparse
  cases htokens.symm.trans htokens'
  obtain ⟨chart, hfeed, hcomplete, hread⟩ := hback fun hends => by cases hfeed'.symm.trans hends
  have haudible : ∀ s ∈ english.sequences, ∃ x ∈ s, x.Audible := by
    simp [english, Constituent.Audible]
  have hwithin : chart.Within Choice.maxAlternatives :=
    ((Chart.within_parse hparse).feedAll hfeed).mono (by decide)
  obtain ⟨count, ids, exprs', counters₃, htake, id, hid, he⟩ :=
    hread haudible hwithin {} ExprStore.ordered_empty {}
  exact ⟨g, _, chart₀, counters₁, _, chart, ids, id, exprs', hbuild, hc, hsymbols, hanswers,
    goal_english, fields_english, rfl, List.mem_cons_self, plain_saidInTwo, hparse, htokens,
    hfeed, hcomplete, haudible, hwithin, ⟨count, counters₃, htake⟩, hid, he⟩

end Concretizations

end Polyglot
