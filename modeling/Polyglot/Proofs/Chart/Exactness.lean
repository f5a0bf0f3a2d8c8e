import Polyglot.Proofs.Chart.Completeness
import Polyglot.Proofs.Grammar.Words

/-!
# A chart holds the readings of its input

When tokens are fed to a chart one after another, the categories that are complete at the end unfold
to all the phrases that these tokens are words of, and to no others. A token is refused only if no
such phrase goes on with it.

- `Concrete.Reading`: a phrase as a reading of some words.
- `Chart.feedAll`: the chart after several tokens.
- `Built.unfolds_iff`: what a chart between tokens unfolds to.
- `feedAll_spec`: what becomes of a chart that is fed tokens, by induction on these.
- `feedAll_exact`: the readings in the chart after some tokens are those of the tokens.
-/

namespace Polyglot

/-- A phrase that makes one of some instances, for a field with the given words. -/
structure Concrete.Reading (c : Concrete) (ids : List InstanceId) (field : Nat) (t : Phrase)
    (ws : List Sym) : Prop where
  makes : ∃ id ∈ ids, c.Makes id [field] t
  yields : t.Yields c Variants.forms field ws

/-- An input that begins with some words. -/
def inputOf (ws : List Sym) (k : Nat) : Sym := ws[k]?.getD ⟨0⟩

theorem between_inputOf (ws : List Sym) : between (inputOf ws) 0 ws.length = ws := by
  refine List.ext_getElem (length_between ..) fun i hi hi' => ?_
  simp [between, inputOf, List.getElem?_eq_getElem hi']

/-- An input with the words of some tokens, as far as these are known. -/
def SymbolStore.inputOf (symbols : SymbolStore) (tokens : List String) (k : Nat) : Sym :=
  ((tokens[k]?).bind symbols.find?).getD ⟨0⟩

theorem SymbolStore.eq_inputOf {symbols : SymbolStore} {tokens : List String} {i : Nat}
    {token : String} {w : Sym} (hi : tokens[i]? = some token)
    (hw : symbols.find? token = some w) : w = symbols.inputOf tokens i := by
  simp [inputOf, hi, hw]

namespace Chart

variable {c : Concrete} {v : Nat → Sym} {ids : List InstanceId} {goal : Nat} {chart : Chart}

/-! ## The readings in a chart -/

/-- What spans the input is known to span it. -/
theorem spans_iff {C : ChartCatId} :
    chart.facts (.spans chart.position C) ↔ C ∈ chart.completed := by
  have hlast : chart.steps[chart.position]? = some chart.last := by simp [steps, position]
  constructor
  · rintro ⟨k, s, hs, rfl, hmem⟩
    cases hlast.symm.trans hs
    exact hmem
  · exact fun hmem => ⟨chart.position, chart.last, hlast, rfl, hmem⟩

/-- What spans the input completes a goal that was predicted at its beginning. -/
theorem Built.completes_goal (h : Built c v ids goal chart) {C : ChartCatId}
    (hC : C ∈ chart.completed) :
    C.step = chart.position ∧ ∃ id ∈ ids, ∃ S n, S.step = 0 ∧
      chart.facts (.closes C S (.grammar id) goal n) := by
  obtain ⟨hstep, S, X, f, n, hcloses, hset⟩ := h.sound.grounded _ (spans_iff.2 hC)
  obtain ⟨-, -, htop⟩ := h.sound.grounded _ hset
  obtain ⟨hS, rfl, id, hid, rfl⟩ := htop rfl
  exact ⟨hstep, id, hid, S, n, hS, hcloses⟩

/-- What a goal unfolds to is a reading of the input. -/
theorem Built.reading_of_unfolds (h : Built c v ids goal chart) {C : ChartCatId}
    (hC : C ∈ chart.completed) {t : Phrase} (ht : Unfolds chart.facts (.chart C) t) :
    c.Reading ids goal t (between v 0 chart.position) := by
  obtain ⟨hstep, id, hid, S, n, hS, hcloses⟩ := h.completes_goal hC
  obtain ⟨hmakes, hyields⟩ := h.sound.makes_of_unfolds ht (.chart hcloses (.grammar id))
  refine ⟨⟨id, hid, hmakes⟩, ?_⟩
  have := hyields ⟨goal, S.step, C.step⟩ List.mem_cons_self
  rwa [hS, hstep] at this

/-- A phrase for a goal, with the words of an input that goes on at least to the end of a chart: if
the words end there then a category that comes from the goal covers the phrase, and if they go on
then something waits for the next one. -/
theorem Built.follows (h : Built c v ids goal chart) {pick : Variants → List (List Sym)}
    (hpick : ∀ w, pick w ⊆ w.forms) {id : InstanceId} (hid : id ∈ ids) {t : Phrase}
    (hmakes : c.Makes id [goal] t) {ws : List Sym} (hyields : t.Yields c pick goal ws)
    (hinput : between v 0 ws.length = ws) :
    (chart.position < ws.length → Expects v chart.facts chart.position) ∧
      (chart.position = ws.length → ∃ C ∈ chart.completed, ∃ L, Chain chart.facts (.chart C) id L ∧
        Covers c pick chart.facts (.chart C) [] t) := by
  obtain ⟨S, hset⟩ := h.goals id hid
  obtain ⟨done, hsat⟩ := h.saturated
  have hS : S.step = 0 := ((h.sound.grounded _ hset).2.2 rfl).1
  obtain ⟨hbeyond, hwithin⟩ := hsat.closes_of_yields hpick h.sound hset (by omega)
    (.grammar hmakes) hyields (by rwa [hS, Nat.zero_add])
  rw [hS, Nat.zero_add] at hbeyond hwithin
  refine ⟨hbeyond, fun hend => ?_⟩
  obtain ⟨C, m, hcloses, hC, hcovers⟩ := hwithin (Nat.le_of_eq hend.symm)
  have hspans := h.sound.spans _ _ _ _ _ hcloses hset
  rw [hC, ← hend] at hspans
  exact ⟨C, spans_iff.1 hspans, _, .chart hcloses (.grammar id), hcovers⟩

/-- The goals of a chart unfold to the readings of its input, and to nothing else. -/
theorem Built.unfolds_iff (h : Built c v ids goal chart) {t : Phrase} :
    (∃ C ∈ chart.completed, Unfolds chart.facts (.chart C) t) ↔
      c.Reading ids goal t (between v 0 chart.position) := by
  have hlength : (between v 0 chart.position).length = chart.position := length_between ..
  constructor
  · rintro ⟨C, hC, ht⟩
    exact h.reading_of_unfolds hC ht
  · intro ht
    obtain ⟨id, hid, hmakes⟩ := ht.makes
    obtain ⟨C, hC, -, -, hcovers⟩ :=
      (h.follows (fun _ _ h => h) hid hmakes ht.yields (by rw [hlength])).2 hlength.symm
    exact ⟨C, hC, hcovers.unfolds rfl⟩

/-- A chart is complete if its input has a reading. -/
theorem Built.isComplete_iff (h : Built c v ids goal chart) :
    chart.isComplete = true ↔ ∃ t, c.Reading ids goal t (between v 0 chart.position) := by
  constructor
  · intro hcomplete
    have hne : chart.completed ≠ [] := by simpa [isComplete] using hcomplete
    obtain ⟨C, hC⟩ := List.exists_mem_of_ne_nil _ hne
    obtain ⟨-, id, -, S, n, -, hcloses⟩ := h.completes_goal hC
    obtain ⟨t, ht⟩ := h.sound.exists_unfolds hcloses
    exact ⟨t, h.reading_of_unfolds hC ht⟩
  · rintro ⟨t, ht⟩
    obtain ⟨C, hC, -⟩ := h.unfolds_iff.2 ht
    have hne : chart.completed ≠ [] := List.ne_nil_of_mem hC
    simpa [isComplete] using hne

/-! ## Several tokens -/

/-- The chart after several tokens, or none if one of them is refused. -/
def feedAll (limit : Nat) (symbols : SymbolStore) (chart : Chart) :
    List String → Counters → Except Building.Halt (Option Chart) × Counters
  | [], counters => (.ok (some chart), counters)
  | token :: tokens, counters =>
    match chart.feed limit symbols token counters with
    | (.ok (some next), counters) => feedAll limit symbols next tokens counters
    | (.ok none, counters) => (.ok none, counters)
    | (.error h, counters) => (.error h, counters)

variable {limit : Nat} {symbols : SymbolStore}

/-- A token that something waits for is known. -/
theorem find?_of_waiting {token : String} (h : chart.waitingItems? symbols token ≠ none) :
    ∃ w, symbols.find? token = some w := by
  cases hfind : symbols.find? token with
  | none => exact absurd (by rw [waitingItems?, hfind]; rfl) h
  | some w => exact ⟨w, rfl⟩

/-- Tokens that are not refused are known. -/
theorem finds_of_feedAll {tokens : List String} {counters : Counters} {chart' : Chart}
    (h : (chart.feedAll limit symbols tokens counters).1 = .ok (some chart')) :
    ∃ ws, symbols.Finds tokens ws := by
  induction tokens generalizing chart counters with
  | nil => exact ⟨[], rfl⟩
  | cons token tokens ih =>
    rw [feedAll] at h
    by_cases hwaiting : chart.waitingItems? symbols token = none
    · rw [feed, hwaiting] at h
      cases h
    · obtain ⟨w, hw⟩ := find?_of_waiting hwaiting
      split at h
      · obtain ⟨ws, hws⟩ := ih h
        exact ⟨w :: ws, by rw [SymbolStore.Finds, List.map_cons, List.map_cons, hw, hws]⟩
      · cases h
      · cases h

/-- What becomes of a chart that is fed tokens of the input: the agenda of some step is not worked
off, or there is a chart that has read them all, or some chart on the way refuses the next one. -/
theorem feedAll_spec (hwf : c.WellFormed) (limit : Nat) (symbols : SymbolStore)
    (tokens : List String) (counters : Counters) (h : Built c v ids goal chart)
    (htokens : ∀ (i : Nat) (token : String) (w : Sym), tokens[i]? = some token →
      symbols.find? token = some w → w = v (chart.position + i)) :
    (chart.feedAll limit symbols tokens counters).1 = .error .exhausted ∨
      (∃ chart', (chart.feedAll limit symbols tokens counters).1 = .ok (some chart') ∧
        Built c v ids goal chart' ∧ chart'.position = chart.position + tokens.length) ∨
      ((chart.feedAll limit symbols tokens counters).1 = .ok none ∧
        ∃ chart' i token, Built c v ids goal chart' ∧ chart'.position = chart.position + i ∧
          tokens[i]? = some token ∧ chart'.waitingItems? symbols token = none) := by
  induction tokens generalizing chart counters with
  | nil => exact .inr (.inl ⟨chart, rfl, h, rfl⟩)
  | cons token tokens ih =>
    rw [feedAll]
    by_cases hwaiting : chart.waitingItems? symbols token = none
    · exact .inr (.inr ⟨by rw [feed, hwaiting], chart, 0, token, h, rfl, rfl, hwaiting⟩)
    · obtain ⟨w, hw⟩ := find?_of_waiting hwaiting
      have htoken : symbols.find? token = some (v chart.position) :=
        hw.trans (congrArg some (htokens 0 token w rfl hw))
      have hfeed := h.feed hwf limit counters htoken hwaiting
      cases hresult : chart.feed limit symbols token counters with
      | mk r counters' =>
        rw [hresult] at hfeed
        rcases hfeed with rfl | ⟨chart', rfl, hbuilt, hposition⟩
        · exact .inl rfl
        · -- The places of the other tokens are counted from the chart after this one.
          have hrest := ih counters' hbuilt fun i token' w hi hw => by
            rw [hposition, Nat.add_assoc, Nat.add_comm 1 i]
            exact htokens (i + 1) token' w hi hw
          simp only [hposition, Nat.add_assoc, Nat.add_comm 1] at hrest
          rcases hrest with hrest | hrest | ⟨hrest, chart'', i, token', hbuilt', hrefused⟩
          · exact .inl hrest
          · exact .inr (.inl hrest)
          · exact .inr (.inr ⟨hrest, chart'', i + 1, token', hbuilt', hrefused⟩)

/-- Words that tokens are found to be are at the same places as the tokens. -/
theorem find?_eq_inputOf {tokens : List String} {ws : List Sym}
    (h : tokens.map symbols.find? <+: ws.map some) {i : Nat} {token : String}
    (hi : tokens[i]? = some token) : symbols.find? token = some (inputOf ws i) := by
  have hlt : i < (tokens.map symbols.find?).length := by
    rw [List.length_map]
    exact (List.getElem?_eq_some_iff.1 hi).1
  have hlt' : i < ws.length := by
    simpa using Nat.lt_of_lt_of_le hlt h.length_le
  have heq := h.getElem hlt
  rw [List.getElem_map, List.getElem_map, (List.getElem?_eq_some_iff.1 hi).2] at heq
  rw [heq, inputOf, List.getElem?_eq_getElem hlt', Option.getD_some]

section Start

variable (hwf : c.WellFormed) (hstart : ∀ v, Built c v ids goal chart ∧ chart.position = 0)
  {tokens : List String} {counters : Counters}
include hwf hstart

/-- If all agendas are worked off then nothing goes wrong. -/
theorem ok_of_feedAll
    (hends : (chart.feedAll limit symbols tokens counters).1 ≠ .error .exhausted) :
    ∃ chart?, (chart.feedAll limit symbols tokens counters).1 = .ok chart? := by
  -- What else the input has does not matter.
  obtain ⟨hbuilt, hzero⟩ := hstart (symbols.inputOf tokens)
  obtain hexhausted | ⟨chart', hchart, -⟩ | ⟨hnone, -⟩ :=
    feedAll_spec hwf limit symbols tokens counters hbuilt fun i token w hi hw => by
      rw [hzero, Nat.zero_add]
      exact SymbolStore.eq_inputOf hi hw
  · exact absurd hexhausted hends
  · exact ⟨_, hchart⟩
  · exact ⟨_, hnone⟩

/-- A chart that has read tokens has them as its input. -/
theorem built_of_feedAll {ws : List Sym} (hws : symbols.Finds tokens ws) {chart' : Chart}
    (h : (chart.feedAll limit symbols tokens counters).1 = .ok (some chart')) :
    ∃ v, Built c v ids goal chart' ∧ between v 0 chart'.position = ws := by
  obtain ⟨hbuilt, hzero⟩ := hstart (inputOf ws)
  obtain hexhausted | ⟨chart'', hchart, hbuilt', hposition⟩ | ⟨hnone, -⟩ :=
    feedAll_spec hwf limit symbols tokens counters hbuilt fun i token w hi hw => by
      rw [find?_eq_inputOf hws.begins hi] at hw
      rw [hzero, Nat.zero_add]
      exact (Option.some.inj hw).symm
  · cases h.symm.trans hexhausted
  · cases h.symm.trans hchart
    have hlength : chart'.position = ws.length := by
      rw [hposition, hzero, Nat.zero_add]
      simpa using congrArg List.length hws
    exact ⟨inputOf ws, hbuilt', by rw [hlength, between_inputOf]⟩
  · cases h.symm.trans hnone

/-- Tokens with which a reading begins are not refused. -/
theorem ne_none_of_reading {t : Phrase} {ws : List Sym} (ht : c.Reading ids goal t ws)
    (hws : tokens.map symbols.find? <+: ws.map some) :
    (chart.feedAll limit symbols tokens counters).1 ≠ .ok none := by
  intro h
  obtain ⟨hbuilt, hzero⟩ := hstart (inputOf ws)
  obtain hexhausted | ⟨chart', hchart, -⟩ | ⟨-, chart', i, token, hbuilt', hi, htoken, hnone⟩ :=
    feedAll_spec hwf limit symbols tokens counters hbuilt fun i token w hi hw => by
        rw [find?_eq_inputOf hws hi] at hw
        rw [hzero, Nat.zero_add]
        exact (Option.some.inj hw).symm
  · cases h.symm.trans hexhausted
  · cases h.symm.trans hchart
  · rw [hzero, Nat.zero_add] at hi
    have hlt : i < ws.length := by
      have hbound := (List.getElem?_eq_some_iff.1 htoken).1
      have hle := hws.length_le
      simp only [List.length_map] at hle
      omega
    -- The reading goes on beyond this chart, so something waits for its next word.
    obtain ⟨id, hid, hmakes⟩ := ht.makes
    obtain ⟨idx, hawaits⟩ := (hbuilt'.follows (fun _ _ h => h) hid hmakes ht.yields
      (between_inputOf ws)).1 (hi ▸ hlt)
    have hfind := find?_eq_inputOf hws htoken
    exact waitingItems?_eq_none_iff.1 hnone _ idx (hi ▸ hfind) hawaits

end Start

/-- **The chart holds the readings of its tokens, and no others.** For every grammar that is
accepted, every concrete syntax of it and every field of a category that can be parsed: if the
agendas are worked off then either all tokens are read, the chart is complete if they have a
reading, and its goals unfold to their readings and to nothing else; or a token is refused, and no
reading begins with these tokens. -/
theorem feedAll_exact {w : WrittenGrammar} {g : Grammar} (hbuild : w.build = .ok g)
    (hc : c ∈ g.concretes) {cat : String} {field : Nat} {category : ConcreteCategory}
    (hgoal : Chart.goal symbols c cat field = .ok category)
    (hfields : ∀ id ∈ category.instances, ∃ n, c.fieldCount? id = some n ∧ field < n)
    {counters counters₀ : Counters} {chart₀ : Chart}
    (hparse : parse limit symbols c cat field counters = (.ok chart₀, counters₀))
    {tokens : List String}
    (hends : (chart₀.feedAll limit symbols tokens counters₀).1 ≠ .error .exhausted) :
    (∃ chart, (chart₀.feedAll limit symbols tokens counters₀).1 = .ok (some chart) ∧
      (chart.isComplete = true ↔
        ∃ t ws, c.Reading category.instances field t ws ∧ symbols.Finds tokens ws) ∧
      ∀ t, (∃ C ∈ chart.completed, Unfolds chart.facts (.chart C) t) ↔
        ∃ ws, c.Reading category.instances field t ws ∧ symbols.Finds tokens ws) ∨
    ((chart₀.feedAll limit symbols tokens counters₀).1 = .ok none ∧
      ∀ t ws, c.Reading category.instances field t ws →
        ¬ tokens.map symbols.find? <+: ws.map some) := by
  have hwf := Concrete.wellFormed_of_build hbuild hc
  have hstart := built_of_parse hwf hgoal hfields hparse
  obtain ⟨chart?, hresult⟩ := ok_of_feedAll hwf hstart hends
  cases chart? with
  | none =>
    exact .inr ⟨hresult, fun t ws ht hws => ne_none_of_reading hwf hstart ht hws hresult⟩
  | some chart =>
    obtain ⟨ws, hws⟩ := finds_of_feedAll hresult
    obtain ⟨v, hbuilt, hinput⟩ := built_of_feedAll hwf hstart hws hresult
    -- the words of the tokens are determined
    have hreading : ∀ t, c.Reading category.instances field t ws ↔
        ∃ ws, c.Reading category.instances field t ws ∧ symbols.Finds tokens ws := by
      refine fun t => ⟨fun ht => ⟨ws, ht, hws⟩, ?_⟩
      rintro ⟨ws', ht, hws'⟩
      exact hws'.unique hws ▸ ht
    refine .inl ⟨chart, hresult, ?_, fun t => ?_⟩
    · simp only [hbuilt.isComplete_iff, hinput, hreading]
    · rw [hbuilt.unfolds_iff, hinput, hreading]

end Chart

/-- Verbs of two pieces with their object in between; the instance that is read takes over the
productions of another one. -/
def particleVerbs : WrittenGrammar where
  name := "Particles"
  declarations :=
    [.category "Action" [], .category "Verb" [],
      .function "giveUp" [] "Verb", .function "doIt" ["Verb"] "Action",
      .concrete "English"
        [.category "Action" 1 ["s"], .category "Verb" 1 ["verb", "particle"],
          .coercion [.ofIndex 1],
          .functionWith "giveUp" [[.tokens ["give"]], [.tokens ["up"]]],
          .functionWith "doIt" [[.sub 0 0, .tokens ["it"], .sub 0 1]],
          .apply (.ofIndex 1) ⟨0⟩ [], .apply (.ofIndex 0) ⟨1⟩ [.ofIndex 2]]]

/-- The names and the words that occur in it. -/
def particleSymbols : SymbolStore := particleVerbs.draft.2.symbols

/-- Its only concrete syntax. -/
def english : Concrete where
  name := ⟨5⟩
  cats := [⟨⟨1⟩, [.ofIndex 0], ["s"]⟩, ⟨⟨2⟩, [.ofIndex 1], ["verb", "particle"]⟩]
  instances :=
    [⟨some ⟨1⟩, 1, some [.apply ⟨1⟩ [.ofIndex 2]]⟩, ⟨some ⟨2⟩, 2, some [.apply ⟨0⟩ []]⟩,
      ⟨some ⟨2⟩, 2, some [.coerce (.ofIndex 1)]⟩]
  funs := [⟨⟨3⟩, [⟨0⟩, ⟨1⟩]⟩, ⟨⟨4⟩, [⟨2⟩]⟩]
  sequences := [[.tokens [⟨6⟩]], [.tokens [⟨7⟩]], [.sub 0 0, .tokens [⟨8⟩], .sub 0 1]]

/-- What a computation that can be run comes to. -/
theorem eq_ok_of_toOption {ε α : Type} {r : Except ε α} {a : α} (h : r.toOption = some a) :
    r = .ok a := by
  cases r with
  | error e => cases h
  | ok b =>
    cases h
    rfl

/-- A grammar whose concrete syntaxes can be computed is accepted. -/
theorem exists_build {w : WrittenGrammar} {concretes : List Concrete}
    (h : (w.build.map Grammar.concretes).toOption = some concretes) :
    ∃ g, w.build = .ok g ∧ g.concretes = concretes := by
  cases hbuild : w.build with
  | error e =>
    rw [hbuild] at h
    cases h
  | ok g =>
    rw [hbuild] at h
    exact ⟨g, rfl, Option.some.inj h⟩

theorem build_particleVerbs :
    ∃ g, particleVerbs.build = .ok g ∧ g.concretes = [english] :=
  exists_build (by decide +kernel)

theorem goal_english : Chart.goal particleSymbols english "Action" 0 =
    .ok ⟨⟨1⟩, [.ofIndex 0], ["s"]⟩ :=
  eq_ok_of_toOption (by decide +kernel)

theorem fields_english :
    ∀ id ∈ [InstanceId.ofIndex 0], ∃ n, english.fieldCount? id = some n ∧ 0 < n := by
  simp only [List.mem_singleton, forall_eq]
  exact ⟨1, rfl, Nat.one_pos⟩

namespace Chart

/-- The chart of some tokens, if it comes to that. -/
def ofTokens? (limit : Nat) (symbols : SymbolStore) (c : Concrete) (cat : String) (field : Nat)
    (tokens : List String) : Option Chart :=
  match parse limit symbols c cat field {} with
  | (.ok chart, counters) =>
    match (chart.feedAll limit symbols tokens counters).1 with
    | .ok chart? => chart?
    | .error _ => none
  | (.error _, _) => none

theorem exists_of_ofTokens? {limit : Nat} {symbols : SymbolStore} {c : Concrete} {cat : String}
    {field : Nat} {tokens : List String} {chart : Chart}
    (h : ofTokens? limit symbols c cat field tokens = some chart) :
    ∃ chart₀ counters₀, parse limit symbols c cat field {} = (.ok chart₀, counters₀) ∧
      (chart₀.feedAll limit symbols tokens counters₀).1 = .ok (some chart) := by
  rw [ofTokens?] at h
  split at h
  · rename_i chart₀ counters₀ hparse
    split at h
    · rename_i chart? hfeed
      exact ⟨chart₀, counters₀, hparse, h ▸ hfeed⟩
    · cases h
  · cases h

theorem feedAll_exact_giveItUp :
    ∃ g category chart₀ counters₀, particleVerbs.build = .ok g ∧ english ∈ g.concretes ∧
      Chart.goal particleSymbols english "Action" 0 = .ok category ∧
      (∀ id ∈ category.instances, ∃ n, english.fieldCount? id = some n ∧ 0 < n) ∧
      parse 9 particleSymbols english "Action" 0 {} = (.ok chart₀, counters₀) ∧
      (chart₀.feedAll 9 particleSymbols ["give", "it", "up"] counters₀).1 ≠ .error .exhausted ∧
      ((∃ chart, (chart₀.feedAll 9 particleSymbols ["give", "it", "up"] counters₀).1 =
          .ok (some chart) ∧
        (chart.isComplete = true ↔ ∃ t ws, english.Reading category.instances 0 t ws ∧
          particleSymbols.Finds ["give", "it", "up"] ws) ∧
        ∀ t, (∃ C ∈ chart.completed, Unfolds chart.facts (.chart C) t) ↔
          ∃ ws, english.Reading category.instances 0 t ws ∧
            particleSymbols.Finds ["give", "it", "up"] ws) ∨
      ((chart₀.feedAll 9 particleSymbols ["give", "it", "up"] counters₀).1 = .ok none ∧
        ∀ t ws, english.Reading category.instances 0 t ws →
          ¬ ["give", "it", "up"].map particleSymbols.find? <+: ws.map some)) := by
  obtain ⟨g, hbuild, hconcretes⟩ := build_particleVerbs
  have hc : english ∈ g.concretes := hconcretes ▸ List.mem_cons_self
  have hrun : (ofTokens? 9 particleSymbols english "Action" 0 ["give", "it", "up"]).isSome := by
    decide +kernel
  obtain ⟨chart, hchart⟩ := Option.isSome_iff_exists.1 hrun
  obtain ⟨chart₀, counters₀, hparse, hfeed⟩ := exists_of_ofTokens? hchart
  have hends : (chart₀.feedAll 9 particleSymbols ["give", "it", "up"] counters₀).1 ≠
      .error .exhausted := by
    intro h
    cases hfeed.symm.trans h
  exact ⟨g, _, chart₀, counters₀, hbuild, hc, goal_english, fields_english, hparse, hends,
    feedAll_exact hbuild hc goal_english fields_english hparse hends⟩

end Chart

end Polyglot
