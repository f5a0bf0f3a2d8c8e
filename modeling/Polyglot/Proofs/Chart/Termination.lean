import Polyglot.Proofs.Chart.Exactness
import Polyglot.Proofs.Chart.Extent

/-!
# When parsing ends

The agenda of a step is worked off if the step cannot grow without end, and that is so for every
grammar that is sparing with copies of what may be empty, whatever recursion or coercions it has.
Without this condition there may be no end: where a function copies an argument of its own category,
and the copies may be empty, each copy is refined once more than the one before.

- `Building.Frugal.exists_finish`: a step of a sparing grammar can be finished.
- `Chart.feedAll_ends`: so parsing ends, for every input.
- `Chart.Built.exists_asks_le`: where it has ended there is a bound on how much is copied.
- `Chart.parse_doubled`: a grammar that is accepted, but cannot be parsed at all.
-/

namespace Polyglot

variable {c : Concrete} {v : Nat → Sym} {ids : List InstanceId} {goal most : Nat}

namespace Building

variable {b b' : Building}

/-- A step of a grammar that is sparing with copies comes to its end. -/
theorem Frugal.exists_finish (hwf : c.WellFormed) (hs : c.Sparing)
    (hmost : ∀ id p, p ∈ c.productionsOf id → ∀ arg, (c.readsAll id p arg).length ≤ most)
    (h : Frugal c v ids goal most b) :
    ∃ limit b', Frugal c v ids goal most b' ∧ b'.history = b.history ∧
      ∀ limit' ≥ limit, b.finish limit' = (.ok b'.step, b'.counters) := by
  let Inv (b' : Building) : Prop := Frugal c v ids goal most b' ∧ b'.history = b.history
  have hnext : ∀ b₁ b₂, Inv b₁ → b₁.next? = some b₂ → Inv b₂ := by
    rintro b₁ b₂ ⟨h₁, hhistory₁⟩ hb
    obtain ⟨h₂, hhistory₂⟩ := h₁.next? hwf hs hmost hb
    exact ⟨h₂, hhistory₂.trans hhistory₁⟩
  obtain ⟨bound, hbound⟩ := exists_extent_le c most b.index
  obtain ⟨limit, b', hrun⟩ := exists_run hnext
    (fun b₁ ⟨h₁, hhistory₁⟩ => hbound _ _ _ b₁ h₁ (congrArg Array.size hhistory₁)) ⟨h, rfl⟩
  obtain ⟨h', hhistory⟩ := run_invariant Inv hnext ⟨h, rfl⟩ hrun
  refine ⟨limit, b', h', hhistory, fun limit' hle => ?_⟩
  rw [finish, run_mono hle hrun]
  dsimp only
  rw [h'.runs.fault]

/-- Items that are moved over a token only go on the agenda. -/
theorem sameChart_scan (items : List Item) (b : Building) :
    b.SameChart (items.foldl scan b) := by
  induction items generalizing b with
  | nil => exact ⟨rfl, rfl, rfl⟩
  | cons item items ih =>
    refine SameChart.trans ?_ (ih (b.scan item))
    unfold scan
    dsimp only
    split <;> exact ⟨rfl, rfl, rfl⟩

/-- A step that has no categories yet has none with a production twice. -/
theorem distinct_of_cats_eq (h : b.step.cats = #[]) : b.step.Distinct := by
  rw [Step.Distinct, h]
  simp

end Building

namespace Chart

variable {chart : Chart} {symbols : SymbolStore}

/-- What holds of a chart between tokens if the grammar is sparing with copies. -/
structure Frugal (c : Concrete) (v : Nat → Sym) (ids : List InstanceId) (goal most : Nat)
    (chart : Chart) : Prop where
  built : Built c v ids goal chart
  spare : Spare c most chart.facts

section Ends

variable (hwf : c.WellFormed) (hs : c.Sparing)
  (hmost : ∀ id p, p ∈ c.productionsOf id → ∀ arg, (c.readsAll id p arg).length ≤ most)
include hwf hs hmost

/-- The chart before any input can be made. -/
theorem exists_parse {cat : String} {field : Nat} {category : ConcreteCategory}
    (hgoal : Chart.goal symbols c cat field = .ok category)
    (hfields : ∀ id ∈ category.instances, ∃ n, c.fieldCount? id = some n ∧ field < n)
    (counters : Counters) :
    ∃ limit chart₀ counters₀,
      (∀ limit' ≥ limit, parse limit' symbols c cat field counters = (.ok chart₀, counters₀)) ∧
      ∀ v, Frugal c v category.instances field most chart₀ ∧ chart₀.position = 0 := by
  let b := (Building.start c #[] none counters).predictTop category.instances field
  obtain ⟨hruns, hhistory⟩ := runs_predictTop hwf hfields (fun _ => ⟨0⟩) counters
  have hcats : b.step.cats = #[] := (Building.keeps_predictTop ..).cats
  have hspare : Spare c most b.facts := spare_of_not_closes fun C S X f n => by
    rintro ⟨k, s, hs, -, entry, hentry, -⟩
    rw [show b.history = #[] from hhistory, Array.getElem?_push] at hs
    split at hs
    · cases hs
      rw [hcats] at hentry
      simp at hentry
    · simp at hs
  obtain ⟨limit, b', h', hhistory', hfinish⟩ := Building.Frugal.exists_finish hwf hs hmost
    (b := b) ⟨hruns, hspare, Building.distinct_of_cats_eq hcats⟩
  have hparse : ∀ limit' ≥ limit, parse limit' symbols c cat field counters =
      (.ok { concrete := c, past := #[], last := b'.step }, b'.counters) := by
    intro limit' hle
    simp only [parse, hgoal]
    rw [hfinish limit' hle]
  refine ⟨limit, _, _, hparse, fun v => ?_⟩
  obtain ⟨hbuilt, hposition⟩ := built_of_parse hwf hgoal hfields (hparse limit (Nat.le_refl _)) v
  refine ⟨⟨hbuilt, ?_⟩, hposition⟩
  have hfacts := h'.spare
  rwa [Building.facts, hhistory', show b.history = #[] from hhistory] at hfacts

/-- So can the chart after one more token of the input, or else the token is refused. -/
theorem Frugal.exists_feed (h : Frugal c v ids goal most chart) {token : String}
    (htoken : ∀ w, symbols.find? token = some w → w = v chart.position) (counters : Counters) :
    ∃ limit next? counters',
      (∀ limit' ≥ limit, chart.feed limit' symbols token counters = (.ok next?, counters')) ∧
      ∀ next, next? = some next → Frugal c v ids goal most next ∧
        next.position = chart.position + 1 := by
  cases hitems : chart.waitingItems? symbols token with
  | none =>
    exact ⟨0, none, _, fun limit' _ => by rw [feed, hitems], nofun⟩
  | some waiting =>
    obtain ⟨sym, idxs⟩ := waiting
    obtain ⟨hfind, rfl⟩ := waitingItems?_eq_some hitems
    have hsym := htoken sym hfind
    have hconcrete := h.built.concrete
    subst hconcrete
    let b := List.foldl Building.scan
      (Building.start chart.concrete chart.steps (some sym) counters)
      ((chart.last.waitingFor sym).filterMap (chart.last.items[·]?))
    obtain ⟨hruns, hhistory⟩ := h.built.runs_scan hsym counters rfl
    have hsame : (Building.start chart.concrete chart.steps (some sym) counters).SameChart b :=
      Building.sameChart_scan ..
    have hspare : Spare chart.concrete most b.facts := by
      rw [hsame.facts_eq, Building.facts_start]
      exact h.spare
    have hcats : b.step.cats = #[] := by rw [hsame.step]; rfl
    obtain ⟨limit, b', h', hhistory', hfinish⟩ := Building.Frugal.exists_finish hwf hs hmost
      (b := b) ⟨hruns, hspare, Building.distinct_of_cats_eq hcats⟩
    have hfeed : ∀ limit' ≥ limit, chart.feed limit' symbols token counters =
        (.ok (some { chart with past := chart.steps, last := b'.step }), b'.counters) := by
      intro limit' hle
      simp only [feed, hitems]
      rw [hfinish limit' hle]
    refine ⟨limit, _, _, hfeed, fun next hnext => ?_⟩
    cases hnext
    have hend := h.built.feed hwf limit counters (hfind.trans (congrArg some hsym))
      (by rw [hitems]; exact Option.some_ne_none _)
    rw [hfeed limit (Nat.le_refl _)] at hend
    obtain hend | ⟨next, hend, hbuilt, hposition⟩ := hend
    · cases hend
    · cases hend
      refine ⟨⟨hbuilt, ?_⟩, hposition⟩
      have hfacts := h'.spare
      rwa [Building.facts, hhistory', show b.history = chart.steps from hhistory] at hfacts

/-- So can the chart after several tokens, as far as they are not refused. -/
theorem Frugal.exists_feedAll (h : Frugal c v ids goal most chart) {tokens : List String}
    (htokens : ∀ (i : Nat) (token : String) (w : Sym), tokens[i]? = some token →
      symbols.find? token = some w → w = v (chart.position + i)) (counters : Counters) :
    ∃ limit chart? counters', ∀ limit' ≥ limit,
      chart.feedAll limit' symbols tokens counters = (.ok chart?, counters') := by
  induction tokens generalizing chart counters with
  | nil => exact ⟨0, _, _, fun _ _ => rfl⟩
  | cons token tokens ih =>
    obtain ⟨limit, next?, counters', hfeed, hnext⟩ :=
      h.exists_feed hwf hs hmost (fun w hw => htokens 0 token w rfl hw) counters
    cases next? with
    | none => exact ⟨limit, none, counters', fun limit' hle => by rw [feedAll, hfeed limit' hle]⟩
    | some next =>
      obtain ⟨hfrugal, hposition⟩ := hnext next rfl
      obtain ⟨limit', chart?, counters'', hrest⟩ := ih hfrugal (fun i token' w hi hw => by
        rw [hposition, Nat.add_assoc, Nat.add_comm 1 i]
        exact htokens (i + 1) token' w hi hw) counters'
      refine ⟨max limit limit', chart?, counters'', fun l hle => ?_⟩
      rw [feedAll, hfeed l (le_of_max_le_left hle)]
      exact hrest l (le_of_max_le_right hle)

end Ends

/-- **Parsing ends.** For every grammar that is accepted, every concrete syntax of it in which no
copy of an empty part leads back to what it is a part of, every field of a category that can be
parsed and all tokens: with so many rounds for each step the agendas are worked off, and more rounds
make no difference. There are other grammars whose parsing ends. -/
theorem feedAll_ends {w : WrittenGrammar} {g : Grammar} (hbuild : w.build = .ok g)
    (hc : c ∈ g.concretes) (hs : c.Sparing) {cat : String} {field : Nat}
    {category : ConcreteCategory} (hgoal : Chart.goal symbols c cat field = .ok category)
    (hfields : ∀ id ∈ category.instances, ∃ n, c.fieldCount? id = some n ∧ field < n)
    (tokens : List String) (counters : Counters) :
    ∃ limit chart₀ counters₀ chart? counters', ∀ limit' ≥ limit,
      parse limit' symbols c cat field counters = (.ok chart₀, counters₀) ∧
      chart₀.feedAll limit' symbols tokens counters₀ = (.ok chart?, counters') := by
  have hwf := Concrete.wellFormed_of_build hbuild hc
  obtain ⟨most, hmost⟩ := c.exists_length_readsAll_le
  obtain ⟨limit, chart₀, counters₀, hparse, hstart⟩ :=
    exists_parse hwf hs hmost hgoal hfields counters
  -- What else the input has does not matter.
  obtain ⟨hfrugal, hzero⟩ := hstart (symbols.inputOf tokens)
  have htokens : ∀ (i : Nat) (token : String) (w : Sym), tokens[i]? = some token →
      symbols.find? token = some w → w = symbols.inputOf tokens (chart₀.position + i) := by
    intro i token w hi hw
    rw [hzero, Nat.zero_add]
    exact SymbolStore.eq_inputOf hi hw
  obtain ⟨limit', chart?, counters', hfeed⟩ :=
    hfrugal.exists_feedAll hwf hs hmost htokens counters₀
  exact ⟨max limit limit', chart₀, counters₀, chart?, counters', fun l hle =>
    ⟨hparse l (le_of_max_le_left hle), hfeed l (le_of_max_le_right hle)⟩⟩

end Chart

/-- Sentences that go on to the left, that may be empty and that are coerced to themselves, and a
function that says a word twice, even if there is nothing to be said. -/
def echoing : WrittenGrammar where
  name := "Echoing"
  declarations :=
    [.category "S" [], .category "W" [],
      .function "silence" [] "S", .function "more" ["S"] "S", .function "echo" ["W"] "S",
      .function "hush" [] "W", .function "word" [] "W",
      .concrete "Echoed"
        [.category "S" 1 ["s"], .category "W" 1 ["s"],
          .functionWith "silence" [[]], .functionWith "more" [[.sub 0 0, .tokens ["a"]]],
          .functionWith "echo" [[.sub 0 0, .sub 0 0]], .functionWith "hush" [[]],
          .functionWith "word" [[.tokens ["b"]]],
          .apply (.ofIndex 0) ⟨0⟩ [], .apply (.ofIndex 0) ⟨1⟩ [.ofIndex 0],
          .apply (.ofIndex 0) ⟨2⟩ [.ofIndex 1], .coerce (.ofIndex 0) (.ofIndex 0),
          .apply (.ofIndex 1) ⟨3⟩ [], .apply (.ofIndex 1) ⟨4⟩ []]]

/-- Its only concrete syntax. -/
def echoed : Concrete where
  name := ⟨8⟩
  cats := [⟨⟨1⟩, [.ofIndex 0], ["s"]⟩, ⟨⟨2⟩, [.ofIndex 1], ["s"]⟩]
  instances :=
    [⟨some ⟨1⟩, 1, some [.apply ⟨0⟩ [], .apply ⟨1⟩ [.ofIndex 0], .apply ⟨2⟩ [.ofIndex 1],
        .coerce (.ofIndex 0)]⟩,
      ⟨some ⟨2⟩, 1, some [.apply ⟨3⟩ [], .apply ⟨4⟩ []]⟩]
  funs := [⟨⟨3⟩, [⟨0⟩]⟩, ⟨⟨4⟩, [⟨1⟩]⟩, ⟨⟨5⟩, [⟨2⟩]⟩, ⟨⟨6⟩, [⟨0⟩]⟩, ⟨⟨7⟩, [⟨3⟩]⟩]
  sequences := [[], [.sub 0 0, .tokens [⟨9⟩]], [.sub 0 0, .sub 0 0], [.tokens [⟨10⟩]]]

theorem build_echoing : ∃ g, echoing.build = .ok g ∧ g.concretes = [echoed] :=
  exists_build (by decide +kernel)

/-- Only words are said twice. -/
theorem sparing_echoed : echoed.Sparing :=
  Concrete.sparing_of_plain_copies (by decide +kernel)

theorem goal_echoed : Chart.goal echoing.draft.2.symbols echoed "S" 0 =
    .ok ⟨⟨1⟩, [.ofIndex 0], ["s"]⟩ :=
  eq_ok_of_toOption (by decide +kernel)

theorem fields_echoed :
    ∀ id ∈ [InstanceId.ofIndex 0], ∃ n, echoed.fieldCount? id = some n ∧ 0 < n := by
  simp only [List.mem_singleton, forall_eq]
  exact ⟨1, rfl, Nat.one_pos⟩

namespace Chart

theorem feedAll_ends_echoed :
    ∃ g category, echoing.build = .ok g ∧ echoed ∈ g.concretes ∧ echoed.Sparing ∧
      Chart.goal echoing.draft.2.symbols echoed "S" 0 = .ok category ∧
      (∀ id ∈ category.instances, ∃ n, echoed.fieldCount? id = some n ∧ 0 < n) ∧
      ∃ limit chart₀ counters₀ chart? counters', ∀ limit' ≥ limit,
        parse limit' echoing.draft.2.symbols echoed "S" 0 {} = (.ok chart₀, counters₀) ∧
        chart₀.feedAll limit' echoing.draft.2.symbols ["b", "b", "a"] counters₀ =
          (.ok chart?, counters') := by
  obtain ⟨g, hbuild, hconcretes⟩ := build_echoing
  have hc : echoed ∈ g.concretes := hconcretes ▸ List.mem_cons_self
  exact ⟨g, _, hbuild, hc, sparing_echoed, goal_echoed, fields_echoed,
    feedAll_ends hbuild hc sparing_echoed goal_echoed fields_echoed ["b", "b", "a"] {}⟩

end Chart

/-! ## What has ended has a bound -/

/-- A part of a phrase for some fields of an instance, with the instance that it makes and the
fields that are read of it. -/
inductive Concrete.Asks (c : Concrete) :
    InstanceId → List Nat → Phrase → InstanceId → List Nat → Phrase → Prop where
  | here (id : InstanceId) (fields : List Nat) (t : Phrase) : Asks c id fields t id fields t
  | part {id id' id'' : InstanceId} {fields fields'' : List Nat} {p : Production}
      {parts : List Phrase} {part t'' : Phrase} {i : Nat} (hid : p.args[i]? = some id')
      (hpart : parts[i]? = some part) (h : Asks c id' (c.reads p fields i) part id'' fields'' t'') :
      Asks c id fields (.node p parts) id'' fields'' t''

/-- Whatever is read of a part of a phrase was read of a category, where the phrase unfolds from
one. -/
theorem Concrete.Asks.exists_chain {F : Fact → Prop} (hF : Sound c v ids goal F)
    {id id' : InstanceId} {fields fields' : List Nat} {t t' : Phrase}
    (h : c.Asks id fields t id' fields' t') {X : CatRef} {L : List Span} (hX : Unfolds F X t)
    (hchain : Chain F X id L) (hL : L.map Span.field = fields) :
    ∃ X' L', Chain F X' id' L' ∧ L'.map Span.field = fields' := by
  induction h generalizing X L with
  | here => exact ⟨X, L, hchain, hL⟩
  | part hid hpart _ ih =>
    cases hX with
    | node hproduces hstems hlength hparts =>
      obtain ⟨p, -, hmeans⟩ := hF.means hchain hproduces
      obtain rfl := hstems.unique hF.functional hmeans.stems
      obtain ⟨X', L', hX', hchain', hread⟩ := hmeans.args _ _ hid
      exact ih (hparts _ X' _ hX' hpart) hchain' (by rw [hread, hL])

namespace Chart

variable {chart : Chart}

/-- A chart has so many categories, and so there is a bound on how much was read of any of them. -/
theorem Built.exists_length_le (h : Built c v ids goal chart) :
    ∃ bound, ∀ X id L, Chain chart.facts X id L → L.length ≤ bound := by
  have hlist : ∀ l : List ChartCatId, ∃ bound, ∀ C ∈ l, ∀ id L,
      Chain chart.facts (.chart C) id L → L.length ≤ bound := by
    intro l
    induction l with
    | nil => exact ⟨0, nofun⟩
    | cons C l ih =>
      obtain ⟨bound, hbound⟩ := ih
      by_cases hC : ∃ id L, Chain chart.facts (.chart C) id L
      · obtain ⟨id, L, hchain⟩ := hC
        refine ⟨max bound L.length, fun C' hC' id' L' hchain' => ?_⟩
        rcases List.mem_cons.1 hC' with rfl | hC'
        · obtain ⟨rfl, rfl⟩ := hchain.unique h.sound.functional hchain'
          exact le_max_right ..
        · exact (hbound C' hC' id' L' hchain').trans (le_max_left ..)
      · refine ⟨bound, fun C' hC' id' L' hchain' => ?_⟩
        rcases List.mem_cons.1 hC' with rfl | hC'
        · exact absurd ⟨id', L', hchain'⟩ hC
        · exact hbound C' hC' id' L' hchain'
  obtain ⟨bound, hbound⟩ := hlist chart.categoryIds
  refine ⟨bound, fun X id L hchain => ?_⟩
  cases hchain with
  | grammar => exact Nat.zero_le bound
  | @chart C S _ f n _ L hdone hchain =>
    refine hbound C ?_ id _ (.chart hdone hchain)
    obtain ⟨k, s, hs, rfl, cat, hcat, -⟩ := hdone
    exact mem_categoryIds_of_category? (by rw [category?, hs]; exact hcat)

/-- **Where parsing has ended there is a bound on copies**: on how many fields the readings of the
input read of any of their parts, each field as often as it is read. -/
theorem Built.exists_asks_le (h : Built c v ids goal chart) :
    ∃ bound, ∀ t, c.Reading ids goal t (between v 0 chart.position) → ∃ id ∈ ids,
      ∀ id' fields t', c.Asks id [goal] t id' fields t' → fields.length ≤ bound := by
  obtain ⟨bound, hbound⟩ := h.exists_length_le
  refine ⟨bound, fun t ht => ?_⟩
  obtain ⟨C, hC, hunfolds⟩ := h.unfolds_iff.2 ht
  obtain ⟨-, id, hid, S, n, -, hcloses⟩ := h.completes_goal hC
  refine ⟨id, hid, fun id' fields t' hasks => ?_⟩
  obtain ⟨X, L, hchain, rfl⟩ :=
    hasks.exists_chain h.sound hunfolds (.chart hcloses (.grammar id)) rfl
  rw [List.length_map]
  exact hbound X id' L hchain

end Chart

/-! ## Copies without an end -/

/-- Sentences that may be empty, and a function that says a sentence twice. -/
def doubling : WrittenGrammar where
  name := "Doubling"
  declarations :=
    [.category "S" [], .function "stop" [] "S", .function "twice" ["S"] "S",
      .concrete "Doubled"
        [.category "S" 1 ["s"], .functionWith "stop" [[]],
          .functionWith "twice" [[.sub 0 0, .sub 0 0]],
          .apply (.ofIndex 0) ⟨0⟩ [], .apply (.ofIndex 0) ⟨1⟩ [.ofIndex 0]]]

/-- Its only concrete syntax. -/
def doubled : Concrete where
  name := ⟨4⟩
  cats := [⟨⟨1⟩, [.ofIndex 0], ["s"]⟩]
  instances := [⟨some ⟨1⟩, 1, some [.apply ⟨0⟩ [], .apply ⟨1⟩ [.ofIndex 0]]⟩]
  funs := [⟨⟨2⟩, [⟨0⟩]⟩, ⟨⟨3⟩, [⟨1⟩]⟩]
  sequences := [[], [.sub 0 0, .sub 0 0]]

theorem build_doubling : ∃ g, doubling.build = .ok g ∧ g.concretes = [doubled] :=
  exists_build (by decide +kernel)

theorem goal_doubled : Chart.goal doubling.draft.2.symbols doubled "S" 0 =
    .ok ⟨⟨1⟩, [.ofIndex 0], ["s"]⟩ :=
  eq_ok_of_toOption (by decide +kernel)

theorem fields_doubled :
    ∀ id ∈ [InstanceId.ofIndex 0], ∃ n, doubled.fieldCount? id = some n ∧ 0 < n := by
  simp only [List.mem_singleton, forall_eq]
  exact ⟨1, rfl, Nat.one_pos⟩

/-- Nothing, said twice so many times over. -/
def tower : Nat → Phrase
  | 0 => .node (.apply ⟨0⟩ []) []
  | n + 1 => .node (.apply ⟨1⟩ [.ofIndex 0]) [tower n]

/-- What is read of a sentence is read twice of the one in it. -/
theorem reads_doubled (m : Nat) :
    doubled.reads (.apply ⟨1⟩ [.ofIndex 0]) (List.replicate m 0) 0 = List.replicate (2 * m) 0 := by
  have hbody : doubled.body? (.apply ⟨1⟩ [.ofIndex 0]) 0 = some [.sub 0 0, .sub 0 0] := rfl
  induction m with
  | zero => rfl
  | succ m ih =>
    rw [List.replicate_succ, Concrete.reads_cons hbody, ih]
    rfl

theorem makes_tower (n m : Nat) :
    doubled.Makes (.ofIndex 0) (List.replicate (m + 1) 0) (tower n) := by
  induction n generalizing m with
  | zero =>
    exact .node (by decide) (by simp) rfl fun i id part hid => by simp [Production.args] at hid
  | succ n ih =>
    refine .node (by decide) (by simp) rfl fun i id part hid hpart => ?_
    cases i with
    | zero =>
      cases hid
      cases hpart
      rw [reads_doubled]
      exact ih (2 * m + 1)
    | succ i => simp [Production.args] at hid

theorem yields_tower (n : Nat) : (tower n).Yields doubled Variants.forms 0 [] := by
  induction n with
  | zero => exact ⟨_, _, [], rfl, rfl, .nil _⟩
  | succ n ih =>
    have hread : doubled.Spells Variants.forms [tower n] [.sub 0 0] [] := .read rfl ih
    exact ⟨_, _, [.sub 0 0, .sub 0 0], rfl, rfl, hread.append hread⟩

/-- Each sentence in a tower is read twice as often as the one around it. -/
theorem asks_tower (n m : Nat) : doubled.Asks (.ofIndex 0) (List.replicate m 0) (tower n)
    (.ofIndex 0) (List.replicate (2 ^ n * m) 0) (tower 0) := by
  induction n generalizing m with
  | zero =>
    rw [Nat.pow_zero, Nat.one_mul]
    exact .here ..
  | succ n ih =>
    refine .part (i := 0) rfl rfl ?_
    rw [reads_doubled, Nat.pow_succ, Nat.mul_assoc]
    exact ih (2 * m)

namespace Chart

/-- **Parsing does not always end.** The grammar is accepted and can be asked for its sentences, but
however many rounds are allowed the first agenda is not worked off. -/
theorem parse_doubled :
    ∃ g category, doubling.build = .ok g ∧ doubled ∈ g.concretes ∧
      Chart.goal doubling.draft.2.symbols doubled "S" 0 = .ok category ∧
      (∀ id ∈ category.instances, ∃ n, doubled.fieldCount? id = some n ∧ 0 < n) ∧
      ∀ limit counters, (parse limit doubling.draft.2.symbols doubled "S" 0 counters).1 =
        .error (.halt .exhausted) := by
  obtain ⟨g, hbuild, hconcretes⟩ := build_doubling
  have hc : doubled ∈ g.concretes := hconcretes ▸ List.mem_cons_self
  refine ⟨g, _, hbuild, hc, goal_doubled, fields_doubled, fun limit counters => ?_⟩
  have hwf := Concrete.wellFormed_of_build hbuild hc
  obtain ⟨hruns, hhistory⟩ := runs_predictTop hwf fields_doubled (fun _ => ⟨0⟩) counters
  rcases built_of_finish hwf hruns limit with hexhausted | ⟨last, -, hbuilt⟩
  · simp only [parse, goal_doubled]
    generalize Building.finish limit _ = result at hexhausted ⊢
    obtain ⟨r, counters'⟩ := result
    cases hexhausted
    rfl
  · -- All towers are readings of no words, and there is no bound on what they read.
    exfalso
    obtain ⟨bound, hbound⟩ := hbuilt.exists_asks_le
    have hreading : doubled.Reading [.ofIndex 0] 0 (tower bound) [] :=
      ⟨⟨_, List.mem_singleton_self _, makes_tower bound 0⟩, yields_tower bound⟩
    obtain ⟨id, hid, hle⟩ := hbound (tower bound) (by rw [position, hhistory]; exact hreading)
    obtain rfl := List.mem_singleton.1 hid
    have hlength := hle _ _ _ (asks_tower bound 1)
    rw [List.length_replicate, Nat.mul_one] at hlength
    exact absurd hlength (Nat.not_le_of_lt Nat.lt_two_pow_self)

end Chart

end Polyglot
