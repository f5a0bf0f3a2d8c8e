import Polyglot.Proofs.Chart.Agreement

/-!
# What comes of some tokens

Two concrete syntaxes that make the same setting of a goal and an input are fed the same tokens. As
long as the agendas of the one are worked off there is only so much at each position, and so those
of the other are worked off as well, in maybe another number of rounds. The charts that come out
agree, and so the next token is refused by both of them or by none.

- `Chart.outcome`: what comes of some tokens with a number of rounds for each step.
- `Chart.Ends`: some number of rounds is enough.
- `Chart.Ends.exists_outcomes`: what comes of them for the one syntax agrees with what comes of them
  for the other.
-/

namespace Polyglot.Chart

variable {c c' : Concrete} {v : Nat → Sym} {ids ids' : List InstanceId} {goal limit : Nat}
  {symbols : SymbolStore} {chart chart' : Chart} {tokens : List String}

/-- What comes of some tokens of a field of a category: a chart, or none if one of the tokens is
refused. Each step may take `limit` rounds. -/
def outcome (limit : Nat) (symbols : SymbolStore) (c : Concrete) (cat : String) (field : Nat)
    (tokens : List String) (counters : Counters) : Except Refusal (Option Chart) :=
  match parse limit symbols c cat field counters with
  | (.error e, _) => .error e
  | (.ok chart, counters) => (chart.feedAll limit symbols tokens counters).1.mapError .halt

/-- All agendas are worked off, if each step may take enough rounds. -/
def Ends (symbols : SymbolStore) (c : Concrete) (cat : String) (field : Nat)
    (tokens : List String) : Prop :=
  ∃ limit counters, outcome limit symbols c cat field tokens counters ≠ .error (.halt .exhausted)

theorem mapError_eq_exhausted_iff {r : Except Building.Halt (Option Chart)} :
    r.mapError Refusal.halt = .error (.halt .exhausted) ↔ r = .error .exhausted := by
  cases r <;> simp [Except.mapError]

/-! ## Fewer tokens -/

/-- Where several tokens end, so do the first of them. -/
theorem feedAll_ne_exhausted {read rest : List String} {counters : Counters}
    (h : (chart.feedAll limit symbols (read ++ rest) counters).1 ≠ .error .exhausted) :
    (chart.feedAll limit symbols read counters).1 ≠ .error .exhausted := by
  induction read generalizing chart counters with
  | nil => simp [feedAll]
  | cons token read ih =>
    rw [List.cons_append, feedAll] at h
    rw [feedAll]
    split at h
    · exact ih h
    · simp
    · exact h

theorem Ends.of_prefix {cat : String} {field : Nat} {read : List String} (hread : read <+: tokens)
    (h : Ends symbols c cat field tokens) : Ends symbols c cat field read := by
  obtain ⟨rest, rfl⟩ := hread
  obtain ⟨limit, counters, h⟩ := h
  refine ⟨limit, counters, ?_⟩
  unfold outcome at h ⊢
  split at h
  · exact h
  · rw [Ne, mapError_eq_exhausted_iff] at h ⊢
    exact feedAll_ne_exhausted h

/-! ## Two charts -/

theorem waiting_eq_zero_iff {token : String} :
    chart.waiting symbols token = 0 ↔ chart.waitingItems? symbols token = none := by
  rw [waiting, waitingItems?]
  cases symbols.find? token with
  | none => simp
  | some sym =>
    rw [Option.bind_some]
    cases chart.last.waitingFor sym <;> simp

theorem exists_feedAll_cons (tokens : List String) {token : String} {counters : Counters}
    {next : Chart} (h : (chart.feed limit symbols token counters).1 = .ok (some next)) :
    ∃ counters', chart.feedAll limit symbols (token :: tokens) counters =
      next.feedAll limit symbols tokens counters' := by
  rw [feedAll]
  cases hfeed : chart.feed limit symbols token counters with
  | mk r counters' =>
    rw [hfeed] at h
    obtain rfl : r = .ok (some next) := h
    exact ⟨counters', rfl⟩

/-- **Tokens are fed to two charts of one setting.** If the first ends, then with enough rounds both
do, and what comes of them agrees. -/
theorem Faithful.exists_feedAll (hwf : c.WellFormed) (hwf' : c'.WellFormed)
    (hfun : c'.function? = c.function?) (hsetting : c'.setting v ids' goal = c.setting v ids goal)
    (htokens : ∀ (i : Nat) (token : String) (w : Sym), tokens[i]? = some token →
      symbols.find? token = some w → w = v (chart.position + i))
    (h : chart.Faithful c v ids goal) (h' : chart'.Faithful c' v ids' goal)
    (hposition : chart'.position = chart.position) {counters : Counters}
    (hends : (chart.feedAll limit symbols tokens counters).1 ≠ .error .exhausted) :
    ∃ limit r r', (∀ limit' ≥ limit, ∀ counters,
        (chart.feedAll limit' symbols tokens counters).1 = .ok r ∧
          (chart'.feedAll limit' symbols tokens counters).1 = .ok r') ∧
      Option.Rel (Agrees symbols) r r' := by
  induction tokens generalizing chart chart' counters with
  | nil =>
    exact ⟨0, some chart, some chart', fun _ _ _ => ⟨rfl, rfl⟩,
      .some (h.agrees h' hsetting hposition hfun)⟩
  | cons token tokens ih =>
    have hagrees : Agrees symbols chart chart' := h.agrees h' hsetting hposition hfun
    by_cases hwaiting : chart.waitingItems? symbols token = none
    · -- The first chart refuses the token, and so does the other one.
      have hwaiting' : chart'.waitingItems? symbols token = none := by
        rwa [← waiting_eq_zero_iff, hagrees.waiting, waiting_eq_zero_iff]
      refine ⟨0, none, none, fun limit' _ counters => ⟨?_, ?_⟩, .none⟩
      · rw [feedAll, Chart.feed, hwaiting]
      · rw [feedAll, Chart.feed, hwaiting']
    · have hwaiting' : chart'.waitingItems? symbols token ≠ none := by
        rwa [Ne, ← waiting_eq_zero_iff, hagrees.waiting, waiting_eq_zero_iff]
      obtain ⟨w, hw⟩ := find?_of_waiting hwaiting
      have htoken : symbols.find? token = some (v chart.position) := by
        rw [hw, htokens 0 token w rfl hw, Nat.add_zero]
      rcases h.built.feed hwf limit counters htoken hwaiting with hexhausted | ⟨next, hfeed, -⟩
      · rw [feedAll] at hends
        generalize chart.feed limit symbols token counters = result at hexhausted hends
        obtain ⟨r, counters₁⟩ := result
        cases hexhausted
        exact absurd rfl hends
      · obtain ⟨hfaithful, hsucc⟩ := h.feed hwf htoken hfeed
        obtain ⟨counters₁, hrest⟩ := exists_feedAll_cons tokens hfeed
        rw [hrest] at hends
        -- What the next chart has is all there is, and so there is only so much.
        have hbounded : (c'.setting v ids' goal).Bounded (chart'.position + 1) := by
          rw [hsetting, hposition, ← hsucc]
          exact hfaithful.settled.bounded next.getElem?_position (Nat.le_refl _)
        obtain ⟨limit₁, next', hfeed'⟩ := h'.exists_feed_of_bounded hwf' hbounded
          (hposition ▸ htoken) hwaiting' counters
        obtain ⟨hfaithful', hsucc'⟩ := h'.feed hwf' (hposition ▸ htoken) hfeed'
        obtain ⟨limit₂, r, r', hrest, hrel⟩ := ih (fun i token' w hi hw => by
          rw [hsucc, Nat.add_assoc, Nat.add_comm 1 i]
          exact htokens (i + 1) token' w hi hw) hfaithful hfaithful'
          (by rw [hsucc', hsucc, hposition]) hends
        refine ⟨max (max limit limit₁) limit₂, r, r', fun limit' hle counters' => ?_, hrel⟩
        have hmany : limit ≤ limit' ∧ limit₁ ≤ limit' ∧ limit₂ ≤ limit' := by omega
        obtain ⟨k, hk⟩ := exists_feedAll_cons tokens (feed_mono hmany.1 hfeed counters')
        obtain ⟨k', hk'⟩ := exists_feedAll_cons tokens (feed_mono hmany.2.1 hfeed' counters')
        rw [hk, hk']
        exact ⟨(hrest limit' hmany.2.2 k).1, (hrest limit' hmany.2.2 k').2⟩

/-! ## Two syntaxes -/

/-- With a chart before any input, what comes of some tokens comes of feeding them to it. -/
theorem outcome_of_parse (tokens : List String) {cat : String} {field : Nat} {counters : Counters}
    (h : (parse limit symbols c cat field counters).1 = .ok chart) :
    ∃ counters', outcome limit symbols c cat field tokens counters =
      (chart.feedAll limit symbols tokens counters').1.mapError .halt := by
  unfold outcome
  generalize parse limit symbols c cat field counters = result at h
  obtain ⟨r, counters'⟩ := result
  cases h
  exact ⟨counters', rfl⟩

section Syntaxes

variable {cat : String} {field : Nat} {category category' : ConcreteCategory}
  (hgoal : Chart.goal symbols c cat field = .ok category)
  (hfields : ∀ id ∈ category.instances, ∃ n, c.fieldCount? id = some n ∧ field < n)

include hgoal hfields

/-- A field of instances that have it can be parsed unless the agenda is not worked off. -/
theorem exists_parse_of_ne_exhausted (hwf : c.WellFormed) {counters : Counters}
    (h : (parse limit symbols c cat field counters).1 ≠ .error (.halt .exhausted)) :
    ∃ chart, (parse limit symbols c cat field counters).1 = .ok chart := by
  obtain ⟨hruns, -⟩ := runs_predictTop hwf hfields (fun _ => ⟨0⟩) counters
  rcases built_of_finish hwf hruns limit with hexhausted | ⟨last, hfinish, -⟩
  · refine absurd ?_ h
    simp only [parse, hgoal]
    generalize Building.finish limit _ = result at hexhausted
    obtain ⟨r, counters'⟩ := result
    cases hexhausted
    rfl
  · exact ⟨_, (parse_eq_ok_iff hgoal).2 ⟨last, hfinish, rfl⟩⟩

/-- **What comes of some tokens depends on the setting alone.** If all agendas of one syntax are
worked off, then with enough rounds those of another one are too, and what comes of the tokens
agrees. -/
theorem Ends.exists_outcomes (hwf : c.WellFormed) (hwf' : c'.WellFormed)
    (hgoal' : Chart.goal symbols c' cat field = .ok category')
    (hfields' : ∀ id ∈ category'.instances, ∃ n, c'.fieldCount? id = some n ∧ field < n)
    (hfun : c'.function? = c.function?)
    (hsetting : ∀ v, c'.setting v category'.instances field = c.setting v category.instances field)
    (h : Ends symbols c cat field tokens) :
    ∃ limit r r', (∀ limit' ≥ limit, ∀ counters,
        outcome limit' symbols c cat field tokens counters = .ok r ∧
          outcome limit' symbols c' cat field tokens counters = .ok r') ∧
      Option.Rel (Agrees symbols) r r' := by
  obtain ⟨limit, counters, hends⟩ := h
  -- What else the input has does not matter.
  let v := symbols.inputOf tokens
  have hparse : ∃ chart, (parse limit symbols c cat field counters).1 = .ok chart := by
    refine exists_parse_of_ne_exhausted hgoal hfields hwf fun hexhausted => hends ?_
    unfold outcome
    generalize parse limit symbols c cat field counters = result at hexhausted
    obtain ⟨r, counters'⟩ := result
    cases hexhausted
    rfl
  obtain ⟨chart, hparse⟩ := hparse
  obtain ⟨counters₁, houtcome⟩ := outcome_of_parse tokens hparse
  rw [houtcome, Ne, mapError_eq_exhausted_iff] at hends
  obtain ⟨hfaithful, hzero⟩ := faithful_of_parse hwf hgoal hfields hparse v
  have hbounded : (c'.setting v category'.instances field).Bounded 0 := by
    rw [hsetting]
    exact hfaithful.settled.bounded (hzero ▸ chart.getElem?_position) (Nat.zero_le _)
  obtain ⟨limit', chart', hparse'⟩ :=
    exists_parse_of_bounded hwf' hgoal' hfields' hbounded counters
  obtain ⟨hfaithful', hzero'⟩ := faithful_of_parse hwf' hgoal' hfields' hparse' v
  obtain ⟨limit'', r, r', hfeed, hrel⟩ := hfaithful.exists_feedAll hwf hwf' hfun (hsetting v)
    (fun i token w hi hw => by
      rw [hzero, Nat.zero_add]
      exact SymbolStore.eq_inputOf hi hw)
    hfaithful' (hzero'.trans hzero.symm) hends
  refine ⟨max (max limit limit') limit'', r, r', fun limit₀ hle counters' => ?_, hrel⟩
  have hmany : limit ≤ limit₀ ∧ limit' ≤ limit₀ ∧ limit'' ≤ limit₀ := by omega
  obtain ⟨k, hk⟩ := outcome_of_parse tokens (parse_mono hmany.1 hgoal hparse counters')
  obtain ⟨k', hk'⟩ := outcome_of_parse tokens (parse_mono hmany.2.1 hgoal' hparse' counters')
  rw [hk, hk', (hfeed limit₀ hmany.2.2 k).1, (hfeed limit₀ hmany.2.2 k').2]
  exact ⟨rfl, rfl⟩

end Syntaxes

end Polyglot.Chart
