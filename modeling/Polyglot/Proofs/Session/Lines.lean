import Mathlib
import Polyglot.ParseState
import Polyglot.Proofs.Chart.Alike

/-!
# What a parse state sees

The states of a line share its vector of steps, and a vector that was begun only grows. So what a
state sees of its vector stays the same, whatever is appended for other states; and a state that is
fed gets what it would get if it had all its steps for itself.

- `Lines.Holds`: a state fits the vector that it reads.
- `Lines.Keeps`: vectors have only grown.
- `Lines.Keeps.chart`: then a state sees the same chart as before.
- `ParseState.feed_eq`: to feed a state is to feed the chart that it sees.
- `Lines.view_eq`: all that can be asked of a state depends on that chart alone.
-/

namespace Polyglot

namespace Lines

variable {l l' l'' : Lines} {s : ParseState}

/-- The vector of a state holds the steps that it sees, the last of which it knows by itself. -/
structure Holds (l : Lines) (s : ParseState) : Prop where
  pos : 0 < s.length
  last : (l.vector s.line)[s.length - 1]? = some s.last

/-- The steps of one collection of vectors are at the same places in another. -/
def Keeps (l l' : Lines) : Prop :=
  ∀ (line i : Nat) (step : Step), (l.vector line)[i]? = some step →
    (l'.vector line)[i]? = some step

theorem Keeps.refl (l : Lines) : l.Keeps l := fun _ _ _ h => h

theorem Keeps.trans (h : l.Keeps l') (h' : l'.Keeps l'') : l.Keeps l'' :=
  fun line i step hstep => h' line i step (h line i step hstep)

/-! ## What a state sees -/

theorem Holds.length_le (h : l.Holds s) : s.length ≤ (l.vector s.line).size := by
  have hpos := h.pos
  have := (Array.getElem?_eq_some_iff.1 h.last).1
  omega

theorem Holds.steps (h : l.Holds s) : l.steps s = (l.chart s).steps := by
  have hpos := h.pos
  obtain ⟨hlt, hlast⟩ := Array.getElem?_eq_some_iff.1 h.last
  have hsucc : s.length = s.length - 1 + 1 := by omega
  rw [Lines.steps, chart, Chart.steps]
  dsimp only
  rw [← hlast, Array.push_extract_getElem hlt, ← hsucc]
  simp

theorem Holds.position (h : l.Holds s) : (l.chart s).position = s.position := by
  have hle := h.length_le
  rw [Chart.position, chart, ParseState.position]
  simp only [Array.size_extract]
  omega

theorem Holds.step? (h : l.Holds s) (i : Nat) : s.step? l i = (l.chart s).steps[i]? := by
  have hle := h.length_le
  rw [← h.steps, Lines.steps, ParseState.step?, Array.getElem?_extract]
  by_cases hi : i < s.length
  · rw [if_neg (by omega), if_pos (by omega), Nat.zero_add]
  · rw [if_pos (by omega), if_neg (by omega)]

/-- What a state sees stays the same when vectors grow. -/
theorem Keeps.holds (h : l.Keeps l') (hs : l.Holds s) : l'.Holds s :=
  ⟨hs.pos, h _ _ _ hs.last⟩

theorem Keeps.chart (h : l.Keeps l') (hs : l.Holds s) : l'.chart s = l.chart s := by
  have hle := hs.length_le
  have hle' := (h.holds hs).length_le
  rw [Lines.chart, Lines.chart]
  congr 1
  refine Array.ext (by simp only [Array.size_extract]; omega) fun i hi hi' => ?_
  rw [Array.getElem_extract, Array.getElem_extract]
  have hlt : 0 + i < (l.vector s.line).size := by
    simp only [Array.size_extract] at hi'
    omega
  have := h s.line (0 + i) _ (Array.getElem?_eq_getElem hlt)
  exact (Array.getElem?_eq_some_iff.1 this).2

/-! ## New states -/

theorem vector_push (l : Lines) (steps : Array Step) (line : Nat) :
    vector ⟨l.vectors.push steps⟩ line =
      if line = l.vectors.size then steps else l.vector line := by
  rw [vector, Array.getElem?_push]
  split <;> rfl

theorem vector_modify (l : Lines) (own line : Nat) (step : Step) :
    vector ⟨l.vectors.modify own (·.push step)⟩ line =
      if own = line ∧ line < l.vectors.size then (l.vector line).push step else l.vector line := by
  rw [vector, vector, Array.getElem?_modify]
  by_cases hline : line < l.vectors.size
  · rw [Array.getElem?_eq_getElem hline]
    by_cases heq : own = line <;> simp [heq, hline]
  · rw [Array.getElem?_eq_none (by omega)]
    simp [hline]

variable (l s) (c : Concrete) (past : Array Step) (last : Step)

/-- A new vector leaves the others alone. -/
theorem keeps_begin : l.Keeps (l.begin c past last).2 := by
  intro line i step hstep
  rw [begin, vector_push, if_neg]
  · exact hstep
  · rintro rfl
    simp [vector] at hstep

theorem holds_begin : (l.begin c past last).2.Holds (l.begin c past last).1 :=
  ⟨Nat.succ_pos _, by simp [begin, vector_push]⟩

theorem chart_begin :
    (l.begin c past last).2.chart (l.begin c past last).1 = { concrete := c, past, last } := by
  simp [chart, begin, vector_push]

/-- One more step of a state leaves all other steps where they are. -/
theorem keeps_extend : l.Keeps (l.extend s last).2 := by
  rw [extend]
  split
  · intro line i step hstep
    rw [vector_modify]
    split
    · have hlt := (Array.getElem?_eq_some_iff.1 hstep).1
      rw [Array.getElem?_push_lt hlt, ← Array.getElem?_eq_getElem hlt]
      exact hstep
    · exact hstep
  · exact l.keeps_begin _ _ last

variable {l s}

theorem Holds.line_lt (h : l.Holds s) : s.line < l.vectors.size := by
  by_contra hge
  have hlast := h.last
  have hnone : l.vectors[s.line]? = none := Array.getElem?_eq_none (by omega)
  rw [vector, hnone] at hlast
  simp at hlast

theorem Holds.holds_extend (h : l.Holds s) : (l.extend s last).2.Holds (l.extend s last).1 := by
  rw [extend]
  split
  · rename_i hnewest
    refine ⟨Nat.succ_pos _, ?_⟩
    rw [vector_modify, if_pos ⟨rfl, h.line_lt⟩]
    simp [← hnewest]
  · exact holds_begin ..

/-- The new state sees the steps of the old one and the new step. -/
theorem Holds.chart_extend (h : l.Holds s) :
    (l.extend s last).2.chart (l.extend s last).1 =
      { concrete := s.concrete, past := (l.chart s).steps, last } := by
  rw [← h.steps, extend]
  split
  · rename_i hnewest
    have hline := h.line_lt
    rw [Lines.chart, Lines.steps, vector_modify, if_pos ⟨rfl, hline⟩]
    dsimp only
    congr 1
    rw [Nat.add_sub_cancel, ← hnewest, Array.extract_push_of_le]
    simp
  · exact chart_begin ..

end Lines

/-! ## To feed a state is to feed what it sees -/

namespace ParseState

variable (limit : Nat) (symbols : SymbolStore) {lines lines' : Lines} {s s' : ParseState}

/-- A parse begins with the state that sees the chart before any input. -/
theorem parse_eq (c : Concrete) (cat : String) (field : Nat) (lines : Lines) (counters : Counters) :
    parse limit symbols c cat field lines counters =
      ((Chart.parse limit symbols c cat field counters).1.map fun chart =>
        lines.begin c #[] chart.last, (Chart.parse limit symbols c cat field counters).2) := by
  unfold parse Chart.parse
  cases Chart.goal symbols c cat field with
  | error e => rfl
  | ok category =>
    dsimp only
    generalize Building.finish limit _ = result
    obtain ⟨r, counters⟩ := result
    cases r <;> rfl

/-- A token makes of a state what it makes of the chart that the state sees. -/
theorem feed_eq (h : lines.Holds s) (token : String) (counters : Counters) :
    s.feed limit symbols token lines counters =
      (((lines.chart s).feed limit symbols token counters).1.map fun chart? =>
        chart?.map fun chart => lines.extend s chart.last,
      ((lines.chart s).feed limit symbols token counters).2) := by
  unfold feed Chart.feed
  rw [show (lines.chart s).waitingItems? symbols token = s.waitingItems? symbols token from rfl,
    ← h.steps]
  cases s.waitingItems? symbols token with
  | none => rfl
  | some waiting =>
    dsimp only [Lines.chart]
    cases ((waiting.2.filterMap (s.last.items[·]?)).foldl Building.scan
      (Building.start s.concrete (lines.steps s) (some waiting.1) counters)).finish limit with
    | mk r counters => cases r <;> rfl

/-- A chart that a state is begun with. -/
theorem chart_eq_of_parse {c : Concrete} {cat : String} {field : Nat} {counters : Counters}
    {chart : Chart} (h : (Chart.parse limit symbols c cat field counters).1 = .ok chart) :
    chart = { concrete := c, past := #[], last := chart.last } := by
  unfold Chart.parse at h
  split at h
  · cases h
  · dsimp only at h
    split at h
    · cases h
      rfl
    · cases h

/-- A chart that comes of another one by a token. -/
theorem chart_eq_of_feed {chart chart' : Chart} {token : String} {counters : Counters}
    (h : (chart.feed limit symbols token counters).1 = .ok (some chart')) :
    chart' = { concrete := chart.concrete, past := chart.steps, last := chart'.last } := by
  unfold Chart.feed at h
  split at h
  · cases h
  · dsimp only at h
    split at h
    · cases h
      rfl
    · cases h

/-! ## All that can be asked of a state -/

/-- The answers of a state to all questions. -/
structure View where
  position : Nat
  tokens : List String
  completed : List ChartCatId
  complete : Bool
  categories : List ChartCategory
  category? : ChartCatId → Option ChartCategory
  productions? : ChartCatId → Option (List ChartProduction)
  expectedTokens : List String
  waiting : String → Nat
  /-- What an enumeration of its readings yields next, wherever that stands. -/
  reading : Readings → ExprStore → Counters →
    Except Choice.Fault (Option ExprId × Readings × ExprStore × Counters)

/-- What a state answers, reading the steps of its line. -/
def view (symbols : SymbolStore) (lines : Lines) (s : ParseState) : View where
  position := s.position
  tokens := s.tokens symbols lines
  completed := s.completed
  complete := s.isComplete
  categories := s.categories lines
  category? := s.category? lines
  productions? := s.productions? lines
  expectedTokens := s.expectedTokens symbols
  waiting := s.waiting symbols
  reading := Readings.next? (lines.chart s)

theorem category?_eq (h : lines.Holds s) (id : ChartCatId) :
    s.category? lines id = ((lines.chart s).category? id).map fun cat =>
      ⟨id, cat.id, cat.cat, cat.field, cat.productions.length⟩ := by
  rw [category?, h.step?, Chart.category?]
  cases (lines.chart s).steps[id.step]? with
  | none => rfl
  | some step => rw [Option.bind_some]; cases hcat : step.cats[id.idx]? <;> simp [hcat]

theorem productions?_eq (h : lines.Holds s) (id : ChartCatId) :
    s.productions? lines id = ((lines.chart s).category? id).map ChartCat.productions := by
  rw [productions?, h.step?, Chart.category?]
  cases (lines.chart s).steps[id.step]? with
  | none => rfl
  | some step => rw [Option.bind_some]; cases hcat : step.cats[id.idx]? <;> simp [hcat]

/-- What a state answers depends on the chart that it sees, and on nothing else. -/
theorem view_eq (h : lines.Holds s) (h' : lines'.Holds s')
    (hchart : lines'.chart s' = lines.chart s) :
    s'.view symbols lines' = s.view symbols lines := by
  have hlast : s'.last = s.last := congrArg Chart.last hchart
  have hposition : s'.position = s.position := by rw [← h.position, ← h'.position, hchart]
  have hsteps : lines'.steps s' = lines.steps s := by rw [h.steps, h'.steps, hchart]
  have hcategory : s'.category? lines' = s.category? lines := by
    funext id
    rw [category?_eq h, category?_eq h', hchart]
  have hproductions : s'.productions? lines' = s.productions? lines := by
    funext id
    rw [productions?_eq h, productions?_eq h', hchart]
  simp only [view, View.mk.injEq, tokens, completed, isComplete, categories, expectedTokens,
    hlast, hposition, hsteps, hcategory, hproductions, hchart, true_and]
  refine ⟨?_, trivial⟩
  funext token
  rw [waiting, waiting, waitingItems?, waitingItems?, hlast]

end ParseState

end Polyglot
