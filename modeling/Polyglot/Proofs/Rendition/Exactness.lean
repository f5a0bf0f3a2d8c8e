import Polyglot.Proofs.Rendition.InTurn

/-!
# Renditions report and cap exactly

Of a line that is not accepted, the first token with which its beginning has no chart is reported.
Otherwise the trees of its chart stand in an order of which every caller gets a beginning, whatever
is stored and counted meanwhile. The renditions are those of the first trees, and each has the texts
of the first derivations of its tree. So whoever asks for less gets a beginning of what there is,
and whoever takes the readings one by one gets the same.

- `Rendition.feedAll_eq_unexpectedToken_iff`: the token that is reported, and its position.
- `Grammar.renditions_eq_ofTree`, `Grammar.renditionsInTurn_eq_ofTree`: a line has the renditions of
  its first trees.
- `Rendition.Renders`: what the rendition of a tree is to be.
- `Grammar.rendersExactly`: all of this, for a grammar that was built.
-/

namespace Polyglot

/-! ## Feeding a line -/

namespace Rendition

variable {limit : Nat} {symbols : SymbolStore}

/-- A line has a chart if none of its tokens is refused. -/
theorem feedAll_eq_ok_iff {chart chart' : Chart} {counters counters' : Counters} {position : Nat}
    {tokens : List String} :
    feedAll limit symbols position chart counters tokens = .ok (chart', counters') ↔
      chart.feedAll limit symbols tokens counters = (.ok (some chart'), counters') := by
  induction tokens generalizing position chart counters with
  | nil =>
    rw [feedAll, Chart.feedAll]
    constructor
    · intro h
      cases h
      rfl
    · intro h
      cases h
      rfl
  | cons token tokens ih =>
    rw [feedAll, Chart.feedAll]
    rcases chart.feed limit symbols token counters with ⟨halt | _ | next, counters₁⟩
    · constructor
      · intro h
        cases h
      · intro h
        cases h
    · constructor
      · intro h
        cases h
      · intro h
        cases h
    · exact ih

/-- The first token that is refused is reported, at its position. -/
theorem feedAll_eq_unexpectedToken_iff {chart : Chart} {counters : Counters} {first : Nat}
    {tokens : List String} {token : String} {position : Nat} :
    feedAll limit symbols first chart counters tokens =
        .error (.error (.unexpectedToken token position)) ↔
      ∃ i, position = first + i ∧ tokens[i]? = some token ∧
        (chart.feedAll limit symbols (tokens.take (i + 1)) counters).1 = .ok none ∧
        ∀ j < i, (chart.feedAll limit symbols (tokens.take (j + 1)) counters).1 ≠ .ok none := by
  -- The first token alone decides whether the least position is its own.
  induction tokens generalizing first chart counters with
  | nil =>
    constructor
    · intro h
      cases h
    · rintro ⟨i, -, htoken, -⟩
      cases htoken
  | cons next tokens ih =>
    rw [feedAll]
    rcases hfeed : chart.feed limit symbols next counters with ⟨halt | _ | chart₁, counters₁⟩
    · have hall : ∀ i, (chart.feedAll limit symbols ((next :: tokens).take (i + 1)) counters).1 =
          .error halt := by
        intro i
        rw [List.take_succ_cons, Chart.feedAll, hfeed]
      constructor
      · intro h
        cases h
      · rintro ⟨i, -, -, hnone, -⟩
        cases (hall i).symm.trans hnone
    · have hall : ∀ i, (chart.feedAll limit symbols ((next :: tokens).take (i + 1)) counters).1 =
          .ok none := by
        intro i
        rw [List.take_succ_cons, Chart.feedAll, hfeed]
      constructor
      · intro h
        cases h
        exact ⟨0, rfl, rfl, hall 0, fun j hj => absurd hj (Nat.not_lt_zero j)⟩
      · rintro ⟨i, rfl, htoken, -, hleast⟩
        cases i with
        | zero =>
          cases htoken
          rfl
        | succ i => exact absurd (hall 0) (hleast 0 (Nat.succ_pos i))
    · have hzero : (chart.feedAll limit symbols ((next :: tokens).take 1) counters).1 ≠
          .ok none := by
        rw [List.take_succ_cons, List.take_zero, Chart.feedAll, hfeed]
        intro h
        cases h
      have hsucc : ∀ i, (chart.feedAll limit symbols ((next :: tokens).take (i + 1)) counters).1 =
          (chart₁.feedAll limit symbols (tokens.take i) counters₁).1 := by
        intro i
        rw [List.take_succ_cons, Chart.feedAll, hfeed]
      dsimp only
      rw [ih]
      constructor
      · rintro ⟨i, rfl, htoken, hnone, hleast⟩
        refine ⟨i + 1, by omega, htoken, (hsucc (i + 1)).trans hnone, fun j hj => ?_⟩
        cases j with
        | zero => exact hzero
        | succ j =>
          rw [hsucc]
          exact hleast j (Nat.lt_of_succ_lt_succ hj)
      · rintro ⟨i, rfl, htoken, hnone, hleast⟩
        cases i with
        | zero => exact absurd hnone hzero
        | succ i =>
          refine ⟨i, by omega, htoken, (hsucc (i + 1)).symm.trans hnone, fun j hj => ?_⟩
          rw [← hsucc]
          exact hleast (j + 1) (Nat.succ_lt_succ hj)

end Rendition

/-! ## Texts of trees -/

theorem Expr.Known.exists_text {symbols : SymbolStore} {e : Expr} (h : e.Known symbols) :
    ∃ text, e.text symbols = .ok text := by
  obtain ⟨source, hsource, -⟩ := h.exists_source?
  rw [Expr.text, Expr.write_of_source? hsource]
  exact ⟨_, rfl⟩

/-- The trees of a chart can be written: their functions have names. -/
theorem Readings.exists_text_of_mem_found {base symbols : SymbolStore}
    (hs : base.Extends symbols) {chart : Chart}
    (hfuns : ∀ f ∈ chart.concrete.funs, base.Knows f.name) {e : Expr} (he : e ∈ found chart) :
    ∃ text, e.text symbols = .ok text := by
  obtain ⟨a, ha, hae⟩ := List.mem_filterMap.1 (List.mem_eraseDups.1 he)
  have hknown := Chart.known_of_readings hfuns a (Decision.mem_values_of_cut ha)
  cases a with
  | error parts => cases hae
  | ok e' =>
    cases hae
    have hbase : e.Known base := hknown e List.mem_cons_self
    exact Expr.Known.exists_text (hbase.mono hs hs)

/-! ## The rendition of a tree -/

namespace Rendition

/-- A rendition with so many outputs at most. -/
def truncate (count : Nat) (r : Rendition) : Rendition :=
  { r with outputs := r.outputs.take count }

/-- What the rendition of a tree is to be. -/
structure Renders (l : Linearizer) (symbols : SymbolStore) (options : RenditionOptions) (e : Expr)
    (r : Rendition) : Prop where
  tree : e.text symbols = .ok r.tree
  /-- Whoever takes derivations gets the first of a list, and the outputs are the texts of the first
  ones. -/
  outputs : ∃ ds : List Derivation,
    (∀ count counters, ∃ counters',
      Concretizations.take l e count counters = .ok (ds.take count, counters')) ∧
    List.Forall₂ (fun d text => ∃ tokens, l.tokens symbols d options.toField = .ok tokens ∧
      text = unwords tokens) (ds.take options.maxConcretizations) r.outputs

variable {l : Linearizer} {symbols : SymbolStore} {options : RenditionOptions} {e : Expr}
  {r : Rendition}

theorem ofDerivation_eq_ok_iff {field : Nat} {d : Derivation} {text : String} :
    ofDerivation l symbols field d = .ok text ↔
      ∃ tokens, l.tokens symbols d field = .ok tokens ∧ text = unwords tokens := by
  unfold ofDerivation ofLinearizer
  cases l.tokens symbols d field with
  | error f =>
    constructor
    · intro h
      cases h
    · rintro ⟨tokens, htokens, -⟩
      cases htokens
  | ok tokens =>
    constructor
    · intro h
      cases h
      exact ⟨tokens, rfl, rfl⟩
    · rintro ⟨_, ⟨⟩, rfl⟩
      rfl

/-- A tree can only be rendered in vain because of one of its derivations. -/
theorem ofTree_eq_error {f : Stop} (h : ofTree l symbols options e = .error f) :
    ∃ error, f = .error (.linearize error) := by
  unfold ofTree at h
  cases houtputs : ((Concretizations.found l e).take options.maxConcretizations).mapM
      (ofDerivation l symbols options.toField) with
  | ok outputs =>
    rw [houtputs] at h
    cases h
  | error f' =>
    rw [houtputs] at h
    cases h
    obtain ⟨d, -, hd⟩ := exists_of_mapM_eq_error houtputs
    unfold ofDerivation ofLinearizer at hd
    cases htokens : l.tokens symbols d options.toField with
    | ok tokens =>
      rw [htokens] at hd
      cases hd
    | error error =>
      rw [htokens] at hd
      cases hd
      exact ⟨error, rfl⟩

theorem ofTree_eq_ok_iff : ofTree l symbols options e = .ok r ↔
    r.tree = (e.text symbols).toOption.getD "" ∧
      List.Forall₂ (fun d text => ofDerivation l symbols options.toField d = .ok text)
        ((Concretizations.found l e).take options.maxConcretizations) r.outputs := by
  rw [ofTree, bind_eq_ok, ← mapM_eq_ok_iff]
  constructor
  · rintro ⟨outputs, houtputs, heq⟩
    cases heq
    exact ⟨rfl, houtputs⟩
  · rintro ⟨htree, houtputs⟩
    refine ⟨r.outputs, houtputs, ?_⟩
    rw [← htree]
    rfl

theorem renders_of_ofTree {text : String} (htext : e.text symbols = .ok text)
    (h : ofTree l symbols options e = .ok r) : Renders l symbols options e r := by
  obtain ⟨htree, houtputs⟩ := ofTree_eq_ok_iff.1 h
  refine ⟨?_, Concretizations.found l e, Concretizations.exists_take_found l e,
    houtputs.imp fun d text => ofDerivation_eq_ok_iff.1⟩
  rw [htree, htext]
  rfl

/-- With fewer derivations the outputs are the first ones. -/
theorem ofTree_truncate {maxTrees maxConcretizations : Nat}
    (hle : options.maxConcretizations ≤ maxConcretizations)
    (h : ofTree l symbols { options with maxTrees, maxConcretizations } e = .ok r) :
    ofTree l symbols options e = .ok (r.truncate options.maxConcretizations) := by
  obtain ⟨htree, houtputs⟩ := ofTree_eq_ok_iff.1 h
  refine ofTree_eq_ok_iff.2 ⟨htree, ?_⟩
  have htake := List.forall₂_take options.maxConcretizations houtputs
  rwa [List.take_take, Nat.min_eq_left hle] at htake

end Rendition

/-! ## The renditions of a line -/

namespace Grammar

open Rendition (Stop ofTree)

section Renditions

variable {g : Grammar} {base symbols : SymbolStore} {c c' : Concrete} {limit : Nat}
  {source target category : String} {options : RenditionOptions} {chart₀ : Chart}
  {counters₀ : Counters}
  (hg : g.Named base) (hfits : ∀ c ∈ g.concretes, c.Fits g.abs) (hs : base.Extends symbols)
  (hcategory : options.category.or g.startCategory? = some category)
  (hsource : g.resolveConcrete? symbols source = some c)
  (htarget : g.resolveConcrete? symbols target = some c')
  (hparse : Chart.parse limit symbols c category options.fromField {} = (.ok chart₀, counters₀))
include hg hfits hs hcategory hsource htarget hparse

omit hcategory htarget in
/-- All trees of the chart of a line can be written. -/
theorem exists_text_of_feedAll {line : List String} {chart : Chart} {counters : Counters}
    (hfeed : Rendition.feedAll limit symbols 0 chart₀ counters₀ line = .ok (chart, counters)) :
    ∀ e ∈ Readings.found chart, ∃ text, e.text symbols = .ok text := by
  have hc := mem_of_resolveConcrete? hsource
  obtain ⟨category', hgoal⟩ := Chart.exists_goal_of_parse (congrArg Prod.fst hparse)
  have hupkept := Chart.upkept_of_parse (hfits c hc) hgoal (congrArg Prod.fst hparse)
  have hupkept' := Rendition.upkept_of_feedAll (hfits c hc) hupkept hfeed
  refine fun e he => Readings.exists_text_of_mem_found hs ?_ he
  rw [hupkept'.concrete]
  exact hg.funs c hc

variable (options) in
/-- The renditions of a line are those of the first trees of its chart. -/
theorem renditions_eq_ofTree (line : String) :
    g.renditions limit symbols source target line options =
      Rendition.feedAll limit symbols 0 chart₀ counters₀ (Text.words line) >>= fun p =>
        ((Readings.found p.1).take options.maxTrees).mapM
          (ofTree (.ofConcrete g c') symbols options) := by
  rw [renditions, hcategory, hsource, htarget]
  dsimp only
  rw [hparse]
  refine bind_congr_ok fun p hfeed => ?_
  obtain ⟨chart, counters⟩ := p
  have htext := exists_text_of_feedAll hg hfits hs hsource hparse hfeed
  obtain ⟨ids, exprs, counters', htake, hids⟩ :=
    Readings.exists_take_found chart options.maxTrees {} counters
  have hordered := Readings.ordered_take ExprStore.ordered_empty htake
  rw [htake]
  refine mapM_congr_forall₂ (forall₂_of_getElem? hids.length_eq fun i id e hid he => ?_)
  obtain ⟨text, htext⟩ := htext e (List.mem_of_mem_take (List.mem_of_getElem? he))
  exact Rendition.ofReading_eq_ofTree ((rel_of_forall₂ hids hid he).expr? hordered) htext counters'

/-- So they are in turn. -/
theorem renditionsInTurn_eq_ofTree (line : String) :
    g.renditionsInTurn limit symbols source target line options =
      Rendition.feedAll limit symbols 0 chart₀ counters₀ (Text.words line) >>= fun p =>
        ((Readings.found p.1).take options.maxTrees).mapM
          (ofTree (.ofConcrete g c') symbols options) := by
  rw [renditionsInTurn, hcategory, hsource, htarget]
  dsimp only
  rw [hparse]
  refine bind_congr_ok fun p hfeed => ?_
  obtain ⟨chart, counters⟩ := p
  have htext := exists_text_of_feedAll hg hfits hs hsource hparse hfeed
  exact Rendition.readingsInTurn_eq_mapM (Readings.owes_start chart {}) ExprStore.ordered_empty
    htext options.maxTrees counters

/-- A token is reported of a line if it is when the line is fed, and not because of a tree. -/
theorem renditions_eq_unexpectedToken_iff (line token : String) (position : Nat) :
    g.renditions limit symbols source target line options =
        .error (.error (.unexpectedToken token position)) ↔
      Rendition.feedAll limit symbols 0 chart₀ counters₀ (Text.words line) =
        .error (.error (.unexpectedToken token position)) := by
  rw [renditions_eq_ofTree options hg hfits hs hcategory hsource htarget hparse line]
  cases hfeed : Rendition.feedAll limit symbols 0 chart₀ counters₀ (Text.words line) with
  | error f =>
    constructor
    · intro h
      cases h
      rfl
    · intro h
      cases h
      rfl
  | ok p =>
    refine iff_of_false (fun h => ?_) (fun h => by cases h)
    obtain ⟨e, -, he⟩ := exists_of_mapM_eq_error h
    obtain ⟨error, herror⟩ := Rendition.ofTree_eq_error he
    cases herror

end Renditions

end Grammar

/-! ## Exactly what is asked for -/

namespace Grammar

/-- What is known of the renditions of a line whose chart is `chart₀` before the first token. -/
structure RendersExactly (g : Grammar) (limit : Nat) (symbols : SymbolStore)
    (source target line : String) (options : RenditionOptions) (l : Linearizer) (chart₀ : Chart)
    (counters₀ : Counters) : Prop where
  /-- It does not matter when the readings are taken. -/
  inTurn : g.renditionsInTurn limit symbols source target line options =
    g.renditions limit symbols source target line options
  /-- A token is reported exactly if it is the first one that is refused. -/
  refused : ∀ token position, g.renditions limit symbols source target line options =
      .error (.error (.unexpectedToken token position)) ↔
    (Text.words line)[position]? = some token ∧
    (chart₀.feedAll limit symbols ((Text.words line).take (position + 1)) counters₀).1 = .ok none ∧
    ∀ i < position,
      (chart₀.feedAll limit symbols ((Text.words line).take (i + 1)) counters₀).1 ≠ .ok none
  /-- Whoever takes readings of the chart of the line gets the first of a list of different trees,
  and the renditions are those of the first ones. -/
  rendered : ∀ rs, g.renditions limit symbols source target line options = .ok rs →
    ∃ (chart : Chart) (counters : Counters) (trees : List Expr),
      chart₀.feedAll limit symbols (Text.words line) counters₀ = (.ok (some chart), counters) ∧
      trees.Nodup ∧
      (∀ count exprs counters, ∃ ids exprs' counters',
        Readings.take chart count exprs counters = .ok (ids, exprs', counters') ∧
        List.Forall₂ exprs'.Denotes ids (trees.take count)) ∧
      List.Forall₂ (Rendition.Renders l symbols options) (trees.take options.maxTrees) rs
  /-- Whoever asks for less gets the first of the same. -/
  truncated : ∀ maxTrees maxConcretizations rs, options.maxTrees ≤ maxTrees →
    options.maxConcretizations ≤ maxConcretizations →
    g.renditions limit symbols source target line { options with maxTrees, maxConcretizations } =
      .ok rs →
    g.renditions limit symbols source target line options =
      .ok ((rs.take options.maxTrees).map (Rendition.truncate options.maxConcretizations))

/-- **Renditions report and cap exactly**, for all languages of a grammar that was built and all
lines. -/
theorem rendersExactly {w : WrittenGrammar} {g : Grammar} (hbuild : w.build = .ok g)
    {symbols : SymbolStore} (hs : w.draft.2.symbols.Extends symbols) {limit : Nat}
    {source target category : String} {options : RenditionOptions}
    (hcategory : options.category.or g.startCategory? = some category) {c c' : Concrete}
    (hsource : g.resolveConcrete? symbols source = some c)
    (htarget : g.resolveConcrete? symbols target = some c') {chart₀ : Chart} {counters₀ : Counters}
    (hparse : Chart.parse limit symbols c category options.fromField {} = (.ok chart₀, counters₀))
    (line : String) :
    g.RendersExactly limit symbols source target line options (.ofConcrete g c') chart₀
      counters₀ := by
  have hg := named_of_build hbuild
  have hfits := fun c hc => Concrete.fits_of_build (c := c) hbuild hc
  have heq := renditions_eq_ofTree options hg hfits hs hcategory hsource htarget hparse line
  constructor
  case inTurn =>
    rw [heq]
    exact renditionsInTurn_eq_ofTree hg hfits hs hcategory hsource htarget hparse line
  case refused =>
    intro token position
    rw [renditions_eq_unexpectedToken_iff hg hfits hs hcategory hsource htarget hparse,
      Rendition.feedAll_eq_unexpectedToken_iff]
    simp only [Nat.zero_add, exists_eq_left']
  case rendered =>
    intro rs hrs
    rw [heq] at hrs
    obtain ⟨⟨chart, counters⟩, hfeed, hmap⟩ := bind_eq_ok.1 hrs
    have htext := exists_text_of_feedAll hg hfits hs hsource hparse hfeed
    refine ⟨chart, counters, Readings.found chart, Rendition.feedAll_eq_ok_iff.1 hfeed,
      Readings.nodup_found chart, Readings.exists_take_found chart, ?_⟩
    have hrenditions := mapM_eq_ok_iff.1 hmap
    refine forall₂_of_getElem? hrenditions.length_eq fun i e r he hr => ?_
    obtain ⟨text, htext⟩ := htext e (List.mem_of_mem_take (List.mem_of_getElem? he))
    exact Rendition.renders_of_ofTree htext (rel_of_forall₂ hrenditions he hr)
  case truncated =>
    intro maxTrees maxConcretizations rs htrees hconcretizations hrs
    rw [renditions_eq_ofTree { options with maxTrees, maxConcretizations } hg hfits hs hcategory
      hsource htarget hparse line] at hrs
    -- The bounds play no part in feeding, so both have the same chart.
    obtain ⟨⟨chart, counters⟩, hfeed, hmap⟩ := bind_eq_ok.1 hrs
    rw [heq, hfeed]
    refine mapM_eq_ok_iff.2 ?_
    have hfirst := List.forall₂_take options.maxTrees (mapM_eq_ok_iff.1 hmap)
    rw [List.take_take, Nat.min_eq_left htrees] at hfirst
    rw [List.forall₂_map_right_iff]
    exact hfirst.imp fun e r => Rendition.ofTree_truncate hconcretizations

theorem rendersExactly_giveItUp :
    ∃ g chart₀ counters₀, particleVerbs.build = .ok g ∧
      particleVerbs.draft.2.symbols.Extends particleSymbols ∧
      (some "Action").or g.startCategory? = some "Action" ∧
      g.resolveConcrete? particleSymbols "English" = some english ∧
      Chart.parse 9 particleSymbols english "Action" 0 {} = (.ok chart₀, counters₀) ∧
      g.RendersExactly 9 particleSymbols "English" "English" "give it up"
        { category := some "Action" } (.ofConcrete g english) chart₀ counters₀ := by
  obtain ⟨g, hbuild, hconcretes⟩ := build_particleVerbs
  have hrun : (Chart.ofTokens? 9 particleSymbols english "Action" 0 ["give", "it", "up"]).isSome :=
    by decide +kernel
  obtain ⟨chart, hchart⟩ := Option.isSome_iff_exists.1 hrun
  obtain ⟨chart₀, counters₀, hparse, -⟩ := Chart.exists_of_ofTokens? hchart
  have hlanguage : particleVerbs.build.toOption.bind
      (·.resolveConcrete? particleSymbols "English") = some english := by decide +kernel
  rw [hbuild] at hlanguage
  exact ⟨g, chart₀, counters₀, hbuild, .refl _, rfl, hlanguage, hparse,
    rendersExactly hbuild (.refl _) rfl hlanguage hlanguage hparse "give it up"⟩

end Grammar

end Polyglot
