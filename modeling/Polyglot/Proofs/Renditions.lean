import Polyglot.Proofs.Chart.Interned
import Polyglot.Proofs.Generation.Interned
import Polyglot.Rendition

/-!
# Renditions depend on names only

A line is rendered in the same way, and for the same reasons it cannot be, whatever else was
interned: its language and category are looked up by their names, and so are its tokens one by one;
and all that is read off its chart is written with names of the grammar.

- `Grammar.Named.parse_eq`: the chart before any input.
- `Grammar.Named.renditions_eq`: the renditions of a line.
-/

namespace Polyglot

theorem Chart.exists_goal_of_parse {limit : Nat} {symbols : SymbolStore} {c : Concrete}
    {cat : String} {field : Nat} {counters : Counters} {chart : Chart}
    (h : (parse limit symbols c cat field counters).1 = .ok chart) :
    ∃ category, goal symbols c cat field = .ok category := by
  cases hgoal : goal symbols c cat field with
  | error e => simp [parse, hgoal] at h
  | ok category => exact ⟨category, rfl⟩

namespace Rendition

theorem eq_ok_of_ofSearch {α : Type} {r : Except Choice.Fault α} {a : α}
    (h : ofSearch r = .ok a) : r = .ok a := by
  cases r with
  | error f => cases h
  | ok b =>
    cases h
    rfl

/-- The chart of a line is well kept. -/
theorem upkept_of_feedAll {a : Abstract} {c : Concrete} (hfits : c.Fits a) {limit : Nat}
    {symbols : SymbolStore} {ids : List InstanceId} {goal : Nat} {chart chart' : Chart}
    (hchart : chart.Upkept c ids goal) {position : Nat} {counters counters' : Counters}
    {tokens : List String}
    (h : feedAll limit symbols position chart counters tokens = .ok (chart', counters')) :
    chart'.Upkept c ids goal := by
  induction tokens generalizing chart position counters with
  | nil =>
    cases h
    exact hchart
  | cons token tokens ih =>
    rw [feedAll] at h
    split at h
    · cases h
    · cases h
    · rename_i next counters₁ hfeed
      exact ih (hchart.feed hfits (congrArg Prod.fst hfeed)) h

end Rendition

namespace Grammar.Named

variable {g : Grammar} {base s : SymbolStore} {c : Concrete} (hg : g.Named base)
  (hfits : ∀ c ∈ g.concretes, c.Fits g.abs) (hs : base.Extends s) (limit : Nat)

section Parse

include hg hs

theorem parse_eq (hc : c ∈ g.concretes) (cat : String) (field : Nat) (counters : Counters) :
    Chart.parse limit s c cat field counters = Chart.parse limit base c cat field counters := by
  rw [Chart.parse, Chart.parse, hg.goal hs hc]

/-- The texts of an expression in a language of the grammar. -/
theorem texts_eq (hc : c ∈ g.concretes) (e : Expr) (field count : Nat) (counters : Counters) :
    Rendition.texts (.ofConcrete g c) s e field count counters =
      Rendition.texts (.ofConcrete g c) base e field count counters := by
  refine bind_congr_ok fun ⟨ds, counters'⟩ hr => mapM_congr_mem fun d hd => ?_
  have htake := Rendition.eq_ok_of_ofSearch hr
  rw [hg.tokens_eq hs (l := .ofConcrete g c) hc (Concretizations.expresses_of_take htake d hd)]

/-- The rendition of a reading, from a store whose names are all names of the grammar. -/
theorem ofReading_eq (hc : c ∈ g.concretes) {exprs : ExprStore} (h : exprs.Mirrors s base exprs)
    (options : RenditionOptions) (counters : Counters) (id : ExprId) :
    Rendition.ofReading (.ofConcrete g c) s exprs options counters id =
      Rendition.ofReading (.ofConcrete g c) base exprs options counters id := by
  rw [Rendition.ofReading, Rendition.ofReading, h.text_eq id]
  cases exprs.expr? id with
  | none => rfl
  | some e => simp only [hg.texts_eq hs hc]

end Parse

include hg hfits hs

/-- The chart of a line, or the token that it comes to an end at. -/
theorem feedAll_eq {chart : Chart} {ids : List InstanceId} {goal : Nat} (hc : c ∈ g.concretes)
    (h : chart.Upkept c ids goal) (position : Nat) (counters : Counters) (tokens : List String) :
    Rendition.feedAll limit s position chart counters tokens =
      Rendition.feedAll limit base position chart counters tokens := by
  induction tokens generalizing chart position counters with
  | nil => rfl
  | cons token tokens ih =>
    rw [Rendition.feedAll, Rendition.feedAll, h.feed_eq (hg.words c hc) hs]
    cases hfeed : chart.feed limit base token counters with
    | mk r counters' =>
      rcases r with f | _ | next
      · rfl
      · rfl
      · exact ih (h.feed (hfits c hc) (congrArg Prod.fst hfeed)) (position + 1) counters'

/-- **A line has the same renditions**, or the same error, whatever else was interned. -/
theorem renditions_eq (source target line : String) (options : RenditionOptions) :
    g.renditions limit s source target line options =
      g.renditions limit base source target line options := by
  rw [renditions, renditions, hg.resolveConcrete? hs source, hg.resolveConcrete? hs target]
  cases options.category.or g.startCategory? with
  | none => rfl
  | some category =>
    cases hsource : g.resolveConcrete? base source with
    | none => rfl
    | some c =>
      cases htarget : g.resolveConcrete? base target with
      | none => rfl
      | some c' =>
        have hc := mem_of_resolveConcrete? hsource
        have hc' := mem_of_resolveConcrete? htarget
        dsimp only
        rw [hg.parse_eq hs limit hc]
        cases hparse : Chart.parse limit base c category options.fromField {} with
        | mk r counters =>
          rcases r with (e | h) | chart
          · rfl
          · rfl
          · obtain ⟨category', hgoal⟩ := Chart.exists_goal_of_parse (congrArg Prod.fst hparse)
            have hupkept := Chart.upkept_of_parse (hfits c hc) hgoal (congrArg Prod.fst hparse)
            dsimp only
            rw [hg.feedAll_eq hfits hs limit hc hupkept]
            refine bind_congr_ok fun ⟨chart', counters'⟩ hfeed => ?_
            have hupkept' := Rendition.upkept_of_feedAll (hfits c hc) hupkept hfeed
            refine bind_congr_ok fun ⟨ids, exprs, counters''⟩ hread => mapM_congr_mem fun id _ => ?_
            have hfuns : ∀ f ∈ chart'.concrete.funs, base.Knows f.name := by
              rw [hupkept'.concrete]
              exact hg.funs c hc
            have hexprs := Readings.mirrors_take hs (.refl base) hfuns
              (Rendition.eq_ok_of_ofSearch hread)
            exact hg.ofReading_eq hs hc' hexprs options counters'' id

end Grammar.Named

end Polyglot
