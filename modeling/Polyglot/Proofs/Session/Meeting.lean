import Polyglot.Proofs.Chart.Debts
import Polyglot.Proofs.Session.Shape

/-!
# What is predicted and what is complete meet once

When a step is built to its end, every item that waits for a category of the step has gone on with
it, once, whether it began to wait before the category was complete or after. And whatever field of
a category of the chart is predicted in the step, it was started once with each production that the
category has in the end, whether the production was there before the prediction or not.

- `Building.Begun`: how a step begins after any input.
- `Journaled.Met`: what the journal says when nothing was missed.
- `Building.Begun.meets_once`: that is what it says at the end.
-/

namespace Polyglot

/-- A step in the making at which nothing has been done: the first one, for a field of a category,
or the one after some tokens were read. -/
inductive Building.Begun (limit : Nat) (symbols : SymbolStore) (c : Concrete) (cat : String)
    (field : Nat) : Building → Prop where
  | first {category : ConcreteCategory} (hgoal : Chart.goal symbols c cat field = .ok category)
      (counters : Counters) :
      Begun limit symbols c cat field
        ((Building.start c #[] none counters).predictTop category.instances field)
  | next {tokens : List String} {chart : Chart}
      (hchart : Chart.ofTokens? limit symbols c cat field tokens = some chart) (sym : Sym)
      (counters : Counters) : Begun limit symbols c cat field (chart.begun sym counters)

namespace Journaled

/-- Of all that waits for a category of the step, and of all that is predicted in it of a category
of the chart, nothing was missed, and nothing was put on the agenda twice. -/
structure Met (j : Journaled) : Prop where
  /-- What waits for a category of the step went on with it. -/
  combined : ∀ (idx : Nat) (cat : ChartCat), j.building.step.cats[idx]? = some cat →
    ∃ set, j.building.itemSet? cat.set = some set ∧ ∀ r ∈ set.waiting, ∃ w arg,
      j.building.item? r = some w ∧
      j.building.concrete.need w = .ok (.category arg cat.field) ∧
      j.posted (.combined r ⟨j.building.index, idx⟩) =
        [{ w with production :=
          w.production.bind arg (.chart ⟨j.building.index, idx⟩) }.advanced]
  /-- What is predicted of a category of the chart was started with all its productions, and for
  nothing but this. -/
  started : ∀ (s : Nat) (set : ItemSet) (C : ChartCatId),
    j.building.step.itemSets[s]? = some set → set.cat = .chart C →
    ∃ cat, j.building.category? C = some cat ∧ ∀ q ∈ cat.productions,
      j.posted (.started ⟨j.building.index, s⟩ q) =
        [{ set := ⟨j.building.index, s⟩, production := q, field := set.field }] ∧
      (j.posts.map Prod.snd).count
        { set := ⟨j.building.index, s⟩, production := q, field := set.field } = 1
  /-- Nothing else went on. -/
  onlyCombined : ∀ r C, j.posted (.combined r C) ≠ [] → C.step = j.building.index ∧
    ∃ cat set, j.building.step.cats[C.idx]? = some cat ∧
      j.building.itemSet? cat.set = some set ∧ r ∈ set.waiting
  /-- Nothing else was started. -/
  onlyStarted : ∀ S q, j.posted (.started S q) ≠ [] → S.step = j.building.index ∧
    ∃ set C cat, j.building.step.itemSets[S.idx]? = some set ∧ set.cat = .chart C ∧
      j.building.category? C = some cat ∧ q ∈ cat.productions

variable {a : Abstract} {c : Concrete} {ids : List InstanceId} {goal : Nat} {j : Journaled}

/-- What is begun for a prediction is put on the agenda for nothing else. -/
theorem Exact.cause_of_start (hb : j.building.Accountable c ids goal) (h : Exact [] j)
    {S : ItemSetRef} {C : ChartCatId} {field : Nat} {top : Bool}
    (hset : j.building.facts (.predicts S (.chart C) field top)) {q : ChartProduction} {g : Nat}
    {entry : Cause × Item} (hentry : entry ∈ j.posts)
    (hstart : entry.2 = { set := S, production := q, field := g }) : entry.1 = .started S q := by
  obtain ⟨cause, i⟩ := entry
  dsimp only at hstart
  subst hstart
  have hright := h.right _ hentry
  cases cause with
  | combined r C' =>
    -- What goes on is past its first constituent.
    obtain ⟨w, arg, f, -, -, hi⟩ := hright
    cases congrArg Item.dot hi
  | started S' q' =>
    obtain ⟨X, f, top', -, hi⟩ := hright
    cases hi
    rfl
  | offered S' =>
    obtain ⟨hS, id, f, top', hset'⟩ := hright
    change S = S' at hS
    subst hS
    cases (hb.facts.functional.predicts _ _ _ _ _ _ _ hset hset').1
  | passed i => exact absurd hright (Nat.lt_irrefl 0)

/-- So it is put there as often as for the prediction. -/
theorem Exact.count_start (hb : j.building.Accountable c ids goal) (h : Exact [] j)
    {S : ItemSetRef} {C : ChartCatId} {field : Nat} {top : Bool}
    (hset : j.building.facts (.predicts S (.chart C) field top)) (q : ChartProduction) :
    (j.posts.map Prod.snd).count { set := S, production := q, field } =
      (j.posted (.started S q)).length := by
  rw [posted, List.length_map, List.count, List.countP_map, List.countP_eq_length_filter]
  congr 1
  refine List.filter_congr fun entry hentry => ?_
  rw [Bool.eq_iff_iff]
  simp only [Function.comp_apply, beq_iff_eq, decide_eq_true_eq]
  refine ⟨h.cause_of_start hb hset hentry, fun hcause => ?_⟩
  have hright := h.right entry hentry
  rw [hcause] at hright
  obtain ⟨X, f, top', hset', hi⟩ := hright
  obtain ⟨-, rfl, -⟩ := hb.facts.functional.predicts _ _ _ _ _ _ _ hset hset'
  exact hi

/-- A step without debts has met all that was due. -/
theorem Exact.met (hb : j.building.Accountable c ids goal) (h : Exact [] j) : Met j where
  combined idx cat hcat := by
    have hdone : j.building.facts (.closes ⟨j.building.index, idx⟩ cat.set cat.cat cat.field
        cat.fieldCount) :=
      Building.closes_iff.2 ⟨cat, by rw [Building.category?_here, hcat], rfl, rfl, rfl, rfl⟩
    obtain ⟨⟨top, hset⟩, -⟩ := hb.facts.rests _ hdone
    obtain ⟨set, hset', -, hfield, -⟩ := Building.predicts_iff.1 hset
    refine ⟨set, hset', fun r hr => ?_⟩
    have hwaits : j.building.facts (.waits cat.set r) := Building.waits_iff.2 ⟨set, hset', hr⟩
    have hdue : j.building.Due (.combined r ⟨j.building.index, idx⟩) :=
      ⟨rfl, _, _, _, _, hdone, hwaits⟩
    obtain ⟨i, hposted, w, arg, f, hw, hx, rfl⟩ := h.exists_posted hdue
    refine ⟨w, arg, Building.item?_eq_some_iff.2 hw, ?_, hposted⟩
    obtain ⟨X, f', top', w', arg', hset'', hw', hx', -⟩ := hb.facts.rests _ hwaits
    obtain rfl := hb.facts.functional.item _ _ _ hw hw'
    obtain ⟨-, rfl, -⟩ := hb.facts.functional.predicts _ _ _ _ _ _ _ hset hset''
    rw [hb.concrete] at hx ⊢
    cases hx.symm.trans hx'
    exact Concrete.need_of_constituent? hx
  started s set C hs hC := by
    have hset : j.building.facts (.predicts ⟨j.building.index, s⟩ (.chart C) set.field set.top) :=
      Building.predicts_iff.2 ⟨set, by rw [Building.itemSet?_here, hs], hC, rfl, rfl⟩
    obtain ⟨⟨n, S, X, f, hdone⟩, -⟩ := hb.facts.rests _ hset
    obtain ⟨cat, hcat, -⟩ := Building.closes_iff.1 hdone
    refine ⟨cat, hcat, fun q hq => ?_⟩
    have hdue : j.building.Due (.started ⟨j.building.index, s⟩ q) :=
      ⟨rfl, C, _, _, hset, Building.produces_iff.2 ⟨cat, hcat, hq⟩⟩
    obtain ⟨i, hposted, X', f', top', hset', rfl⟩ := h.exists_posted hdue
    obtain ⟨-, rfl, -⟩ := hb.facts.functional.predicts _ _ _ _ _ _ _ hset hset'
    refine ⟨hposted, ?_⟩
    rw [h.count_start hb hset]
    exact congrArg List.length hposted
  onlyCombined r C hposted := by
    obtain ⟨hC, S, X, f, n, hdone, hwaits⟩ := h.due_of_posted rfl hposted
    obtain ⟨cat, hcat, rfl, -⟩ := Building.closes_iff.1 hdone
    obtain ⟨set, hset, hr⟩ := Building.waits_iff.1 hwaits
    obtain ⟨k, idx⟩ := C
    obtain rfl : k = j.building.index := hC
    rw [Building.category?_here] at hcat
    exact ⟨rfl, cat, set, hcat, hset, hr⟩
  onlyStarted S q hposted := by
    obtain ⟨hS, C, f, top, hset, hproduces⟩ := h.due_of_posted rfl hposted
    obtain ⟨set, hset, hC, -⟩ := Building.predicts_iff.1 hset
    obtain ⟨cat, hcat, hq⟩ := Building.produces_iff.1 hproduces
    obtain ⟨k, s⟩ := S
    obtain rfl : k = j.building.index := hS
    rw [Building.itemSet?_here] at hset
    exact ⟨rfl, set, C, cat, hset, hC, hcat, hq⟩

end Journaled

namespace Building

variable {a : Abstract} {c : Concrete} {limit : Nat} {symbols : SymbolStore} {cat : String}
  {field : Nat} {b b' : Building}

/-- A step without categories makes nothing due if it predicts nothing, or if it is the first. -/
theorem not_due_of_empty (hcats : b.step.cats = #[])
    (hempty : b.history = #[] ∨ b.step.itemSets = #[]) (cause : Cause) : ¬ b.Due cause := by
  intro hdue
  cases cause with
  | combined r C =>
    obtain ⟨hC, S, X, f, n, hdone, -⟩ := hdue
    obtain ⟨k, idx⟩ := C
    obtain rfl : k = b.index := hC
    obtain ⟨cat, hcat, -⟩ := closes_iff.1 hdone
    simp [category?_here, hcats] at hcat
  | started S q =>
    obtain ⟨hS, C, f, top, hset, hproduces⟩ := hdue
    rcases hempty with hhistory | hsets
    · obtain ⟨cat, hcat, -⟩ := produces_iff.1 hproduces
      obtain ⟨s, hs, hcat⟩ := category?_iff.1 hcat
      rw [hhistory] at hs
      have hs : s ∈ (#[].push b.step : Array Step) := Array.mem_of_getElem? hs
      obtain rfl : s = b.step := by simpa using hs
      simp [hcats] at hcat
    · obtain ⟨k, s⟩ := S
      obtain rfl : k = b.index := hS
      obtain ⟨set, hset, -⟩ := predicts_iff.1 hset
      simp [itemSet?_here, hsets] at hset
  | offered S => exact hdue
  | passed i => exact hdue

/-- A step that begins is well kept, after steps that are, and nothing is due in it. -/
theorem Begun.upkept (hfits : c.Fits a) (h : Begun limit symbols c cat field b) :
    ∃ ids firstId, b.Upkept c ids field firstId ∧ UpkeptSteps b.history ∧
      ∀ cause, ¬ b.Due cause := by
  cases h with
  | first hgoal counters =>
    rename_i category
    obtain ⟨hupkept, hhistory, -⟩ :=
      Chart.upkept_predictTop hfits category.instances field counters
    refine ⟨_, _, hupkept, by rw [hhistory]; exact upkeptSteps_empty, ?_⟩
    exact not_due_of_empty (calm_predictTop ..).cats (.inl hhistory)
  | next hchart sym counters =>
    obtain ⟨category, hgoal⟩ := Chart.exists_goal_of_ofTokens? hchart
    have hchart := Chart.upkept_of_ofTokens? hfits hgoal hchart
    obtain ⟨hupkept, hhistory, -⟩ := hchart.upkept_begun sym counters
    have hstep := (hchart.begun sym counters).2.step
    refine ⟨_, _, hupkept, by rw [hhistory]; exact hchart.steps, ?_⟩
    exact not_due_of_empty (by rw [hstep]; rfl) (.inr (by rw [hstep]; rfl))

/-- **What is predicted and what is complete meet exactly once.** However a step of a grammar that
is accepted came to begin, and however long it takes: when its agenda has been worked off, all that
was put on it is in a journal that had no part in the work, and the journal has every item that
waits for a category of the step going on with it once, and every production of a category of the
chart started once for each field that is predicted of it. -/
theorem Begun.meets_once {w : WrittenGrammar} {g : Grammar} (hbuild : w.build = .ok g)
    (hc : c ∈ g.concretes) (hbegun : Begun limit symbols c cat field b) {rounds : Nat}
    (hrun : b.run rounds = some b') :
    ∃ j, Journaled.run rounds { building := b } = some j ∧ j.building = b' ∧
      j.Balanced b.agenda ∧ j.Met := by
  have hfits := Concrete.fits_of_build hbuild hc
  obtain ⟨ids, firstId, hupkept, hhistory, hdue⟩ := hbegun.upkept hfits
  obtain ⟨j, hj, hbuilding⟩ : ∃ j, Journaled.run rounds { building := b } = some j ∧
      j.building = b' := by
    rw [← Option.map_eq_some_iff, Journaled.building_run]
    exact hrun
  obtain ⟨haccountable, hexact⟩ := Journaled.exact_run hfits hupkept hhistory hdue hj
  exact ⟨j, hj, hbuilding, Journaled.balanced_run hj, hexact.met haccountable⟩

theorem Begun.meets_once_giveItUp :
    ∃ g chart sym b b', particleVerbs.build = .ok g ∧ english ∈ g.concretes ∧
      Chart.ofTokens? 9 particleSymbols english "Action" 0 ["give", "it"] = some chart ∧
      particleSymbols.find? "up" = some sym ∧ chart.begun sym {} = b ∧
      Begun 9 particleSymbols english "Action" 0 b ∧ b.run 9 = some b' ∧
      b'.step.cats.size = 3 ∧
      ∃ j, Journaled.run 9 { building := b } = some j ∧ j.building = b' ∧
        j.Balanced b.agenda ∧ j.Met := by
  obtain ⟨g, hbuild, hconcretes⟩ := build_particleVerbs
  have hc : english ∈ g.concretes := hconcretes ▸ List.mem_cons_self
  have hsize : ((Chart.ofTokens? 9 particleSymbols english "Action" 0 ["give", "it"]).bind
      fun chart => (particleSymbols.find? "up").bind fun sym =>
        ((chart.begun sym {}).run 9).map (·.step.cats.size)) = some 3 := by
    decide +kernel
  obtain ⟨chart, hchart, hsize⟩ := Option.bind_eq_some_iff.1 hsize
  obtain ⟨sym, hsym, hsize⟩ := Option.bind_eq_some_iff.1 hsize
  obtain ⟨b', hrun, hsize⟩ := Option.map_eq_some_iff.1 hsize
  have hbegun := Begun.next hchart sym {}
  exact ⟨g, chart, sym, _, b', hbuild, hc, hchart, hsym, rfl, hbegun, hrun, hsize,
    Begun.meets_once hbuild hc hbegun hrun⟩

/-- After the second word comes the other field of the verb that the first word completed, and so of
the verb that this one takes over from. Each is started with the only production that there is. -/
example : ((Chart.ofTokens? 9 particleSymbols english "Action" 0 ["give"]).bind fun chart =>
      (particleSymbols.find? "it").bind fun sym =>
        (Journaled.run 9 { building := chart.begun sym {} }).map fun j => j.posts.map Prod.fst) =
    some [.started ⟨2, 0⟩ (.coerce (.chart ⟨1, 0⟩)), .started ⟨2, 1⟩ (.apply ⟨0⟩ [])] := by
  decide +kernel

end Building

end Polyglot
