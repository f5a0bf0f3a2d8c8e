import Polyglot.Proofs.Chart.Outcome
import Polyglot.Proofs.Grammar.Lookups

/-!
# The order of productions does not matter

A step takes its work from the end of an agenda, so the order in which productions and instances are
listed decides what is predicted before something is complete and what only after it, which
productions come late to a category, and in which order the categories of a step come about. None of
this shows from outside: the setting of a goal and an input has no order, and charts of one setting
agree.

- `Grammar.Rearranged`: productions and instances of categories are listed in another order.
- `Concrete.Rearranged.setting`: what parsing depends on stays the same.
- `Chart.outcome_rearranged`: so what comes of some tokens agrees.
-/

namespace Polyglot

/-! ## Grammars in another order -/

/-- An instance with its productions in another order. -/
structure Instance.Rearranged (i i' : Instance) : Prop where
  cat : i'.cat = i.cat
  fieldCount : i'.fieldCount = i.fieldCount
  productions : Option.Rel List.Perm i.productions i'.productions

/-- A category of a concrete syntax with its instances in another order. -/
structure ConcreteCategory.Rearranged (k k' : ConcreteCategory) : Prop where
  name : k'.name = k.name
  labels : k'.labels = k.labels
  instances : k.instances.Perm k'.instances

/-- A concrete syntax with everything in its place, but for the order of the productions of an
instance and of the instances of a category. -/
structure Concrete.Rearranged (c c' : Concrete) : Prop where
  name : c'.name = c.name
  flags : c'.flags = c.flags
  funs : c'.funs = c.funs
  sequences : c'.sequences = c.sequences
  cats : List.Forall₂ ConcreteCategory.Rearranged c.cats c'.cats
  instances : List.Forall₂ Instance.Rearranged c.instances c'.instances

/-- A grammar with all its concrete syntaxes rearranged in this way. -/
structure Grammar.Rearranged (g g' : Grammar) : Prop where
  abs : g'.abs = g.abs
  concretes : List.Forall₂ Concrete.Rearranged g.concretes g'.concretes

/-! ## Looking things up -/

namespace Concrete.Rearranged

variable {c c' : Concrete} (h : c.Rearranged c')
include h

theorem instance? (id : InstanceId) :
    Option.Rel Instance.Rearranged (c.instance? id) (c'.instance? id) := by
  unfold Concrete.instance?
  cases id.index? with
  | none => exact .none
  | some i => exact rel_getElem?_of_forall₂ h.instances i

theorem productionsOf (id : InstanceId) : (c.productionsOf id).Perm (c'.productionsOf id) := by
  have hinst := h.instance? id
  unfold Concrete.productionsOf productions?
  generalize c.instance? id = i?, c'.instance? id = i'? at hinst ⊢
  cases hinst with
  | none => exact .nil
  | @some i i' hinst =>
    have hproductions := hinst.productions
    rw [Option.bind_some, Option.bind_some]
    generalize i.productions = p?, i'.productions = p'? at hproductions ⊢
    cases hproductions with
    | none => exact .nil
    | some hperm => exact hperm

theorem fieldCount? : c'.fieldCount? = c.fieldCount? := by
  funext id
  have hinst := h.instance? id
  unfold Concrete.fieldCount?
  generalize c.instance? id = i?, c'.instance? id = i'? at hinst ⊢
  split
  · rfl
  · cases hinst with
    | none => rfl
    | some hinst => rw [Option.map_some, Option.map_some, hinst.fieldCount]

theorem function? : c'.function? = c.function? := by
  funext fn
  rw [Concrete.function?, Concrete.function?, h.funs]

theorem bodyOf? : c'.bodyOf? = c.bodyOf? := by
  funext head field
  cases head with
  | none => rfl
  | some fn =>
    simp only [Concrete.bodyOf?, sequenceOf?, sequence?, h.function?, h.sequences]

theorem wellFormed (hwf : c.WellFormed) : c'.WellFormed := by
  unfold WellFormed body? at hwf ⊢
  rw [h.fieldCount?, h.bodyOf?]
  exact fun id p hp => hwf id p ((h.productionsOf id).mem_iff.2 hp)

/-- What parsing depends on stays the same. -/
theorem setting {ids ids' : List InstanceId} (hids : ids.Perm ids') (v : Nat → Sym) (goal : Nat) :
    c'.setting v ids' goal = c.setting v ids goal := by
  have hproductions : ∀ id, (c'.productionsOf id : Multiset Production) = c.productionsOf id :=
    fun id => Multiset.coe_eq_coe.2 (h.productionsOf id).symm
  have hgoals : {id | id ∈ ids'} = {id | id ∈ ids} := Set.ext fun id => hids.mem_iff.symm
  simp only [Concrete.setting, hproductions, h.bodyOf?, hgoals]

/-- What can be asked for stays the same. -/
theorem goal {symbols : SymbolStore} {cat : String} {field : Nat} {category : ConcreteCategory}
    (hgoal : Chart.goal symbols c cat field = .ok category) :
    ∃ category', Chart.goal symbols c' cat field = .ok category' ∧
      category.Rearranged category' := by
  have hcategory : Option.Rel ConcreteCategory.Rearranged
      ((symbols.find? cat).bind c.category?) ((symbols.find? cat).bind c'.category?) := by
    cases symbols.find? cat with
    | none => exact .none
    | some sym => exact rel_find?_of_forall₂ h.cats fun k k' hk => by rw [hk.name]
  unfold Chart.goal at hgoal ⊢
  generalize (symbols.find? cat).bind c.category? = k?,
    (symbols.find? cat).bind c'.category? = k'? at hcategory hgoal ⊢
  cases hcategory with
  | none => cases hgoal
  | @some k k' hk =>
    have hcount : k'.fieldCount = k.fieldCount := congrArg List.length hk.labels
    dsimp only at hgoal ⊢
    rw [hcount]
    split at hgoal
    · cases hgoal
      exact ⟨k', if_pos ‹_›, hk⟩
    · cases hgoal

end Concrete.Rearranged

/-- A language means the same concrete syntax, rearranged. -/
theorem Grammar.Rearranged.resolveConcrete? {g g' : Grammar} (h : g.Rearranged g')
    (symbols : SymbolStore) (language : String) : Option.Rel Concrete.Rearranged
      (g.resolveConcrete? symbols language) (g'.resolveConcrete? symbols language) := by
  have hname : Option.Rel Concrete.Rearranged (g.concrete? symbols language)
      (g'.concrete? symbols language) := by
    unfold Grammar.concrete?
    cases symbols.find? language with
    | none => exact .none
    | some sym => exact rel_find?_of_forall₂ h.concretes fun c c' hc => by rw [hc.name]
  have hlanguage : Option.Rel Concrete.Rearranged (g.concreteByLanguage? language)
      (g'.concreteByLanguage? language) :=
    rel_find?_of_forall₂ h.concretes fun c c' hc => by
      rw [Concrete.language?, Concrete.language?, hc.flags]
  unfold Grammar.resolveConcrete?
  generalize g.concrete? symbols language = c?, g'.concrete? symbols language = c'? at hname ⊢
  cases hname with
  | none => exact hlanguage
  | some hc => exact .some hc

/-! ## What comes of some tokens -/

namespace Chart

/-- **The order of productions does not matter.** For every grammar that is accepted and any other
order of the productions of its instances and of the instances of its categories, every language,
every field of a category that can be parsed and that all instances of the category have, and all
tokens: the agendas of both grammars are worked off or those of none. If they are, then of each
beginning of the tokens the same comes of both: it is refused, or there are charts that agree. -/
theorem outcome_rearranged {w : WrittenGrammar} {g g' : Grammar} (hbuild : w.build = .ok g)
    (hg : g.Rearranged g') {symbols : SymbolStore} {language : String} {c : Concrete}
    (hc : g.resolveConcrete? symbols language = some c) {cat : String} {field : Nat}
    {category : ConcreteCategory} (hgoal : Chart.goal symbols c cat field = .ok category)
    (hfields : ∀ id ∈ category.instances, ∃ n, c.fieldCount? id = some n ∧ field < n)
    (tokens : List String) :
    ∃ c', g'.resolveConcrete? symbols language = some c' ∧
      (Ends symbols c cat field tokens ↔ Ends symbols c' cat field tokens) ∧
      (Ends symbols c cat field tokens → ∀ read, read <+: tokens →
        ∃ limit r r', (∀ limit' ≥ limit, ∀ counters,
            outcome limit' symbols c cat field read counters = .ok r ∧
              outcome limit' symbols c' cat field read counters = .ok r') ∧
          Option.Rel (Agrees symbols) r r') := by
  obtain ⟨c', hc', h⟩ : ∃ c', g'.resolveConcrete? symbols language = some c' ∧
      c.Rearranged c' := by
    have hrel := hg.resolveConcrete? symbols language
    rw [hc] at hrel
    generalize g'.resolveConcrete? symbols language = c'? at hrel ⊢
    cases hrel with
    | some h => exact ⟨_, rfl, h⟩
  have hwf := Concrete.wellFormed_of_build hbuild (Grammar.mem_of_resolveConcrete? hc)
  have hwf' := h.wellFormed hwf
  obtain ⟨category', hgoal', hcategory⟩ := h.goal hgoal
  have hfields' : ∀ id ∈ category'.instances, ∃ n, c'.fieldCount? id = some n ∧ field < n :=
    fun id hid => h.fieldCount? ▸ hfields id (hcategory.instances.mem_iff.2 hid)
  have hsetting : ∀ v, c'.setting v category'.instances field =
      c.setting v category.instances field := fun v => h.setting hcategory.instances v field
  refine ⟨c', hc', ⟨fun hends => ?_, fun hends => ?_⟩, fun hends read hread => ?_⟩
  · obtain ⟨limit, r, r', houtcome, -⟩ :=
      hends.exists_outcomes hgoal hfields hwf hwf' hgoal' hfields' h.function? hsetting
    refine ⟨limit, {}, ?_⟩
    simp [(houtcome limit (Nat.le_refl _) {}).2]
  · obtain ⟨limit, r, r', houtcome, -⟩ := hends.exists_outcomes hgoal' hfields' hwf' hwf hgoal
      hfields h.function?.symm fun v => (hsetting v).symm
    refine ⟨limit, {}, ?_⟩
    simp [(houtcome limit (Nat.le_refl _) {}).2]
  · exact (hends.of_prefix hread).exists_outcomes hgoal hfields hwf hwf' hgoal' hfields'
      h.function? hsetting

end Chart

/-! ## Pairs -/

/-- Sentences of one word, and pairs of sentences of two kinds. -/
def pairing : WrittenGrammar where
  name := "Pairing"
  declarations :=
    [.category "S" [], .function "one" [] "S", .function "pair" ["S", "S"] "S",
      .concrete "Paired"
        [.category "S" 2 ["s"], .functionWith "one" [[.tokens ["a"]]],
          .functionWith "pair" [[.sub 0 0, .sub 1 0]],
          .apply (.ofIndex 0) ⟨0⟩ [], .apply (.ofIndex 0) ⟨1⟩ [.ofIndex 0, .ofIndex 1],
          .coerce (.ofIndex 1) (.ofIndex 0), .apply (.ofIndex 1) ⟨1⟩ [.ofIndex 1, .ofIndex 0]]]

/-- Its only concrete syntax. -/
def paired : Concrete where
  name := ⟨4⟩
  cats := [⟨⟨1⟩, [.ofIndex 0, .ofIndex 1], ["s"]⟩]
  instances :=
    [⟨some ⟨1⟩, 1, some [.apply ⟨0⟩ [], .apply ⟨1⟩ [.ofIndex 0, .ofIndex 1]]⟩,
      ⟨some ⟨1⟩, 1, some [.coerce (.ofIndex 0), .apply ⟨1⟩ [.ofIndex 1, .ofIndex 0]]⟩]
  funs := [⟨⟨2⟩, [⟨0⟩]⟩, ⟨⟨3⟩, [⟨1⟩]⟩]
  sequences := [[.tokens [⟨5⟩]], [.sub 0 0, .sub 1 0]]

/-- The same with everything listed the other way round. -/
def pairedBackwards : Concrete where
  name := ⟨4⟩
  cats := [⟨⟨1⟩, [.ofIndex 1, .ofIndex 0], ["s"]⟩]
  instances :=
    [⟨some ⟨1⟩, 1, some [.apply ⟨1⟩ [.ofIndex 0, .ofIndex 1], .apply ⟨0⟩ []]⟩,
      ⟨some ⟨1⟩, 1, some [.apply ⟨1⟩ [.ofIndex 1, .ofIndex 0], .coerce (.ofIndex 0)]⟩]
  funs := [⟨⟨2⟩, [⟨0⟩]⟩, ⟨⟨3⟩, [⟨1⟩]⟩]
  sequences := [[.tokens [⟨5⟩]], [.sub 0 0, .sub 1 0]]

theorem build_pairing : ∃ g, pairing.build = .ok g ∧ g.concretes = [paired] :=
  exists_build (by decide +kernel)

theorem rearranged_paired : paired.Rearranged pairedBackwards where
  name := rfl
  flags := rfl
  funs := rfl
  sequences := rfl
  cats := .cons ⟨rfl, rfl, .swap ..⟩ .nil
  instances :=
    .cons ⟨rfl, rfl, .some (.swap ..)⟩ (.cons ⟨rfl, rfl, .some (.swap ..)⟩ .nil)

theorem goal_paired : Chart.goal pairing.draft.2.symbols paired "S" 0 =
    .ok ⟨⟨1⟩, [.ofIndex 0, .ofIndex 1], ["s"]⟩ :=
  eq_ok_of_toOption (by decide +kernel)

theorem fields_paired : ∀ id ∈ [InstanceId.ofIndex 0, .ofIndex 1],
    ∃ n, paired.fieldCount? id = some n ∧ 0 < n := by
  simp only [List.mem_cons, List.not_mem_nil, or_false, forall_eq_or_imp, forall_eq]
  exact ⟨⟨1, rfl, Nat.one_pos⟩, 1, rfl, Nat.one_pos⟩

namespace Chart

theorem ends_paired : Ends pairing.draft.2.symbols paired "S" 0 ["a", "a", "a"] :=
  ⟨30, {}, by decide +kernel⟩

theorem outcome_rearranged_paired :
    ∃ g g' category, pairing.build = .ok g ∧ g.Rearranged g' ∧
      g'.concretes = [pairedBackwards] ∧
      g.resolveConcrete? pairing.draft.2.symbols "Paired" = some paired ∧
      Chart.goal pairing.draft.2.symbols paired "S" 0 = .ok category ∧
      (∀ id ∈ category.instances, ∃ n, paired.fieldCount? id = some n ∧ 0 < n) ∧
      Ends pairing.draft.2.symbols paired "S" 0 ["a", "a", "a"] ∧
      ∃ c', g'.resolveConcrete? pairing.draft.2.symbols "Paired" = some c' ∧
        Ends pairing.draft.2.symbols c' "S" 0 ["a", "a", "a"] ∧
        ∀ read, read <+: ["a", "a", "a"] →
          ∃ limit r r', (∀ limit' ≥ limit, ∀ counters,
              outcome limit' pairing.draft.2.symbols paired "S" 0 read counters = .ok r ∧
                outcome limit' pairing.draft.2.symbols c' "S" 0 read counters = .ok r') ∧
            Option.Rel (Agrees pairing.draft.2.symbols) r r' := by
  obtain ⟨g, hbuild, hconcretes⟩ := build_pairing
  let g' : Grammar := { g with concretes := [pairedBackwards] }
  have hg : g.Rearranged g' := ⟨rfl, by
    rw [hconcretes]
    exact .cons rearranged_paired .nil⟩
  have hc : g.resolveConcrete? pairing.draft.2.symbols "Paired" = some paired := by
    have hfind : pairing.draft.2.symbols.find? "Paired" = some paired.name := by decide +kernel
    simp [Grammar.resolveConcrete?, Grammar.concrete?, hfind, hconcretes]
  obtain ⟨c', hc', hends, houtcome⟩ :=
    outcome_rearranged hbuild hg hc goal_paired fields_paired ["a", "a", "a"]
  exact ⟨g, g', _, hbuild, hg, rfl, hc, goal_paired, fields_paired, ends_paired, c', hc',
    hends.1 ends_paired, houtcome ends_paired⟩

end Chart

end Polyglot
