import Polyglot.Proofs.Chart.Exactness
import Polyglot.Proofs.Chart.Growth
import Polyglot.Proofs.Grammar.Declared

/-!
# Fields that can be asked for

Whether a field of a category can be parsed is decided by the labels of the category, and these are
the labels of its first declaration. Its instances have the fields that their own declarations give
them. So the labels are as many as the fields if the declarations of the category agree, and then
parsing begins without a fault; and there is a grammar that is accepted where they do not, and where
an item is started for a field that its production does not have.

- `Chart.goal_suffices`: when the labels of a category stand for the fields of its instances.
- `Chart.parse_relabelled`: a field with a label that an instance does not have.
-/

namespace Polyglot

namespace Chart

variable {w : WrittenGrammar} {g : Grammar} {c : Concrete}

/-- A goal is a category of the syntax with that name and a label for the field. -/
theorem goal_eq_ok {symbols : SymbolStore} {cat : String} {field : Nat}
    {category : ConcreteCategory} (h : goal symbols c cat field = .ok category) :
    symbols.find? cat = some category.name ∧ category ∈ c.cats ∧ field < category.fieldCount := by
  unfold goal at h
  cases hcategory : (symbols.find? cat).bind c.category? with
  | none => simp [hcategory] at h
  | some category' =>
    simp only [hcategory] at h
    split at h
    · cases h
      obtain ⟨sym, hsym, hfind⟩ := Option.bind_eq_some_iff.1 hcategory
      have hname : category.name = sym := by simpa using List.find?_some hfind
      exact ⟨hname ▸ hsym, List.mem_of_find?_eq_some hfind, ‹_›⟩
    · cases h

/-- Instances that have the field that is asked for start without a fault. -/
theorem parse_ne_fault (hwf : c.WellFormed) {symbols : SymbolStore} {cat : String} {field : Nat}
    {category : ConcreteCategory} (hgoal : goal symbols c cat field = .ok category)
    (hfields : ∀ id ∈ category.instances, ∃ n, c.fieldCount? id = some n ∧ field < n)
    (limit : Nat) (counters : Counters) (fault : Fault) :
    (parse limit symbols c cat field counters).1 ≠ .error (.halt (.fault fault)) := by
  obtain ⟨hruns, -⟩ := runs_predictTop hwf hfields (fun _ => ⟨0⟩) counters
  simp only [parse, hgoal]
  rcases built_of_finish hwf hruns limit with hfinish | ⟨last, hfinish, -⟩
  all_goals
    generalize Building.finish limit _ = result at hfinish ⊢
    obtain ⟨r, counters'⟩ := result
    cases hfinish
    simp

/-- What passes for a field of a category is a label of its first declaration. The instances have as
many fields as the category has labels exactly if all declarations that made any of them have as
many labels as the first; and where all of these have the field, parsing it begins without a
fault. -/
theorem goal_suffices (hbuild : w.build = .ok g) (hc : c ∈ g.concretes) :
    ∃ name ds, .concrete name ds ∈ w.declarations ∧
      w.draft.2.symbols.find? name = some c.name ∧
      ∀ cat field category, goal w.draft.2.symbols c cat field = .ok category →
        firstLabels? ds cat = some category.labels ∧
        ((∀ id ∈ category.instances, c.fieldCount? id = some category.fieldCount) ↔
          ∀ count labels, .category cat count labels ∈ ds → 0 < count →
            labels.length = category.fieldCount) ∧
        ((∀ count labels, .category cat count labels ∈ ds → 0 < count → field < labels.length) →
          ∀ limit counters fault, (parse limit w.draft.2.symbols c cat field counters).1 ≠
            .error (.halt (.fault fault))) := by
  have hwf := Concrete.wellFormed_of_build hbuild hc
  obtain ⟨-, -, -, rfl⟩ := Draft.finish_eq_ok_iff.1 hbuild
  obtain ⟨name, ds, hmem, hname, hlabelled⟩ := w.reads_draft.labelled c hc
  refine ⟨name, ds, hmem, hname, fun cat field category hgoal => ?_⟩
  obtain ⟨hfind, hcategory, hfield⟩ := goal_eq_ok hgoal
  obtain ⟨cat', hlabels⟩ := hlabelled.categories category hcategory
  obtain rfl := SymbolStore.eq_of_find? hlabels.found hfind
  refine ⟨hlabels.labels, ⟨fun hall count labels hd hcount => ?_, fun hall id hid => ?_⟩,
    fun hall => parse_ne_fault hwf hgoal fun id hid => ?_⟩
  · obtain ⟨id, hid, hn⟩ := hlabels.listed count labels hd hcount
    exact Option.some.inj (hn.symm.trans (hall id hid))
  · obtain ⟨count, labels, hd, hcount, hn⟩ := hlabels.made id hid
    rw [hn, hall count labels hd hcount]
  · obtain ⟨count, labels, hd, hcount, hn⟩ := hlabels.made id hid
    exact ⟨_, hn, hall count labels hd hcount⟩

end Chart

/-! ## Labels that stand for no field -/

/-- A category is declared with two labels, and then again with one of them. -/
def relabelled : WrittenGrammar where
  name := "Relabelled"
  declarations :=
    [.category "S" [], .function "stop" [] "S",
      .concrete "Halved"
        [.category "S" 1 ["spoken", "written"], .category "S" 1 ["spoken"],
          .functionWith "stop" [[]], .apply (.ofIndex 1) ⟨0⟩ []]]

/-- Its only concrete syntax. -/
def halved : Concrete where
  name := ⟨3⟩
  cats := [⟨⟨1⟩, [.ofIndex 0, .ofIndex 1], ["spoken", "written"]⟩]
  instances := [⟨some ⟨1⟩, 2, none⟩, ⟨some ⟨1⟩, 1, some [.apply ⟨0⟩ []]⟩]
  funs := [⟨⟨2⟩, [⟨0⟩]⟩]
  sequences := [[]]

theorem build_relabelled : ∃ g, relabelled.build = .ok g ∧ g.concretes = [halved] :=
  exists_build (by decide +kernel)

theorem goal_halved (field : Nat) (h : field < 2) :
    Chart.goal relabelled.draft.2.symbols halved "S" field =
      .ok ⟨⟨1⟩, [.ofIndex 0, .ofIndex 1], ["spoken", "written"]⟩ := by
  have hcategory : (relabelled.draft.2.symbols.find? "S").bind halved.category? =
      some ⟨⟨1⟩, [.ofIndex 0, .ofIndex 1], ["spoken", "written"]⟩ := by decide +kernel
  rw [Chart.goal, hcategory]
  exact if_pos h

namespace Chart

/-- The field that both declarations have a label for is safe. -/
theorem goal_suffices_spoken : ∃ g, relabelled.build = .ok g ∧ halved ∈ g.concretes ∧
    ∀ limit counters fault, (parse limit relabelled.draft.2.symbols halved "S" 0 counters).1 ≠
      .error (.halt (.fault fault)) := by
  obtain ⟨g, hbuild, hconcretes⟩ := build_relabelled
  have hc : halved ∈ g.concretes := hconcretes ▸ List.mem_cons_self
  refine ⟨g, hbuild, hc, ?_⟩
  obtain ⟨name, ds, hmem, -, h⟩ := goal_suffices hbuild hc
  obtain ⟨-, -, hsafe⟩ := h "S" 0 _ (goal_halved 0 (by decide))
  refine hsafe fun count labels hd _ => ?_
  simp only [relabelled, List.mem_cons, Declaration.concrete.injEq, reduceCtorEq, false_or,
    List.not_mem_nil, or_false] at hmem
  obtain ⟨-, rfl⟩ := hmem
  simp only [List.mem_cons, ConcreteDeclaration.category.injEq, reduceCtorEq, List.not_mem_nil,
    or_false, true_and] at hd
  obtain ⟨-, rfl⟩ | ⟨-, rfl⟩ := hd <;> decide

/-- The other field passes for one of the category, and an instance of the category does not have
it: parsing it goes wrong with the first item. -/
theorem parse_relabelled : ∃ g category, relabelled.build = .ok g ∧ halved ∈ g.concretes ∧
    goal relabelled.draft.2.symbols halved "S" 1 = .ok category ∧
    .ofIndex 1 ∈ category.instances ∧ category.fieldCount = 2 ∧
    halved.fieldCount? (.ofIndex 1) = some 1 ∧
    ∀ limit > 0, (parse limit relabelled.draft.2.symbols halved "S" 1 {}).1 =
      .error (.halt (.fault (.missingField 1 ⟨0⟩))) := by
  obtain ⟨g, hbuild, hconcretes⟩ := build_relabelled
  refine ⟨g, _, hbuild, hconcretes ▸ List.mem_cons_self, goal_halved 1 (by decide), by decide,
    rfl, rfl, fun limit hlimit => ?_⟩
  let b := (Building.start halved #[] none {}).predictTop [.ofIndex 0, .ofIndex 1] 1
  have hone : (b.run 1).map Building.fault = some (some (.missingField 1 ⟨0⟩)) := by
    decide +kernel
  obtain ⟨b', hrun, hfault⟩ := Option.map_eq_some_iff.1 hone
  have hrun' := Building.run_mono hlimit hrun
  simp only [parse, goal_halved 1 (by decide), Building.finish]
  rw [show Building.run limit ((Building.start halved #[] none {}).predictTop _ 1) = some b' from
    hrun']
  simp only [hfault]

end Chart

end Polyglot
