import Polyglot.Proofs.Grammar.Words

/-!
# Labels and fields

The labels of a concrete category are those of its first declaration. Later declarations may add
instances with other labels, and nothing compares the two: an instance has as many fields as the
declaration that made it has labels.

- `firstLabels?`: the labels that a category gets.
- `Concrete.Labels`: where the labels of a category and the fields of its instances come from.
- `ConcreteDraft.labelled_declareAll`: it is so for all categories that are declared.
-/

namespace Polyglot

/-- The labels of the first declaration of a concrete category. -/
def firstLabels? (ds : List ConcreteDeclaration) (name : String) : Option (List String) :=
  ds.findSome? fun
    | .category other _ labels => if other = name then some labels else none
    | _ => none

namespace Concrete

variable {symbols symbols' : SymbolStore} {ds : List ConcreteDeclaration}
  {d : ConcreteDeclaration} {c c' : Concrete} {k : ConcreteCategory} {name : String}

/-- A category has the labels of its first declaration, and its instances are those of all its
declarations, with a field for every label there. -/
structure Labels (c : Concrete) (symbols : SymbolStore) (ds : List ConcreteDeclaration)
    (k : ConcreteCategory) (name : String) : Prop where
  found : symbols.find? name = some k.name
  labels : firstLabels? ds name = some k.labels
  made : ∀ id ∈ k.instances, ∃ count labels, .category name count labels ∈ ds ∧ 0 < count ∧
    c.fieldCount? id = some labels.length
  listed : ∀ count labels, .category name count labels ∈ ds → 0 < count →
    ∃ id ∈ k.instances, c.fieldCount? id = some labels.length

/-- All categories are labelled as they were declared, and there are no others. -/
structure Labelled (c : Concrete) (symbols : SymbolStore) (ds : List ConcreteDeclaration) :
    Prop where
  categories : ∀ k ∈ c.cats, ∃ name, c.Labels symbols ds k name
  declared : ∀ name labels, firstLabels? ds name = some labels →
    ∃ k ∈ c.cats, symbols.find? name = some k.name

/-- The instances of one syntax are there in another, with the same numbers of fields. -/
def FieldsLast (c c' : Concrete) : Prop :=
  ∀ id n, c.fieldCount? id = some n → c'.fieldCount? id = some n

theorem fieldsLast_of_instances
    (h : ∀ (i : Nat) (inst : Instance), c.instances[i]? = some inst →
      ∃ inst' : Instance, c'.instances[i]? = some inst' ∧ inst'.fieldCount = inst.fieldCount) :
    c.FieldsLast c' := by
  intro id n hn
  rw [fieldCount?] at hn ⊢
  split
  · rwa [if_pos ‹_›] at hn
  · rw [if_neg ‹_›, Option.map_eq_some_iff] at hn
    obtain ⟨inst, hinst, rfl⟩ := hn
    obtain ⟨i, hi, hget⟩ := Option.bind_eq_some_iff.1 hinst
    obtain ⟨inst', hget', hcount⟩ := h i inst hget
    simp [instance?, hi, hget', hcount]

theorem fieldsLast_append {new : List Instance} (h : c'.instances = c.instances ++ new) :
    c.FieldsLast c' := by
  refine fieldsLast_of_instances fun i inst hinst => ⟨inst, ?_, rfl⟩
  rw [h, List.getElem?_append_left (List.getElem?_eq_some_iff.1 hinst).1, hinst]

theorem fieldsLast_of_eq (h : c'.instances = c.instances) : c.FieldsLast c' :=
  fieldsLast_append (h.trans (List.append_nil _).symm)

/-! ## One declaration -/

theorem firstLabels?_concat : firstLabels? (ds ++ [d]) name =
    (firstLabels? ds name).or (firstLabels? [d] name) :=
  List.findSome?_append

theorem firstLabels?_eq_none (h : firstLabels? ds name = none) (count : Nat)
    (labels : List String) : .category name count labels ∉ ds := by
  intro hmem
  simpa using List.findSome?_eq_none_iff.1 h _ hmem

theorem firstLabels?_singleton_of_ne (h : ∀ count labels, d ≠ .category name count labels) :
    firstLabels? [d] name = none := by
  rw [firstLabels?, List.findSome?_singleton]
  cases d with
  | category other count labels =>
    have hne : other ≠ name := fun heq => h count labels (heq ▸ rfl)
    simp [hne]
  | _ => rfl

theorem eq_of_firstLabels?_singleton {other : String} {count : Nat} {labels labels' : List String}
    (h : firstLabels? [.category name count labels] other = some labels') : other = name := by
  simp only [firstLabels?, List.findSome?_singleton, Option.ite_none_right_eq_some] at h
  exact h.1.symm

/-- Declarations of other categories, and of anything else, leave a category as it is. -/
theorem Labels.keep (h : c.Labels symbols ds k name) (hextends : symbols.Extends symbols')
    (hlast : c.FieldsLast c') (hd : ∀ count labels, d ≠ .category name count labels) :
    c'.Labels symbols' (ds ++ [d]) k name := by
  refine ⟨hextends.find? h.found, by rw [firstLabels?_concat, h.labels, Option.some_or],
    fun id hid => ?_, fun count labels hmem hcount => ?_⟩
  · obtain ⟨count, labels, hmem, hcount, hn⟩ := h.made id hid
    exact ⟨count, labels, List.mem_append_left _ hmem, hcount, hlast id _ hn⟩
  · rcases List.mem_append.1 hmem with hmem | hmem
    · obtain ⟨id, hid, hn⟩ := h.listed count labels hmem hcount
      exact ⟨id, hid, hlast id _ hn⟩
    · exact absurd (List.mem_singleton.1 hmem).symm (hd count labels)

/-- Another declaration of a category adds its instances, whatever their labels are. -/
theorem Labels.add (h : c.Labels symbols ds k name) (hextends : symbols.Extends symbols')
    (hlast : c.FieldsLast c') {count : Nat} {labels : List String} {ids : List InstanceId}
    (hids : ids.length = count) (hn : ∀ id ∈ ids, c'.fieldCount? id = some labels.length) :
    c'.Labels symbols' (ds ++ [.category name count labels])
      { k with instances := k.instances ++ ids } name := by
  refine ⟨hextends.find? h.found, by rw [firstLabels?_concat, h.labels, Option.some_or],
    fun id hid => ?_, fun count' labels' hmem hcount => ?_⟩
  · rcases List.mem_append.1 hid with hid | hid
    · obtain ⟨count', labels', hmem, hcount, hn⟩ := h.made id hid
      exact ⟨count', labels', List.mem_append_left _ hmem, hcount, hlast id _ hn⟩
    · exact ⟨count, labels, by simp, hids ▸ List.length_pos_of_mem hid, hn id hid⟩
  · rcases List.mem_append.1 hmem with hmem | hmem
    · obtain ⟨id, hid, hn⟩ := h.listed count' labels' hmem hcount
      exact ⟨id, List.mem_append_left _ hid, hlast id _ hn⟩
    · cases List.mem_singleton.1 hmem
      obtain ⟨id, hid⟩ := List.exists_mem_of_length_pos (hids ▸ hcount)
      exact ⟨id, List.mem_append_right _ hid, hn id hid⟩

/-- The first declaration of a category gives it its labels and its instances. -/
theorem Labels.first {sym : Sym} {count : Nat} {labels : List String} {ids : List InstanceId}
    (hnew : firstLabels? ds name = none) (hname : symbols'.find? name = some sym)
    (hids : ids.length = count) (hn : ∀ id ∈ ids, c'.fieldCount? id = some labels.length) :
    c'.Labels symbols' (ds ++ [.category name count labels]) ⟨sym, ids, labels⟩ name := by
  refine ⟨hname, ?_, fun id hid => ⟨count, labels, by simp, hids ▸ List.length_pos_of_mem hid,
    hn id hid⟩, fun count' labels' hmem hcount => ?_⟩
  · rw [firstLabels?_concat, hnew, Option.none_or]
    simp [firstLabels?]
  · rcases List.mem_append.1 hmem with hmem | hmem
    · exact absurd hmem (firstLabels?_eq_none hnew count' labels')
    · cases List.mem_singleton.1 hmem
      obtain ⟨id, hid⟩ := List.exists_mem_of_length_pos (hids ▸ hcount)
      exact ⟨id, hid, hn id hid⟩

/-- What declares no category leaves all categories as they are. -/
theorem Labelled.keep (h : c.Labelled symbols ds) (hextends : symbols.Extends symbols')
    (hlast : c.FieldsLast c') (hcats : c'.cats = c.cats)
    (hd : ∀ name count labels, d ≠ .category name count labels) :
    c'.Labelled symbols' (ds ++ [d]) := by
  refine ⟨fun k hk => ?_, fun name labels hfirst => ?_⟩
  · obtain ⟨name, hlabels⟩ := h.categories k (hcats ▸ hk)
    exact ⟨name, hlabels.keep hextends hlast (hd name)⟩
  · rw [firstLabels?_concat, firstLabels?_singleton_of_ne (hd name), Option.or_none] at hfirst
    obtain ⟨k, hk, hname⟩ := h.declared name labels hfirst
    exact ⟨k, hcats ▸ hk, hextends.find? hname⟩

theorem Labelled.mono (h : c.Labelled symbols ds) (hextends : symbols.Extends symbols') :
    c.Labelled symbols' ds := by
  refine ⟨fun k hk => ?_, fun name labels hfirst => ?_⟩
  · obtain ⟨name, hlabels⟩ := h.categories k hk
    exact ⟨name, hextends.find? hlabels.found, hlabels.labels, hlabels.made, hlabels.listed⟩
  · obtain ⟨k, hk, hname⟩ := h.declared name labels hfirst
    exact ⟨k, hk, hextends.find? hname⟩

theorem instances_addToCategory (c : Concrete) (sym : Sym) (ids : List InstanceId)
    (labels : List String) :
    (ConcreteDraft.addToCategory c sym ids labels).instances = c.instances := by
  unfold ConcreteDraft.addToCategory
  split <;> rfl

section Add

variable (h : c.Labelled symbols ds) (hextends : symbols.Extends symbols')
  (hlast : c.FieldsLast c') {sym : Sym} (hname : symbols'.find? name = some sym) {count : Nat}
  {labels : List String} {ids : List InstanceId}
include h hextends hlast hname

/-- The declaration of a category leaves the others as they are. -/
theorem Labelled.exists_labels_of_ne {k : ConcreteCategory} (hk : k ∈ c.cats) (hne : k.name ≠ sym) :
    ∃ name', c'.Labels symbols' (ds ++ [.category name count labels]) k name' := by
  obtain ⟨name', hlabels⟩ := h.categories k hk
  refine ⟨name', hlabels.keep hextends hlast fun count' labels' heq => hne ?_⟩
  cases heq
  exact Option.some.inj ((hextends.find? hlabels.found).symm.trans hname)

variable (hids : ids.length = count) (hn : ∀ id ∈ ids, c'.fieldCount? id = some labels.length)
include hids hn

/-- A category is declared again. -/
theorem Labelled.again (hcats : c'.cats = c.cats.map fun k =>
      if k.name = sym then { k with instances := k.instances ++ ids } else k)
    (hany : ∃ k ∈ c.cats, k.name = sym) :
    c'.Labelled symbols' (ds ++ [.category name count labels]) := by
  refine ⟨fun k' hk' => ?_, fun name' labels' hfirst => ?_⟩
  · rw [hcats] at hk'
    obtain ⟨k, hk, rfl⟩ := List.mem_map.1 hk'
    split
    · rename_i heq
      obtain ⟨name', hlabels⟩ := h.categories k hk
      obtain rfl : name' = name :=
        SymbolStore.eq_of_find? (heq ▸ hextends.find? hlabels.found) hname
      exact ⟨name', hlabels.add hextends hlast hids hn⟩
    · exact h.exists_labels_of_ne hextends hlast hname hk ‹_›
  · obtain ⟨k, hk, hfind⟩ : ∃ k ∈ c.cats, symbols'.find? name' = some k.name := by
      rw [firstLabels?_concat, Option.or_eq_some_iff] at hfirst
      rcases hfirst with hfirst | ⟨-, hfirst⟩
      · obtain ⟨k, hk, hfind⟩ := h.declared name' labels' hfirst
        exact ⟨k, hk, hextends.find? hfind⟩
      · obtain ⟨k, hk, heq⟩ := hany
        obtain rfl := eq_of_firstLabels?_singleton hfirst
        exact ⟨k, hk, heq ▸ hname⟩
    refine ⟨_, hcats ▸ List.mem_map_of_mem hk, ?_⟩
    rw [hfind]
    split <;> rfl

/-- A category is declared for the first time. -/
theorem Labelled.anew (hcats : c'.cats = c.cats ++ [⟨sym, ids, labels⟩])
    (hany : ¬∃ k ∈ c.cats, k.name = sym) :
    c'.Labelled symbols' (ds ++ [.category name count labels]) := by
  have hnew : firstLabels? ds name = none := by
    rw [Option.eq_none_iff_forall_ne_some]
    intro labels' hfirst
    obtain ⟨k, hk, hfind⟩ := h.declared name labels' hfirst
    exact hany ⟨k, hk, Option.some.inj ((hextends.find? hfind).symm.trans hname)⟩
  refine ⟨fun k hk => ?_, fun name' labels' hfirst => ?_⟩
  · rw [hcats] at hk
    rcases List.mem_append.1 hk with hk | hk
    · exact h.exists_labels_of_ne hextends hlast hname hk fun heq => hany ⟨k, hk, heq⟩
    · rw [List.mem_singleton.1 hk]
      exact ⟨name, .first hnew hname hids hn⟩
  · rw [firstLabels?_concat, Option.or_eq_some_iff] at hfirst
    rw [hcats]
    rcases hfirst with hfirst | ⟨-, hfirst⟩
    · obtain ⟨k, hk, hfind⟩ := h.declared name' labels' hfirst
      exact ⟨k, List.mem_append_left _ hk, hextends.find? hfind⟩
    · obtain rfl := eq_of_firstLabels?_singleton hfirst
      exact ⟨_, List.mem_append_right _ (List.mem_singleton_self _), hname⟩

/-- A category is declared, again or for the first time. -/
theorem Labelled.addToCategory (hcats : c'.cats = c.cats) :
    (ConcreteDraft.addToCategory c' sym ids labels).Labelled symbols'
      (ds ++ [.category name count labels]) := by
  -- The list of categories has nothing to do with the fields of instances.
  have hsame : c'.FieldsLast (ConcreteDraft.addToCategory c' sym ids labels) :=
    fieldsLast_of_eq (instances_addToCategory ..)
  have hlast' : c.FieldsLast (ConcreteDraft.addToCategory c' sym ids labels) :=
    fun id n hid => hsame id n (hlast id n hid)
  have hn' := fun id hid => hsame id _ (hn id hid)
  by_cases hany : ∃ k ∈ c.cats, k.name = sym
  · refine h.again hextends hlast' hname hids hn' ?_ hany
    rw [ConcreteDraft.addToCategory, if_pos (by simpa [hcats] using hany), hcats]
  · refine h.anew hextends hlast' hname hids hn' ?_ hany
    rw [ConcreteDraft.addToCategory, if_neg (by simpa [hcats] using hany), hcats]

end Add

end Concrete

/-! ## All declarations -/

namespace ConcreteDraft

variable {ds : List ConcreteDeclaration} {d : ConcreteDraft}

/-- Sequences are added without regard to anything else. -/
theorem addSequence_spec (c : Concrete) (s : Sequence) :
    (addSequence c s).2.name = c.name ∧ (addSequence c s).2.cats = c.cats ∧
      (addSequence c s).2.instances = c.instances := by
  unfold addSequence
  split <;> exact ⟨rfl, rfl, rfl⟩

theorem addSequences_spec (c : Concrete) (ss : List Sequence) :
    (addSequences c ss).2.name = c.name ∧ (addSequences c ss).2.cats = c.cats ∧
      (addSequences c ss).2.instances = c.instances := by
  induction ss generalizing c with
  | nil => exact ⟨rfl, rfl, rfl⟩
  | cons s ss ih =>
    obtain ⟨hname, hcats, hinstances⟩ := addSequence_spec c s
    obtain ⟨hname', hcats', hinstances'⟩ := ih (addSequence c s).2
    exact ⟨hname'.trans hname, hcats'.trans hcats, hinstances'.trans hinstances⟩

theorem fieldsLast_addProductions (d : ConcreteDraft) (id : InstanceId) (ps : List Production) :
    d.concrete.FieldsLast (d.addProductions id ps).concrete ∧
      (d.addProductions id ps).concrete.cats = d.concrete.cats := by
  unfold addProductions
  split
  · split
    · refine ⟨Concrete.fieldsLast_of_instances fun i inst hinst => ?_, rfl⟩
      refine ⟨_, by rw [List.getElem?_modify, hinst]; rfl, ?_⟩
      split <;> rfl
    · exact ⟨fun _ _ h => h, rfl⟩
  · exact ⟨fun _ _ h => h, rfl⟩

/-- The instances that a category declaration makes have a field for every label. -/
theorem fieldCount?_replicate {c : Concrete} {i count n : Nat} {cat : Option Sym}
    (h : c.instances.drop i = List.replicate count ⟨cat, n, none⟩) {id : InstanceId}
    (hid : id ∈ (List.range count).map fun j => InstanceId.ofIndex (i + j)) :
    c.fieldCount? id = some n := by
  obtain ⟨j, hj, rfl⟩ := List.mem_map.1 hid
  rw [List.mem_range] at hj
  have hget : c.instances[i + j]? = some ⟨cat, n, none⟩ := by
    rw [← List.getElem?_drop, h, List.getElem?_replicate, if_pos hj]
  exact Concrete.fieldCount?_ofIndex hget

/-- Every declaration labels the categories as it says. -/
theorem labelled_declare (h : d.concrete.Labelled d.symbols ds) (x : ConcreteDeclaration) :
    (d.declare x).2.concrete.Labelled (d.declare x).2.symbols (ds ++ [x]) := by
  have hproductions : ∀ id ps, (∀ name count labels, x ≠ .category name count labels) →
      (d.addProductions id ps).concrete.Labelled (d.addProductions id ps).symbols
        (ds ++ [x]) := by
    intro id ps hx
    obtain ⟨hlast, hcats⟩ := fieldsLast_addProductions d id ps
    rw [(sequences_addProductions d id ps).2]
    exact h.keep (.refl _) hlast hcats hx
  cases x with
  | flag name value => exact h.keep (.refl _) (fun _ _ h => h) rfl (by simp)
  | category name count labels =>
    let start : Concrete := { d.concrete with
      instances := d.concrete.instances ++
        List.replicate count ⟨some (d.symbols.intern name).1, labels.length, none⟩ }
    have hlast : d.concrete.FieldsLast start := Concrete.fieldsLast_append rfl
    refine h.addToCategory (d.symbols.extends_intern name) hlast (d.symbols.find?_intern name)
      (by simp) ?_ rfl
    intro id hid
    exact fieldCount?_replicate (List.drop_left ..) hid
  | coercion targets =>
    have hadd : ∃ inst, (d.declare (.coercion targets)).2.concrete =
        (addInstance d.concrete inst).2 := by
      simp only [declare, addCoercion]
      split <;> exact ⟨_, rfl⟩
    obtain ⟨inst, hadd⟩ := hadd
    rw [hadd]
    exact h.keep (.refl _) (Concrete.fieldsLast_append rfl) rfl (by simp)
  | sequence constituents =>
    obtain ⟨-, hcats, hinstances⟩ :=
      addSequence_spec d.concrete (internSequence d.symbols constituents).1
    exact h.keep (internSequence_spec d.symbols constituents).1
      (Concrete.fieldsLast_of_eq hinstances) hcats (by simp)
  | function name fields =>
    exact h.keep (d.symbols.extends_intern name) (fun _ _ h => h) rfl (by simp)
  | functionWith name fields =>
    obtain ⟨-, hcats, hinstances⟩ :=
      addSequences_spec d.concrete (internSequences d.symbols fields).1
    refine h.keep ?_ (Concrete.fieldsLast_of_eq hinstances) hcats (by simp)
    exact (internSequences_spec d.symbols fields).1.trans (SymbolStore.extends_intern _ name)
  | apply id fn args => exact hproductions id _ (by simp)
  | coerce id target => exact hproductions id _ (by simp)
  | markKnown id => exact hproductions id _ (by simp)

theorem labelled_declareAll (h : d.concrete.Labelled d.symbols ds)
    (xs : List ConcreteDeclaration) :
    (d.declareAll xs).2.concrete.Labelled (d.declareAll xs).2.symbols (ds ++ xs) := by
  induction xs generalizing ds d with
  | nil => rwa [List.append_nil]
  | cons x xs ih =>
    have := ih (labelled_declare h x)
    rwa [List.append_assoc, List.singleton_append] at this

end ConcreteDraft

end Polyglot
