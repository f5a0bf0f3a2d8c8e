import Mathlib
import Polyglot.Grammar.Basic

/-!
# The productions of a concrete syntax

A production belongs to an instance, and the productions of all instances have an order: that of the
instances, and then that in which they were added.
-/

namespace Polyglot

namespace InstanceId

@[simp] theorem index?_ofIndex (n : Nat) : (ofIndex n).index? = some n := by
  simp [index?, ofIndex]

theorem index?_eq_some_iff {id : InstanceId} {n : Nat} : id.index? = some n ↔ id = ofIndex n := by
  constructor
  · intro h
    obtain ⟨v⟩ := id
    simp only [index?, Option.ite_none_right_eq_some, Option.some.injEq] at h
    rw [ofIndex, InstanceId.mk.injEq]
    omega
  · rintro rfl
    exact index?_ofIndex n

end InstanceId

namespace Concrete

/-- The productions of an instance; one of which nothing is known has none. -/
def productionsOf (c : Concrete) (id : InstanceId) : List Production := (c.productions? id).getD []

/-- All productions with the instances that they belong to, in the order of the grammar. -/
def allProductions (c : Concrete) : List (InstanceId × Production) :=
  (c.instances.zipIdx.map fun (inst, i) =>
    (inst.productions.getD []).map fun p => (InstanceId.ofIndex i, p)).flatten

/-- An instance of a syntax has the number of fields that it was declared with. -/
theorem fieldCount?_ofIndex {c : Concrete} {i : Nat} {inst : Instance}
    (h : c.instances[i]? = some inst) : c.fieldCount? (.ofIndex i) = some inst.fieldCount := by
  have hlit : (InstanceId.ofIndex i).isLiteral = false := by
    have hneg : ¬ (i : Int) ≤ -1 := by omega
    simp [InstanceId.isLiteral, InstanceId.ofIndex, InstanceId.string, hneg]
  simp [fieldCount?, hlit, instance?, h]

theorem mem_productionsOf {c : Concrete} {id : InstanceId} {p : Production} :
    p ∈ c.productionsOf id ↔ ∃ inst, c.instance? id = some inst ∧ p ∈ inst.productions.getD [] := by
  simp only [productionsOf, productions?]
  cases c.instance? id <;> simp

theorem mem_allProductions {c : Concrete} {id : InstanceId} {p : Production} :
    (id, p) ∈ c.allProductions ↔ p ∈ c.productionsOf id := by
  rw [mem_productionsOf, allProductions, List.mem_flatten]
  constructor
  · rintro ⟨ps, hps, hp⟩
    obtain ⟨⟨inst, i⟩, hinst, rfl⟩ := List.mem_map.1 hps
    obtain ⟨q, hq, heq⟩ := List.mem_map.1 hp
    cases heq
    refine ⟨inst, ?_, hq⟩
    simpa [instance?] using List.mem_zipIdx_iff_getElem?.1 hinst
  · rintro ⟨inst, hinst, hp⟩
    simp only [instance?, Option.bind_eq_some_iff, InstanceId.index?_eq_some_iff] at hinst
    obtain ⟨i, rfl, hi⟩ := hinst
    exact ⟨_, List.mem_map.2 ⟨(inst, i), List.mem_zipIdx_iff_getElem?.2 hi, rfl⟩,
      List.mem_map.2 ⟨p, hp, rfl⟩⟩

/-- What makes up a field is one of the sequences of the syntax. -/
theorem mem_sequences_of_sequenceOf? {c : Concrete} {fn : FunId} {field : Nat}
    {s : Sequence} (h : c.sequenceOf? fn field = some s) : s ∈ c.sequences := by
  simp only [sequenceOf?, Option.bind_eq_bind, Option.bind_eq_some_iff] at h
  obtain ⟨f, -, seq, -, hs⟩ := h
  exact List.mem_of_getElem? hs

end Concrete

end Polyglot
