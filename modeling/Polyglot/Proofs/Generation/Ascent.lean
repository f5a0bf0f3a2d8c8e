import Polyglot.Generation.Derivation
import Polyglot.Proofs.Exhaustion
import Polyglot.Proofs.Generation.Index

/-!
# Ways up from an instance

A production of a function can be passed an argument whose own instance is coerced, over any number
of steps, to the instance that it asks for. The search for such ways never comes to an instance
twice. It misses nothing by that: whatever can be reached is reached on a way without repetitions.

- `Concrete.Reaches`: coercions, followed any number of times.
- `Concrete.Ascends`: a way up that comes to no instance twice.
- `Index.mem_climb`: the instances that a climb ends at are those that can be reached.
-/

namespace Polyglot

namespace Concrete

/-- An instance takes over the productions of another. -/
def Coerced (c : Concrete) (id super : InstanceId) : Prop := .coerce id ∈ c.productionsOf super

/-- An instance takes over the productions of another over any number of steps. -/
def Reaches (c : Concrete) : InstanceId → InstanceId → Prop := Relation.ReflTransGen c.Coerced

/-- A way up from an instance that was come to over `path`, without coming to an instance twice. -/
inductive Ascends (c : Concrete) : List InstanceId → InstanceId → InstanceId → Prop where
  | stay (path : List InstanceId) (id : InstanceId) : c.Ascends path id id
  | up {path : List InstanceId} {id super top : InstanceId} (hcoerced : c.Coerced id super)
      (hnew : super ∉ id :: path) (hway : c.Ascends (id :: path) super top) :
      c.Ascends path id top

variable {c : Concrete} {path path' : List InstanceId} {id top : InstanceId}

theorem Ascends.reaches (h : c.Ascends path id top) : c.Reaches id top := by
  induction h with
  | stay path id => exact .refl
  | up hcoerced _ _ ih => exact .head hcoerced ih

/-- What was come to earlier only takes ways away. -/
theorem Ascends.mono (h : c.Ascends path id top) (hsub : path' ⊆ path) :
    c.Ascends path' id top := by
  induction h generalizing path' with
  | stay path id => exact .stay path' id
  | up hcoerced hnew _ ih =>
    exact .up hcoerced (fun hmem => hnew (List.cons_subset_cons _ hsub hmem))
      (ih (List.cons_subset_cons _ hsub))

/-- A way up avoids an instance, or there is a shorter one from that instance on. -/
theorem Ascends.avoid (h : c.Ascends path id top) (id' : InstanceId) :
    c.Ascends (id' :: path) id top ∨ c.Ascends [] id' top := by
  induction h with
  | stay path id => exact .inl (.stay _ id)
  | @up path id super top hcoerced hnew hway ih =>
    by_cases hsuper : super = id'
    · -- The way comes to the instance here, so the rest of it is the shorter one.
      subst hsuper
      exact .inr (hway.mono (List.nil_subset _))
    · refine ih.imp_left fun hway => .up hcoerced ?_ (hway.mono ?_)
      · simp only [List.mem_cons, not_or] at hnew ⊢
        exact ⟨hnew.1, hsuper, hnew.2⟩
      · intro x hx
        simp only [List.mem_cons] at hx ⊢
        rcases hx with hx | hx | hx
        · exact .inr (.inl hx)
        · exact .inl hx
        · exact .inr (.inr hx)

/-- Whatever can be reached is reached without coming to an instance twice. -/
theorem ascends_iff_reaches : c.Ascends [] id top ↔ c.Reaches id top := by
  refine ⟨Ascends.reaches, fun h => ?_⟩
  induction h using Relation.ReflTransGen.head_induction_on with
  | refl => exact .stay [] top
  | @head id super hcoerced _ ih =>
    by_cases hsuper : super = id
    · exact hsuper ▸ ih
    · rcases ih.avoid id with hway | hway
      · exact .up hcoerced (by simpa using hsuper) hway
      · exact hway

end Concrete

namespace Index

variable {c : Concrete}

/-- Induction on the instances that a climb has not come to, as the climb itself goes. -/
@[elab_as_elim]
theorem induction_on_climb (c : Concrete) {motive : List InstanceId → InstanceId → Prop}
    (climb : ∀ path id, (∀ super ∈ (ofConcrete c).supers id, super ∉ id :: path →
      motive (id :: path) super) → motive path id)
    (path : List InstanceId) (id : InstanceId) : motive path id := by
  induction hm : unvisited (ofConcrete c).takers (id :: path) using Nat.strongRecOn
    generalizing path id with
  | ind m ih =>
    refine climb path id fun super hsuper hnew => ?_
    have hless := unvisited_cons_lt (mem_takers_of_mem_supers hsuper) hnew
    exact ih _ (hm ▸ hless) _ _ rfl

/-- A climb ends at the instances that some way without repetitions leads up to. -/
theorem mem_climbFrom {path : List InstanceId} {id top : InstanceId} :
    (∃ n, (top, n) ∈ ((ofConcrete c).climbFrom path id).values) ↔ c.Ascends path id top := by
  induction path, id using induction_on_climb c with
  | climb path id ih =>
    rw [climbFrom]
    simp only [Decision.mem_values_choose]
    constructor
    · rintro ⟨n, ⟨i, hi⟩, hmem⟩
      cases i with
      | zero =>
        cases Decision.mem_values_leaf.1 hmem
        exact .stay _ _
      | succ i =>
        have hlt : i < ((ofConcrete c).supers id).length := Nat.lt_of_succ_lt_succ hi
        have hsuper := List.getElem_mem hlt
        dsimp only at hmem
        split at hmem
        · exact absurd hmem Decision.not_mem_values_fail
        · rename_i hnew
          exact .up (mem_supers.1 hsuper) hnew ((ih _ hsuper hnew).1 ⟨n, hmem⟩)
    · intro h
      cases h with
      | stay => exact ⟨path.length, ⟨0, Nat.succ_pos _⟩, by simp⟩
      | @up _ _ super _ hcoerced hnew hway =>
        obtain ⟨i, hi, rfl⟩ := List.mem_iff_getElem.1 (mem_supers.2 hcoerced)
        obtain ⟨n, hmem⟩ := (ih _ (List.getElem_mem hi) hnew).2 hway
        refine ⟨n, ⟨i + 1, Nat.succ_lt_succ hi⟩, ?_⟩
        dsimp only
        rw [dif_neg hnew]
        exact hmem

/-- The instances that a climb ends at. -/
theorem mem_climb {id top : InstanceId} :
    (∃ n, (top, n) ∈ ((ofConcrete c).climb id).values) ↔ c.Reaches id top :=
  mem_climbFrom.trans Concrete.ascends_iff_reaches

/-- A record can hold a climb if it can hold, beside staying, every step from an instance. -/
theorem narrow_climbFrom
    (hwidth : ∀ id, ((ofConcrete c).supers id).length < Choice.maxAlternatives)
    (path : List InstanceId) (id : InstanceId) :
    ((ofConcrete c).climbFrom path id).Narrow := by
  induction path, id using induction_on_climb c with
  | climb path id ih =>
    rw [climbFrom]
    refine ⟨hwidth id, fun i => ?_⟩
    obtain ⟨i, hi⟩ := i
    cases i with
    | zero => trivial
    | succ i =>
      have hlt : i < ((ofConcrete c).supers id).length := Nat.lt_of_succ_lt_succ hi
      dsimp only
      split
      · exact ⟨Nat.zero_le _, fun i => i.elim0⟩
      · rename_i hnew
        exact ih _ (List.getElem_mem hlt) hnew

end Index

end Polyglot
