import Polyglot.Proofs.Grammar.Phrase

/-!
# Copies of what may be empty

A production may read a field of an argument more than once, and so copy it. As long as the field
has words this makes the phrase longer, but copies of an empty field come for free, and if the field
that reads them is a part of the copied one again then there is no end to them.

- `Concrete.Elides`: a field is empty, and a field of an argument is a part of it.
- `Concrete.Sparing`: no copy of an empty part leads back to where it is copied.
- `Concrete.Sparing.count_reads_le`: then there is a bound on how often a field is read, which goes
  up with every copy on the way to the field but depends on nothing else.
-/

namespace Polyglot

namespace Concrete

variable (c : Concrete)

/-- An instance has a field. -/
def HasField (id : InstanceId) (field : Nat) : Prop :=
  ∃ n, c.fieldCount? id = some n ∧ field < n

/-- What a production reads of an argument for all fields of the instance that it makes. -/
def readsAll (id : InstanceId) (p : Production) (arg : Nat) : List Nat :=
  c.reads p (List.range ((c.fieldCount? id).getD 0)) arg

/-- A production makes an instance with an empty field, and for this field reads one of an
argument. -/
structure Elides (id : InstanceId) (field : Nat) (p : Production) (arg : Nat) (id' : InstanceId)
    (field' : Nat) : Prop where
  hasField : c.HasField id field
  phrase : ∃ fields parts, field ∈ fields ∧ c.Makes id fields (.node p parts) ∧
    (Phrase.node p parts).Yields c Variants.forms field []
  part : p.args[arg]? = some id'
  read : field' ∈ c.reads p [field] arg

/-- A field of an instance is empty in some phrase, and the other one is a part of it there. -/
def EmptyPart (x y : InstanceId × Nat) : Prop := ∃ p arg, c.Elides x.1 x.2 p arg y.1 y.2

/-- No part of an empty field that is read more than once leads back to this field. This is enough
for parses to end, but not needed: reads are counted over all fields of an instance together, so
that a production whose fields read the same one once each counts as copying it, although its parses
may end. -/
def Sparing : Prop :=
  ∀ id field p arg id' field', c.Elides id field p arg id' field' →
    1 < (c.readsAll id p arg).count field' →
    ¬ Relation.ReflTransGen c.EmptyPart (id', field') (id, field)

variable {c}

/-- The arguments of a production have the fields that it reads of them. -/
theorem WellFormed.hasField (hwf : c.WellFormed) {id : InstanceId} {p : Production}
    (hp : p ∈ c.productionsOf id) {field : Nat} (hfield : c.HasField id field) {arg field' : Nat}
    {id' : InstanceId} (harg : p.args[arg]? = some id') (hmem : field' ∈ c.reads p [field] arg) :
    c.HasField id' field' := by
  obtain ⟨n, hn, hlt⟩ := hfield
  obtain ⟨body, hbody, hsubs⟩ := hwf id p hp n hn field hlt
  rw [reads_cons hbody, reads_nil, List.append_nil] at hmem
  obtain ⟨x, hx, hread⟩ := List.mem_filterMap.1 hmem
  obtain rfl : x = .sub arg field' := by
    cases x <;> simp_all [Constituent.fieldOf?]
  obtain ⟨id'', n', harg', hn', hlt'⟩ := hsubs arg field' hx
  cases harg.symm.trans harg'
  exact ⟨n', hn', hlt'⟩

/-- A syntax is sparing if each argument is read without copies, or is an instance of plain words
that nothing else is a part of. -/
theorem sparing_of_plain_copies
    (h : ∀ e ∈ c.allProductions, ∀ x ∈ e.2.args.zipIdx, (c.readsAll e.1 e.2 x.2).Nodup ∨
      e.1 ≠ x.1 ∧ ∀ p ∈ c.productionsOf x.1, p.args = []) : c.Sparing := by
  intro id field p arg id' field' helides hmany hback
  obtain ⟨fields, parts, -, hmakes, -⟩ := helides.phrase
  cases hmakes with
  | node hp =>
    have harg := List.mem_zipIdx_iff_getElem?.2 (show p.args[(id', arg).2]? = some (id', arg).1 from
      helides.part)
    rcases h _ (mem_allProductions.2 hp) _ harg with hnodup | ⟨hne, hplain⟩
    · exact absurd (List.nodup_iff_count_le_one.1 hnodup field') (Nat.not_le_of_lt hmany)
    · rcases Relation.ReflTransGen.cases_head hback with heq | ⟨y, ⟨p', arg', hpart⟩, -⟩
      · exact hne (congrArg Prod.fst heq).symm
      · -- A field of plain words has no parts.
        obtain ⟨_, _, -, hmakes', -⟩ := hpart.phrase
        cases hmakes' with
        | node hp' =>
          have hpart' := hpart.part
          rw [hplain _ hp'] at hpart'
          cases hpart'

/-! ## There are so many fields -/

/-- An instance with fields is built in or one of the syntax. -/
theorem HasField.mem_ids {id : InstanceId} {field : Nat} (h : c.HasField id field) :
    id ∈ [InstanceId.string, .int, .float, .var] ++
      (List.range c.instances.length).map InstanceId.ofIndex := by
  obtain ⟨n, hn, -⟩ := h
  rw [fieldCount?] at hn
  rw [List.mem_append]
  by_cases hlit : id.isLiteral = true
  · left
    obtain ⟨val⟩ := id
    obtain ⟨hvar, hstring⟩ := Bool.and_eq_true_iff.1 hlit
    have hvar : -4 ≤ val := of_decide_eq_true hvar
    have hstring : val ≤ -1 := of_decide_eq_true hstring
    simp only [InstanceId.string, InstanceId.int, InstanceId.float, InstanceId.var,
      List.mem_cons, List.not_mem_nil, or_false, InstanceId.mk.injEq]
    omega
  · right
    rw [if_neg hlit] at hn
    obtain ⟨inst, hinst, -⟩ := Option.map_eq_some_iff.1 hn
    obtain ⟨i, hi, hi'⟩ := Option.bind_eq_some_iff.1 hinst
    rw [InstanceId.index?_eq_some_iff.1 hi]
    exact List.mem_map_of_mem (List.mem_range.2 (List.getElem?_eq_some_iff.1 hi').1)

variable (c) in
theorem finite_fields : {x : InstanceId × Nat | c.HasField x.1 x.2}.Finite := by
  let ids := [InstanceId.string, .int, .float, .var] ++
    (List.range c.instances.length).map InstanceId.ofIndex
  refine ((List.finite_toSet ids).biUnion fun id _ =>
    (Set.finite_lt_nat ((c.fieldCount? id).getD 0)).image (Prod.mk id)).subset ?_
  rintro ⟨id, field⟩ h
  obtain ⟨n, hn, hlt⟩ := h
  have hid : id ∈ ids := HasField.mem_ids ⟨n, hn, hlt⟩
  refine Set.mem_biUnion (show id ∈ {x | x ∈ ids} from hid) ⟨field, ?_, rfl⟩
  simpa [hn] using hlt

/-- The productions of a syntax read no more than so much. -/
theorem exists_length_readsAll_le (c : Concrete) :
    ∃ most, ∀ id p, p ∈ c.productionsOf id → ∀ arg, (c.readsAll id p arg).length ≤ most := by
  let size (e : InstanceId × Production) : Nat :=
    ((List.range ((c.fieldCount? e.1).getD 0)).map
      fun field => ((c.body? e.2 field).getD []).length).sum
  refine ⟨(c.allProductions.map size).sum, fun id p hp arg => ?_⟩
  refine Nat.le_trans ?_ (List.single_le_sum (fun _ _ => Nat.zero_le _) _
    (List.mem_map_of_mem (f := size) (mem_allProductions.2 hp)))
  rw [readsAll, reads, List.length_flatMap]
  exact List.sum_le_sum fun field _ => List.length_filterMap_le ..

/-! ## How many copies there are on the way to a field -/

variable (c) in
/-- How many fields a field may be a part of while they are empty, and one more. -/
noncomputable def weight (x : InstanceId × Nat) : Nat :=
  {y | c.HasField y.1 y.2 ∧ Relation.ReflTransGen c.EmptyPart y x}.ncard + 1

theorem weight_le_of_part {x y : InstanceId × Nat} (h : c.EmptyPart x y) :
    c.weight x ≤ c.weight y := by
  refine Nat.succ_le_succ (Set.ncard_le_ncard ?_ (c.finite_fields.subset fun _ hy => hy.1))
  exact fun z ⟨hz, hzx⟩ => ⟨hz, hzx.tail h⟩

/-- A part of an empty field that does not lead back weighs more. -/
theorem weight_lt_of_part {x y : InstanceId × Nat} (h : c.EmptyPart x y)
    (hy : c.HasField y.1 y.2) (hback : ¬ Relation.ReflTransGen c.EmptyPart y x) :
    c.weight x < c.weight y := by
  refine Nat.succ_lt_succ (Set.ncard_lt_ncard ⟨?_, fun hsub => ?_⟩
    (c.finite_fields.subset fun _ hy => hy.1))
  · exact fun z ⟨hz, hzx⟩ => ⟨hz, hzx.tail h⟩
  · exact hback (hsub ⟨hy, .refl⟩).2

theorem weight_le (c : Concrete) (x : InstanceId × Nat) :
    c.weight x ≤ {y : InstanceId × Nat | c.HasField y.1 y.2}.ncard + 1 :=
  Nat.succ_le_succ (Set.ncard_le_ncard (fun _ hy => hy.1) c.finite_fields)

/-! ## How often a field is read -/

/-- A bound on how often a field is read at one position, if no production reads an argument more
than `most` times. -/
noncomputable def quota (c : Concrete) (most : Nat) (x : InstanceId × Nat) : Nat :=
  (3 * most + 3) ^ c.weight x

theorem three_le_quota (most : Nat) (x : InstanceId × Nat) : 3 ≤ c.quota most x := by
  refine Nat.le_trans (Nat.le_add_left 3 (3 * most)) ?_
  exact Nat.le_self_pow (Nat.succ_ne_zero _) _

/-- What is read for the members of a list, if none of them that counts comes up often. -/
theorem count_flatMap_le {r : Nat → List Nat} {l : List Nat} {n m a : Nat}
    (hl : ∀ f ∈ l, f < n) (hm : ∀ f, a ∈ r f → l.count f ≤ m) :
    (l.flatMap r).count a ≤ ((List.range n).flatMap r).count a * m := by
  have hrange : ((List.range n).map (List.count a ∘ r)).sum =
      ∑ f ∈ Finset.range n, (r f).count a := by
    rw [← List.toFinset_range, List.sum_toFinset _ List.nodup_range]
    rfl
  rw [List.count_flatMap, List.count_flatMap, hrange, Finset.sum_list_map_count, Finset.sum_mul]
  calc ∑ f ∈ l.toFinset, l.count f • (List.count a ∘ r) f
    _ ≤ ∑ f ∈ l.toFinset, (r f).count a * m := by
      refine Finset.sum_le_sum fun f _ => ?_
      rw [smul_eq_mul, Nat.mul_comm]
      by_cases ha : a ∈ r f
      · exact Nat.mul_le_mul_left _ (hm f ha)
      · simp [List.count_eq_zero_of_not_mem ha]
    _ ≤ ∑ f ∈ Finset.range n, (r f).count a * m := by
      refine Finset.sum_le_sum_of_subset fun f hf => ?_
      exact Finset.mem_range.2 (hl f (List.mem_toFinset.1 hf))

/-- **Where no copy leads back, fields are read so often and no more**: if for some fields of an
instance, each of which is there three times or is empty and within its own quota, a production
reads those of an argument, then these are within their quota too. -/
theorem Sparing.count_reads_le (hwf : c.WellFormed) (hs : c.Sparing) {most : Nat}
    (hmost : ∀ id p, p ∈ c.productionsOf id → ∀ arg, (c.readsAll id p arg).length ≤ most)
    {id : InstanceId} {p : Production} (hp : p ∈ c.productionsOf id) {arg : Nat}
    {id' : InstanceId} (harg : p.args[arg]? = some id') {l : List Nat} {field' : Nat}
    (hl : ∀ field ∈ l, c.HasField id field)
    (hcount : ∀ field ∈ l, field' ∈ c.reads p [field] arg → l.count field ≤ 3 ∨
      c.Elides id field p arg id' field' ∧ l.count field ≤ c.quota most (id, field)) :
    (c.reads p l arg).count field' ≤ c.quota most (id', field') := by
  let copies := (c.readsAll id p arg).count field'
  have hcopies : copies ≤ most := Nat.le_trans List.count_le_length (hmost id p hp arg)
  have hl' : ∀ field ∈ l, field < (c.fieldCount? id).getD 0 := by
    intro field hfield
    obtain ⟨n, hn, hlt⟩ := hl field hfield
    rwa [hn]
  -- It is enough to bound how often a field is there for which the other one is read.
  suffices h : ∃ m, (∀ field ∈ l, field' ∈ c.reads p [field] arg → l.count field ≤ m) ∧
      copies * m ≤ c.quota most (id', field') by
    obtain ⟨m, hm, hle⟩ := h
    refine Nat.le_trans (count_flatMap_le hl' fun field hread => ?_) hle
    by_cases hfield : field ∈ l
    · exact hm field hfield (by simpa [reads] using hread)
    · simp [List.count_eq_zero_of_not_mem hfield]
  rcases Nat.lt_or_ge 1 copies with hmany | hone
  · -- A copy: what is empty and reads it weighs less.
    obtain ⟨w, hw⟩ : ∃ w, c.weight (id', field') = w + 1 := ⟨_, rfl⟩
    refine ⟨3 * (3 * most + 3) ^ w, fun field hfield hread => ?_, ?_⟩
    · have hpos : 0 < (3 * most + 3) ^ w := Nat.pow_pos (Nat.succ_pos _)
      rcases hcount field hfield hread with hle | ⟨helides, hle⟩
      · omega
      · have hlt : c.weight (id, field) < c.weight (id', field') :=
          weight_lt_of_part ⟨p, arg, helides⟩ (hwf.hasField hp (hl field hfield) harg hread)
            (hs _ _ _ _ _ _ helides hmany)
        have hpow : c.quota most (id, field) ≤ (3 * most + 3) ^ w :=
          Nat.pow_le_pow_right (Nat.succ_pos _) (by omega)
        omega
    · rw [quota, hw, Nat.pow_succ, Nat.mul_comm _ (3 * most + 3), ← Nat.mul_assoc]
      exact Nat.mul_le_mul_right _ (by omega)
  · -- Read once, a field is there as often as the one that reads it.
    refine ⟨c.quota most (id', field'), fun field hfield hread => ?_, ?_⟩
    · rcases hcount field hfield hread with hle | ⟨helides, hle⟩
      · exact Nat.le_trans hle (three_le_quota most _)
      · exact Nat.le_trans hle (Nat.pow_le_pow_right (Nat.succ_pos _)
          (weight_le_of_part ⟨p, arg, helides⟩))
    · exact Nat.le_trans (Nat.mul_le_mul_right _ hone) (Nat.le_of_eq (Nat.one_mul _))

end Concrete

end Polyglot
