import Polyglot.Proofs.Grammar.Made
import Polyglot.Proofs.Lists

/-!
# Declarations on record

A declaration of a concrete syntax either names an instance, and then it adds productions to it and
makes nothing, or it names none, and then what it makes is put at the end of what there is. So the
syntax stays what its declarations made of it.

- `ConcreteDraft.declare_of_target?`, `ConcreteDraft.instances_declare`: the two kinds of
  declarations.
- `Concrete.Gathers.add`: a declaration of a category makes instances for it, and for no other.
- `ConcreteDraft.grows_declare`: no declaration takes anything away.
- `Concrete.Records.declare`: one more declaration is recorded.
- `Concrete.Records.declareAll`: and so are all of them, if they are in order.
-/

namespace Polyglot

namespace ConcreteDraft

variable {c : Concrete} {d : ConcreteDraft} {x : ConcreteDeclaration}

/-- A declaration that names an instance adds productions to it and makes nothing. -/
theorem declare_of_target? {id : InstanceId} (h : x.target? = some id) :
    d.declare x = (.nothing, d.addProductions id (x.added id)) := by
  cases x with
  | apply other fn args =>
    obtain rfl : other = id := Option.some.inj h
    simp [declare, ConcreteDeclaration.added]
  | coerce other target =>
    obtain rfl : other = id := Option.some.inj h
    simp [declare, ConcreteDeclaration.added]
  | markKnown other =>
    obtain rfl : other = id := Option.some.inj h
    simp [declare, ConcreteDeclaration.added]
  | _ => cases h

/-- A sequence is added unless it is there, and its id stands for it. -/
theorem sequences_addSequence (hnodup : c.sequences.Nodup) (s : Sequence) :
    c.sequences <+: (addSequence c s).2.sequences ∧ (addSequence c s).2.sequences.Nodup ∧
      (addSequence c s).2.sequence? (addSequence c s).1 = some s := by
  unfold addSequence
  split
  · rename_i i hi
    obtain ⟨hlt, heq, -⟩ := List.findIdx?_eq_some_iff_getElem.1 hi
    refine ⟨List.prefix_rfl, hnodup, ?_⟩
    show c.sequences[i]? = some s
    rw [List.getElem?_eq_getElem hlt, eq_of_beq heq]
  · rename_i hnone
    have hnew : s ∉ c.sequences := by
      intro hs
      simpa using List.findIdx?_eq_none_iff.1 hnone s hs
    refine ⟨List.prefix_append .., ?_, ?_⟩
    · exact List.nodup_append.2 ⟨hnodup, List.nodup_singleton s, by grind⟩
    · show (c.sequences ++ [s])[c.sequences.length]? = some s
      exact List.getElem?_concat_length

/-- Several sequences are added one after the other, and their ids stand for them. -/
theorem sequences_addSequences (hnodup : c.sequences.Nodup) (ss : List Sequence) :
    c.sequences <+: (addSequences c ss).2.sequences ∧ (addSequences c ss).2.sequences.Nodup ∧
      List.Forall₂ (fun s seq => (addSequences c ss).2.sequence? seq = some s) ss
        (addSequences c ss).1 := by
  induction ss generalizing c with
  | nil => exact ⟨List.prefix_rfl, hnodup, .nil⟩
  | cons s ss ih =>
    obtain ⟨hgrows, hnodup', hfirst⟩ := sequences_addSequence hnodup s
    obtain ⟨hgrows', hnodup'', hrest⟩ := ih hnodup'
    exact ⟨hgrows.trans hgrows', hnodup'', .cons (getElem?_of_isPrefix hgrows' hfirst) hrest⟩

theorem funs_addSequence (c : Concrete) (s : Sequence) : (addSequence c s).2.funs = c.funs := by
  unfold addSequence
  split <;> rfl

theorem funs_addSequences (c : Concrete) (ss : List Sequence) :
    (addSequences c ss).2.funs = c.funs := by
  induction ss generalizing c with
  | nil => rfl
  | cons s ss ih => exact (ih _).trans (funs_addSequence c s)

/-! ### Instances -/

/-- A declaration that names no instance puts those that it makes at the end. -/
theorem instances_declare (h : x.target? = none) : ∃ new,
    (d.declare x).2.concrete.instances = d.concrete.instances ++ new ∧
      (d.declare x).1.instanceIds = (List.range new.length).map
        (fun i => .ofIndex (d.concrete.instances.length + i)) ∧
      ∀ inst ∈ new, (inst.productions = none ↔ ∀ targets, x ≠ .coercion targets) ∧
        inst.productions.getD [] = x.takenOver := by
  have hnone : ∀ {instances : List Instance} {made : Made}, instances = d.concrete.instances →
      made.instanceIds = [] → ∃ new, instances = d.concrete.instances ++ new ∧
        made.instanceIds = (List.range new.length).map
          (fun i => .ofIndex (d.concrete.instances.length + i)) ∧
        ∀ inst ∈ new, (inst.productions = none ↔ ∀ targets, x ≠ .coercion targets) ∧
          inst.productions.getD [] = x.takenOver := by
    intro instances made hinstances hmade
    refine ⟨[], hinstances.trans (List.append_nil _).symm, hmade, fun inst hinst => ?_⟩
    exact absurd hinst List.not_mem_nil
  cases x with
  | flag name value => exact hnone rfl rfl
  | category name count labels =>
    refine ⟨_, Concrete.instances_addToCategory .., ?_, fun inst hinst => ?_⟩
    · simp [declare, addCategory, Made.instanceIds]
    · rw [List.eq_of_mem_replicate hinst]
      exact ⟨iff_of_true rfl (by simp), rfl⟩
  | coercion targets =>
    have hadd : ∃ cat n, addCoercion d.concrete targets =
        addInstance d.concrete ⟨cat, n, some (targets.map .coerce)⟩ := by
      unfold addCoercion
      split <;> exact ⟨_, _, rfl⟩
    obtain ⟨cat, n, hadd⟩ := hadd
    refine ⟨[⟨cat, n, some (targets.map .coerce)⟩], ?_, ?_, fun inst hinst => ?_⟩
    · simp [declare, hadd, addInstance]
    · simp [declare, hadd, addInstance, Made.instanceIds]
    · rw [List.mem_singleton.1 hinst]
      exact ⟨iff_of_false (by simp) fun h => h targets rfl, rfl⟩
  | sequence written => exact hnone (addSequence_spec d.concrete _).2.2 rfl
  | function name fields => exact hnone rfl rfl
  | functionWith name fields => exact hnone (addSequences_spec d.concrete _).2.2 rfl
  | _ => cases h

theorem instance?_ofIndex (c : Concrete) (i : Nat) :
    c.instance? (.ofIndex i) = c.instances[i]? := by
  rw [Concrete.instance?, InstanceId.index?_ofIndex, Option.bind_some]

/-- Adding productions changes those of one instance and nothing else of any. -/
theorem instance?_addProductions {id : InstanceId} (hid : id.Below d.concrete.instances.length)
    (ps : List Production) (other : InstanceId) :
    (d.addProductions id ps).concrete.instance? other =
      (d.concrete.instance? other).map fun inst =>
        if other = id then { inst with productions := some (inst.productions.getD [] ++ ps) }
        else inst := by
  obtain ⟨i, hi, rfl⟩ := hid
  have hadd : (d.addProductions (.ofIndex i) ps).concrete.instances =
      d.concrete.instances.modify i fun inst =>
        { inst with productions := some (inst.productions.getD [] ++ ps) } := by
    simp [addProductions, hi]
  rw [Concrete.instance?, Concrete.instance?, hadd]
  cases hindex : other.index? with
  | none => rfl
  | some j =>
    obtain rfl := InstanceId.index?_eq_some_iff.1 hindex
    have hsame : InstanceId.ofIndex j = InstanceId.ofIndex i ↔ i = j := by
      simp [InstanceId.ofIndex, eq_comm]
    rw [Option.bind_some, Option.bind_some, List.getElem?_modify]
    by_cases hij : i = j
    · simp [hij]
    · simp [hsame, hij]

/-! ### Functions and sequences -/

/-- Functions are put at the end. -/
theorem funs_declare (d : ConcreteDraft) (x : ConcreteDeclaration) : ∃ new,
    (d.declare x).2.concrete.funs = d.concrete.funs ++ new ∧
      (d.declare x).1.functionIds =
        (List.range new.length).map (fun i => ⟨d.concrete.funs.length + i⟩) := by
  have hnone : ∀ {c' : Concrete} {made : Made}, c'.funs = d.concrete.funs →
      made.functionIds = [] → ∃ new, c'.funs = d.concrete.funs ++ new ∧
        made.functionIds =
          (List.range new.length).map (fun i => ⟨d.concrete.funs.length + i⟩) :=
    fun hfuns hmade => ⟨[], hfuns.trans (List.append_nil _).symm, hmade⟩
  have hproductions : ∀ id ps, (d.addProductions id ps).concrete.funs = d.concrete.funs := by
    intro id ps
    unfold addProductions
    split
    · split <;> rfl
    · rfl
  cases x with
  | flag name value => exact hnone rfl rfl
  | category name count labels =>
    refine hnone ?_ rfl
    simp only [declare, addCategory, addToCategory]
    split <;> rfl
  | coercion targets =>
    refine hnone ?_ rfl
    simp only [declare, addCoercion]
    split <;> rfl
  | sequence written => exact hnone (funs_addSequence ..) rfl
  | function name fields => exact ⟨[_], rfl, rfl⟩
  | functionWith name fields =>
    refine ⟨[⟨_, _⟩], congrArg (· ++ [_]) (funs_addSequences d.concrete _), ?_⟩
    simp [declare, addFunction, Made.functionIds, funs_addSequences]
  | apply id fn args => exact hnone (hproductions ..) rfl
  | coerce id target => exact hnone (hproductions ..) rfl
  | markKnown id => exact hnone (hproductions ..) rfl

/-- Sequences are added and stay distinct. -/
theorem sequences_declare (hnodup : d.concrete.sequences.Nodup) (x : ConcreteDeclaration) :
    d.concrete.sequences <+: (d.declare x).2.concrete.sequences ∧
      (d.declare x).2.concrete.sequences.Nodup := by
  have hsame : ∀ {c' : Concrete}, c'.sequences = d.concrete.sequences →
      d.concrete.sequences <+: c'.sequences ∧ c'.sequences.Nodup := by
    intro c' heq
    rw [heq]
    exact ⟨List.prefix_rfl, hnodup⟩
  cases x with
  | flag name value => exact hsame rfl
  | category name count labels =>
    refine hsame ?_
    simp only [declare, addCategory, addToCategory]
    split <;> rfl
  | coercion targets =>
    refine hsame ?_
    simp only [declare, addCoercion]
    split <;> rfl
  | sequence written =>
    obtain ⟨hgrows, hnodup', -⟩ := sequences_addSequence hnodup (internSequence d.symbols written).1
    exact ⟨hgrows, hnodup'⟩
  | function name fields => exact hsame rfl
  | functionWith name fields =>
    obtain ⟨hgrows, hnodup', -⟩ :=
      sequences_addSequences hnodup (internSequences d.symbols fields).1
    exact ⟨hgrows, hnodup'⟩
  | apply id fn args => exact hsame (sequences_addProductions d id _).1
  | coerce id target => exact hsame (sequences_addProductions d id _).1
  | markKnown id => exact hsame (sequences_addProductions d id _).1

/-- No declaration takes anything away. -/
theorem grows_declare (hnodup : d.concrete.sequences.Nodup)
    (hx : ∀ id, x.target? = some id → id.Below d.concrete.instances.length) :
    d.concrete.Grows (d.declare x).2.concrete := by
  obtain ⟨newFuns, hfuns, -⟩ := funs_declare d x
  refine ⟨fun id inst hinst => ?_, hfuns ▸ List.prefix_append .., (sequences_declare hnodup x).1⟩
  cases htarget : x.target? with
  | none =>
    obtain ⟨new, hinstances, -⟩ := instances_declare (d := d) htarget
    obtain ⟨i, hi, hget⟩ := Option.bind_eq_some_iff.1 hinst
    have hprefix : d.concrete.instances <+: (d.declare x).2.concrete.instances :=
      hinstances ▸ List.prefix_append ..
    refine ⟨inst, ?_, rfl, rfl⟩
    rw [Concrete.instance?, hi, Option.bind_some, getElem?_of_isPrefix hprefix hget]
  | some target =>
    rw [declare_of_target? htarget]
    have hinst' := instance?_addProductions (hx target htarget) (x.added target) id
    rw [hinst, Option.map_some] at hinst'
    refine ⟨_, hinst', ?_⟩
    split <;> exact ⟨rfl, rfl⟩

/-! ### What was made -/

/-- What a declaration makes is there, and is what was declared. -/
theorem holds_declare (hnodup : d.concrete.sequences.Nodup) (x : ConcreteDeclaration) :
    (d.declare x).2.concrete.Holds (d.declare x).2.symbols x (d.declare x).1 := by
  cases x with
  | flag name value => exact .flag name value
  | category name count labels =>
    refine .category (d.symbols.find?_intern name) (by simp) fun id hid => ?_
    obtain ⟨i, hi, rfl⟩ := List.mem_map.1 hid
    refine ⟨⟨some (d.symbols.intern name).1, labels.length, none⟩, ?_, rfl, rfl⟩
    rw [instance?_ofIndex]
    show (addToCategory _ _ _ _).instances[_]? = _
    rw [Concrete.instances_addToCategory, List.getElem?_append_right (Nat.le_add_right _ i),
      Nat.add_sub_cancel_left, List.getElem?_replicate, if_pos (List.mem_range.1 hi)]
    rfl
  | coercion targets =>
    have hadd : ∃ inst, addCoercion d.concrete targets = addInstance d.concrete inst := by
      unfold addCoercion
      split <;> exact ⟨_, rfl⟩
    obtain ⟨inst, hadd⟩ := hadd
    have hinst : (addCoercion d.concrete targets).2.instance? (addCoercion d.concrete targets).1 =
        some inst := by
      rw [hadd]
      exact (instance?_ofIndex ..).trans List.getElem?_concat_length
    exact .coercion targets hinst
  | sequence written =>
    obtain ⟨-, -, hseq⟩ := sequences_addSequence hnodup (internSequence d.symbols written).1
    exact .sequence ⟨_, hseq, spelled_internSequence d.symbols written⟩
  | function name fields =>
    exact .function (f := ⟨_, fields⟩) List.getElem?_concat_length (d.symbols.find?_intern name)
  | functionWith name fields =>
    obtain ⟨-, -, hseqs⟩ := sequences_addSequences hnodup (internSequences d.symbols fields).1
    have hextends := (internSequences d.symbols fields).2.extends_intern name
    refine .functionWith (f := ⟨_, _⟩) List.getElem?_concat_length
      (SymbolStore.find?_intern _ name) ?_
    -- The sequences were written so, and their ids stand for them.
    refine forall₂_comp (spelled_internSequences d.symbols fields) hseqs ?_
    exact fun written s seq hspelled hs => ⟨s, hs, hspelled.mono hextends⟩
  | apply id fn args => exact .apply id fn args
  | coerce id target => exact .coerce id target
  | markKnown id => exact .markKnown id

/-- What declares no category leaves the categories as they are. -/
theorem cats_declare (hx : ∀ name count labels, x ≠ .category name count labels) :
    (d.declare x).2.concrete.cats = d.concrete.cats := by
  cases x with
  | category name count labels => exact absurd rfl (hx name count labels)
  | coercion targets =>
    simp only [declare, addCoercion]
    split <;> rfl
  | sequence written => exact (addSequence_spec d.concrete _).2.1
  | functionWith name fields => exact (addSequences_spec d.concrete _).2.1
  | apply id fn args => exact (fieldsLast_addProductions d id _).2
  | coerce id target => exact (fieldsLast_addProductions d id _).2
  | markKnown id => exact (fieldsLast_addProductions d id _).2
  | _ => rfl

end ConcreteDraft

/-! ## The record goes on -/

namespace Concrete

open ConcreteDraft

variable {ds : List ConcreteDeclaration} {mades : List Made} {d : ConcreteDraft}
  {x : ConcreteDeclaration}

/-- An instance that was made is one of those that are there. -/
theorem Records.below (h : d.concrete.Records d.symbols ds mades) {maker : ConcreteDeclaration}
    {made : Made} (hmem : (maker, made) ∈ ds.zip mades) {id : InstanceId}
    (hid : id ∈ made.instanceIds) : id.Below d.concrete.instances.length := by
  have hall : id ∈ mades.flatMap Made.instanceIds :=
    List.mem_flatMap.2 ⟨made, (List.of_mem_zip hmem).2, hid⟩
  rw [h.instances] at hall
  obtain ⟨i, hi, rfl⟩ := List.mem_map.1 hall
  exact ⟨i, List.mem_range.1 hi, rfl⟩

/-- The productions of an instance stay what they are when another one is declared something. -/
theorem Produces.keep {c c' : Concrete} {maker : ConcreteDeclaration} {id : InstanceId}
    (h : c.Produces ds maker id) (heq : c'.productions? id = c.productions? id)
    (hx : x.target? ≠ some id) : c'.Produces (ds ++ [x]) maker id := by
  refine ⟨?_, ?_⟩
  · rw [heq, h.unknown]
    refine and_congr_right fun _ => ⟨fun hall y hy => ?_, fun hall y hy => ?_⟩
    · rcases List.mem_append.1 hy with hy | hy
      · exact hall y hy
      · exact List.mem_singleton.1 hy ▸ hx
    · exact hall y (List.mem_append_left _ hy)
  · rw [productionsOf, heq, List.flatMap_append, List.flatMap_singleton,
      ConcreteDeclaration.added_eq_nil hx, List.append_nil]
    exact h.listed

/-- What is added to an instance comes after what it has. -/
theorem Produces.add {c c' : Concrete} {maker : ConcreteDeclaration} {id : InstanceId}
    (h : c.Produces ds maker id)
    (heq : c'.productions? id = some (c.productionsOf id ++ x.added id))
    (hx : x.target? = some id) : c'.Produces (ds ++ [x]) maker id := by
  refine ⟨iff_of_false (by simp [heq]) fun hall => ?_, ?_⟩
  · exact hall.2 x (List.mem_append_right _ (List.mem_singleton_self x)) hx
  · rw [productionsOf, heq, Option.getD_some, h.listed, List.append_assoc, List.flatMap_append,
      List.flatMap_singleton]

/-- An instance that is new has what it was made with, as nothing named it before. -/
theorem Records.produces_new {c' : Concrete} (h : d.concrete.Records d.symbols ds mades)
    (htarget : x.target? = none) {new : List Instance}
    (hinstances : c'.instances = d.concrete.instances ++ new) {i : Nat} (hi : i < new.length)
    (hunknown : new[i].productions = none ↔ ∀ targets, x ≠ .coercion targets)
    (hlisted : new[i].productions.getD [] = x.takenOver) :
    c'.Produces (ds ++ [x]) x (.ofIndex (d.concrete.instances.length + i)) := by
  have hget : c'.productions? (.ofIndex (d.concrete.instances.length + i)) =
      new[i].productions := by
    rw [productions?, instance?_ofIndex, hinstances,
      List.getElem?_append_right (Nat.le_add_right _ i), Nat.add_sub_cancel_left,
      List.getElem?_eq_getElem hi, Option.bind_some]
  have htargets : ∀ y ∈ ds ++ [x],
      y.target? ≠ some (.ofIndex (d.concrete.instances.length + i)) := by
    intro y hy hcontra
    rcases List.mem_append.1 hy with hy | hy
    · obtain ⟨j, hj, heq⟩ := h.targets y hy _ hcontra
      simp only [InstanceId.ofIndex, InstanceId.mk.injEq] at heq
      omega
    · rw [List.mem_singleton.1 hy, htarget] at hcontra
      cases hcontra
  refine ⟨?_, ?_⟩
  · rw [hget, hunknown]
    exact (and_iff_left htargets).symm
  · have hadded : (ds ++ [x]).flatMap
        (·.added (.ofIndex (d.concrete.instances.length + i))) = [] :=
      List.flatMap_eq_nil_iff.2 fun y hy => ConcreteDeclaration.added_eq_nil (htargets y hy)
    rw [productionsOf, hget, hlisted, hadded, List.append_nil]

/-- The productions that are known of an instance, after one more declaration. -/
theorem Records.produces_declare (h : d.concrete.Records d.symbols ds mades)
    (hx : ∀ id, x.target? = some id → id.Below d.concrete.instances.length)
    {maker : ConcreteDeclaration} {made : Made}
    (hmem : (maker, made) ∈ (ds ++ [x]).zip (mades ++ [(d.declare x).1])) {id : InstanceId}
    (hid : id ∈ made.instanceIds) :
    (d.declare x).2.concrete.Produces (ds ++ [x]) maker id := by
  rw [List.zip_append h.held.length_eq, List.mem_append, List.zip_cons_cons, List.zip_nil_left,
    List.mem_singleton] at hmem
  cases htarget : x.target? with
  | some target =>
    have hdeclare := declare_of_target? (d := d) htarget
    have hadd := fun id => instance?_addProductions (hx target htarget) (x.added target) id
    rw [hdeclare] at hmem ⊢
    rcases hmem with hmem | heq
    · have hproduces := h.productions maker made hmem id hid
      by_cases hsame : id = target
      · subst hsame
        refine hproduces.add ?_ htarget
        obtain ⟨i, hi, rfl⟩ := h.below hmem hid
        rw [productions?, hadd, productionsOf, productions?, instance?_ofIndex,
          List.getElem?_eq_getElem hi]
        simp
      · refine hproduces.keep ?_ fun heq => hsame (Option.some.inj (heq.symm.trans htarget))
        rw [productions?, hadd, productions?]
        simp [hsame]
    · cases heq
      cases hid
  | none =>
    obtain ⟨new, hinstances, hids, hnew⟩ := instances_declare (d := d) htarget
    rcases hmem with hmem | heq
    · refine (h.productions maker made hmem id hid).keep ?_ (by simp [htarget])
      obtain ⟨i, hi, rfl⟩ := h.below hmem hid
      rw [productions?, productions?, instance?_ofIndex, instance?_ofIndex, hinstances,
        List.getElem?_append_left hi]
    · cases heq
      rw [hids] at hid
      obtain ⟨i, hi, rfl⟩ := List.mem_map.1 hid
      have hi : i < new.length := List.mem_range.1 hi
      obtain ⟨hunknown, hlisted⟩ := hnew _ (List.getElem_mem hi)
      exact h.produces_new htarget hinstances hi hunknown hlisted

/-! ### Categories -/

section Categories

variable {symbols symbols' : SymbolStore} {log : List (ConcreteDeclaration × Made)}
  {c c' : Concrete}

/-- What declares no category makes no instances for any. -/
theorem Gathers.keep (h : c.Gathers symbols log) (hextends : symbols.Extends symbols')
    (hcats : c'.cats = c.cats) (hx : ∀ name count labels, x ≠ .category name count labels)
    (made : Made) : c'.Gathers symbols' (log ++ [(x, made)]) := by
  refine ⟨fun k hk => ?_, fun name count labels made' hmem => ?_, hcats ▸ h.distinct⟩
  · obtain ⟨name, hname, hinstances⟩ := h.instances k (hcats ▸ hk)
    refine ⟨name, hextends.find? hname, ?_⟩
    have hnone : instancesMadeFor name [(x, made)] = [] := by
      refine instancesMadeFor_eq_nil fun p hp count labels => ?_
      rw [List.mem_singleton.1 hp]
      exact hx name count labels
    rw [instancesMadeFor_concat, hnone, List.append_nil, hinstances]
  · rcases List.mem_append.1 hmem with hmem | hmem
    · obtain ⟨k, hk, hname⟩ := h.declared name count labels made' hmem
      exact ⟨k, hcats ▸ hk, hextends.find? hname⟩
    · cases List.mem_singleton.1 hmem
      exact absurd rfl (hx name count labels)

theorem instancesMadeFor_singleton {name other : String} {count : Nat} {labels : List String}
    {ids : List InstanceId} :
    instancesMadeFor other [(.category name count labels, .instances ids)] =
      if name = other then ids else [] := by
  simp [instancesMadeFor, Made.instanceIds]

section Add

variable (h : c.Gathers symbols log) (hextends : symbols.Extends symbols') {name : String}
  {sym : Sym} (hname : symbols'.find? name = some sym) (count : Nat) (labels : List String)
  (ids : List InstanceId)
include h hextends hname

/-- A declaration of a category makes no instances for others. -/
theorem Gathers.exists_name_of_ne {k : ConcreteCategory} (hk : k ∈ c.cats) (hne : k.name ≠ sym) :
    ∃ name', symbols'.find? name' = some k.name ∧ k.instances = instancesMadeFor name'
      (log ++ [(.category name count labels, .instances ids)]) := by
  obtain ⟨name', hname', hinstances⟩ := h.instances k hk
  have hfind := hextends.find? hname'
  have hdiffer : name ≠ name' := by
    rintro rfl
    exact hne (Option.some.inj (hfind.symm.trans hname))
  refine ⟨name', hfind, ?_⟩
  rw [instancesMadeFor_concat, instancesMadeFor_singleton, if_neg hdiffer, List.append_nil,
    hinstances]

/-- A category that is there gets the instances. -/
theorem Gathers.append (hcats : c'.cats = c.cats.map fun k =>
      if k.name = sym then { k with instances := k.instances ++ ids } else k)
    (hany : ∃ k ∈ c.cats, k.name = sym) :
    c'.Gathers symbols' (log ++ [(.category name count labels, .instances ids)]) := by
  have hnames : ∀ k : ConcreteCategory,
      (if k.name = sym then { k with instances := k.instances ++ ids } else k).name = k.name := by
    intro k
    split <;> rfl
  refine ⟨fun k' hk' => ?_, fun name' count' labels' made hmem => ?_, ?_⟩
  · rw [hcats] at hk'
    obtain ⟨k, hk, rfl⟩ := List.mem_map.1 hk'
    by_cases hsame : k.name = sym
    · obtain ⟨name', hname', hinstances⟩ := h.instances k hk
      have hfind := hextends.find? hname'
      obtain rfl : name' = name := SymbolStore.eq_of_find? hfind (hsame ▸ hname)
      refine ⟨name', (hnames k).symm ▸ hfind, ?_⟩
      rw [if_pos hsame, instancesMadeFor_concat, instancesMadeFor_singleton, if_pos rfl,
        hinstances]
    · rw [if_neg hsame]
      exact h.exists_name_of_ne hextends hname count labels ids hk hsame
  · obtain ⟨k, hk, hfind⟩ : ∃ k ∈ c.cats, symbols'.find? name' = some k.name := by
      rcases List.mem_append.1 hmem with hmem | hmem
      · obtain ⟨k, hk, hfind⟩ := h.declared name' count' labels' made hmem
        exact ⟨k, hk, hextends.find? hfind⟩
      · cases List.mem_singleton.1 hmem
        obtain ⟨k, hk, hsame⟩ := hany
        exact ⟨k, hk, hsame ▸ hname⟩
    exact ⟨_, hcats ▸ List.mem_map_of_mem hk, (hnames k).symm ▸ hfind⟩
  · rw [hcats, List.map_map]
    exact (List.map_congr_left fun k _ => hnames k) ▸ h.distinct

/-- A category that is not there yet was not declared before. -/
theorem Gathers.concat (hcats : c'.cats = c.cats ++ [⟨sym, ids, labels⟩])
    (hany : ¬∃ k ∈ c.cats, k.name = sym) :
    c'.Gathers symbols' (log ++ [(.category name count labels, .instances ids)]) := by
  have hnew : instancesMadeFor name log = [] := by
    refine instancesMadeFor_eq_nil fun p hp count' labels' heq => hany ?_
    obtain ⟨y, made⟩ := p
    subst heq
    obtain ⟨k, hk, hfind⟩ := h.declared name count' labels' made hp
    exact ⟨k, hk, Option.some.inj ((hextends.find? hfind).symm.trans hname)⟩
  refine ⟨fun k hk => ?_, fun name' count' labels' made hmem => ?_, ?_⟩
  · rw [hcats] at hk
    rcases List.mem_append.1 hk with hk | hk
    · exact h.exists_name_of_ne hextends hname count labels ids hk fun heq => hany ⟨k, hk, heq⟩
    · rw [List.mem_singleton.1 hk]
      refine ⟨name, hname, ?_⟩
      rw [instancesMadeFor_concat, instancesMadeFor_singleton, if_pos rfl, hnew, List.nil_append]
  · rw [hcats]
    rcases List.mem_append.1 hmem with hmem | hmem
    · obtain ⟨k, hk, hfind⟩ := h.declared name' count' labels' made hmem
      exact ⟨k, List.mem_append_left _ hk, hextends.find? hfind⟩
    · cases List.mem_singleton.1 hmem
      exact ⟨_, List.mem_append_right _ (List.mem_singleton_self _), hname⟩
  · rw [hcats, List.map_append, List.nodup_append]
    refine ⟨h.distinct, List.nodup_singleton _, ?_⟩
    rintro a ha b hb rfl
    obtain ⟨k, hk, hsame⟩ := List.mem_map.1 ha
    exact hany ⟨k, hk, hsame.trans (List.mem_singleton.1 hb)⟩

/-- A declaration of a category makes instances for it, and for no other. -/
theorem Gathers.add (hcats : c'.cats = c.cats) :
    (addToCategory c' sym ids labels).Gathers symbols'
      (log ++ [(.category name count labels, .instances ids)]) := by
  unfold addToCategory
  rw [hcats]
  by_cases hany : ∃ k ∈ c.cats, k.name = sym
  · rw [if_pos (by simpa using hany)]
    exact h.append hextends hname count labels ids rfl hany
  · rw [if_neg (by simpa using hany)]
    exact h.concat hextends hname count labels ids rfl hany

end Add

end Categories

/-! ### The whole record -/

/-- One more declaration is recorded, unless it names an instance that was not made. -/
theorem Records.declare (h : d.concrete.Records d.symbols ds mades)
    (hknown : d.concrete.Known d.symbols)
    (hx : ∀ id, x.target? = some id → id.Below d.concrete.instances.length) :
    (d.declare x).2.concrete.Records (d.declare x).2.symbols (ds ++ [x])
      (mades ++ [(d.declare x).1]) := by
  have hextends := (known_declare hknown x).1
  have hzip : (ds ++ [x]).zip (mades ++ [(d.declare x).1]) =
      ds.zip mades ++ [(x, (d.declare x).1)] := List.zip_append h.held.length_eq
  have hlength := (declare_spec d x).2.1
  refine ⟨?_, ?_, ?_, (sequences_declare h.sequences x).2, ?_, ?_, ?_⟩
  · have hgrows := grows_declare h.sequences hx
    exact List.rel_append (h.held.imp fun _ _ hheld => hheld.mono hgrows hextends)
      (.cons (holds_declare h.sequences x) .nil)
  · rw [List.flatMap_append, h.instances, List.flatMap_singleton]
    cases htarget : x.target? with
    | none =>
      obtain ⟨new, hinstances, hids, -⟩ := instances_declare (d := d) htarget
      rw [hinstances, hids, List.length_append, List.range_add, List.map_append, List.map_map]
      rfl
    | some target =>
      rw [declare_of_target? htarget]
      show _ ++ [] = _
      rw [List.append_nil, (addProductions_spec d target _).2.1]
  · obtain ⟨new, hfuns, hids⟩ := funs_declare d x
    rw [List.flatMap_append, h.functions, List.flatMap_singleton, hfuns, hids,
      List.length_append, List.range_add, List.map_append, List.map_map]
    rfl
  · exact fun maker made hmem id hid => h.produces_declare hx hmem hid
  · intro y hy id hid
    obtain ⟨i, hi, rfl⟩ : id.Below d.concrete.instances.length := by
      rcases List.mem_append.1 hy with hy | hy
      · exact h.targets y hy id hid
      · exact hx id (List.mem_singleton.1 hy ▸ hid)
    exact ⟨i, by omega, rfl⟩
  · rw [hzip]
    by_cases hcategory : ∃ name count labels, x = .category name count labels
    · obtain ⟨name, count, labels, rfl⟩ := hcategory
      let start : Concrete := { d.concrete with
        instances := d.concrete.instances ++
          List.replicate count ⟨some (d.symbols.intern name).1, labels.length, none⟩ }
      have hstart : start.cats = d.concrete.cats := rfl
      exact h.categories.add hextends (d.symbols.find?_intern name) count labels _ hstart
    · have hx' : ∀ name count labels, x ≠ .category name count labels :=
        fun name count labels heq => hcategory ⟨name, count, labels, heq⟩
      exact h.categories.keep hextends (cats_declare hx') hx' _

/-- All declarations are recorded, if they are in order. -/
theorem Records.declareAll (h : d.concrete.Records d.symbols ds mades)
    (hknown : d.concrete.Known d.symbols) {xs : List ConcreteDeclaration}
    (hxs : InOrder d.concrete.instances.length xs) :
    (d.declareAll xs).2.concrete.Records (d.declareAll xs).2.symbols (ds ++ xs)
      (mades ++ (d.declareAll xs).1) := by
  induction xs generalizing ds mades d with
  | nil =>
    rw [List.append_nil]
    exact (List.append_nil mades).symm ▸ h
  | cons x xs ih =>
    obtain ⟨hx, hrest⟩ := inOrder_cons.1 hxs
    rw [← (declare_spec d x).2.1] at hrest
    have hall := ih (h.declare hknown hx) (known_declare hknown x).2 hrest
    rwa [List.append_assoc, List.append_assoc, List.singleton_append, List.singleton_append]
      at hall

/-- Nothing was made of no declarations. -/
theorem records_start (sym : Sym) (symbols : SymbolStore) :
    ({ name := sym } : Concrete).Records symbols [] [] where
  held := .nil
  instances := rfl
  functions := rfl
  sequences := .nil
  productions := nofun
  targets := nofun
  categories := ⟨nofun, nofun, .nil⟩

end Concrete

end Polyglot
