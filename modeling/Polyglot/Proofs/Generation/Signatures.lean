import Polyglot.Proofs.Generation.Index
import Polyglot.Proofs.Lists

/-!
# The signatures of an index

An index keeps the productions of a function in groups, one for each list of arguments, and finds a
group either through its slot or by going through all of them. Both ways lead to the same
productions, in the order of the grammar.

- `Index.signatures_eq`: the groups stand in the order in which their arguments first occur, and
  each has what a look-up gives for them.
- `Index.matching_eq`: the productions that agree with a pattern, whether or not all is known.
- `Index.sorted_supers`: the instances that take over productions, in order.
- `Index.index_faithful`: all that an index tells.
-/

namespace Polyglot

namespace Index

variable (c : Concrete) (name : Sym)

/-! ## Distinct arguments -/

theorem args_addSignature (args : List InstanceId) (entry : IndexEntry) (sigs : List Signature) :
    (addSignature args entry sigs).map Signature.args =
      if args ∈ sigs.map Signature.args then sigs.map Signature.args
      else sigs.map Signature.args ++ [args] := by
  induction sigs with
  | nil => rfl
  | cons s sigs ih =>
    by_cases h : s.args = args
    · simp [addSignature, h]
    · rw [addSignature, if_neg h, List.map_cons, ih, List.map_cons]
      by_cases hargs : args ∈ sigs.map Signature.args
      · rw [if_pos hargs, if_pos (List.mem_cons_of_mem _ hargs)]
      · have hnew : args ∉ s.args :: sigs.map Signature.args :=
          fun hmem => (List.mem_cons.1 hmem).elim (fun heq => h heq.symm) hargs
        rw [if_neg hargs, if_neg hnew, List.cons_append]

/-- The signatures of a function stand in the order in which their arguments first occur. -/
theorem args_signatures :
    ((ofConcrete c).signatures name).map Signature.args =
      ((c.makers name).map Prod.fst).eraseDups := by
  rw [signatures_ofConcrete]
  induction c.makers name using List.reverseRecOn with
  | nil => rfl
  | append_singleton ms m ih =>
    rw [List.foldl_concat, args_addSignature, ih, List.map_append, List.map_singleton,
      eraseDups_concat]
    simp only [List.mem_eraseDups]

theorem nodup_args_signatures : (((ofConcrete c).signatures name).map Signature.args).Nodup := by
  rw [args_signatures]
  exact nodup_eraseDups _

/-- If the arguments are distinct then only one signature has given ones. -/
theorem entriesWhere_eq_entriesFor {sigs : List Signature}
    (hsigs : (sigs.map Signature.args).Nodup) (args : List InstanceId) :
    entriesWhere sigs (· = args) = entriesFor sigs args := by
  induction sigs with
  | nil => rfl
  | cons s sigs ih =>
    rw [List.map_cons, List.nodup_cons] at hsigs
    by_cases h : s.args = args
    · subst h
      have hnone : sigs.filter (fun s' => decide (s'.args = s.args)) = [] := by
        rw [List.filter_eq_nil_iff]
        intro s' hs' heq
        exact hsigs.1 (of_decide_eq_true heq ▸ List.mem_map_of_mem hs')
      simp [entriesWhere, entriesFor, hnone]
    · have hrest := ih hsigs.2
      simpa [entriesWhere, entriesFor, h] using hrest

theorem entriesFor_of_mem {sigs : List Signature} (hsigs : (sigs.map Signature.args).Nodup)
    {s : Signature} (hs : s ∈ sigs) : entriesFor sigs s.args = s.entries := by
  induction sigs with
  | nil => cases hs
  | cons s' sigs ih =>
    rw [List.map_cons, List.nodup_cons] at hsigs
    cases hs with
    | head => simp [entriesFor]
    | tail _ hs =>
      have hne : s'.args ≠ s.args := fun heq => hsigs.1 (heq ▸ List.mem_map_of_mem hs)
      have hrest := ih hsigs.2 hs
      simpa [entriesFor, hne] using hrest

/-- The signatures of a function: for all lists of arguments, in the order in which they first
occur, what a look-up gives. -/
theorem signatures_eq :
    (ofConcrete c).signatures name =
      ((c.makers name).map Prod.fst).eraseDups.map fun args =>
        ⟨args, (ofConcrete c).lookup name args⟩ := by
  have hself : ∀ s ∈ (ofConcrete c).signatures name,
      s = ⟨s.args, (ofConcrete c).lookup name s.args⟩ := by
    intro s hs
    rw [lookup_eq, entriesFor_of_mem (nodup_args_signatures c name) hs]
  rw [← args_signatures, List.map_map]
  conv_lhs => rw [← List.map_id ((ofConcrete c).signatures name)]
  exact List.map_congr_left hself

/-! ## Patterns -/

/-- To agree with a pattern is to have its length and what is known at every place. -/
theorem agrees_eq (args : List InstanceId) (pattern : List (Option InstanceId)) :
    agrees args pattern =
      (args.length == pattern.length &&
        (args.zip pattern).all fun (a, p) => p.all (· = a)) := by
  induction args generalizing pattern with
  | nil => cases pattern <;> simp [agrees]
  | cons a args ih =>
    cases pattern with
    | nil => simp [agrees]
    | cons p pattern =>
      simp only [agrees, ih, List.length_cons, List.zip_cons_cons, List.all_cons]
      cases p.all (· = a) <;> simp

/-- The productions that agree with a pattern are those of the signatures that do, also where all
arguments are known and a single one is looked up. -/
theorem matching_eq (pattern : List (Option InstanceId)) :
    (ofConcrete c).matching name pattern =
      (((ofConcrete c).signatures name).filter fun s => agrees s.args pattern).flatMap
        Signature.entries := by
  rw [List.flatMap_def, matching]
  split
  · rename_i hall
    have htest : ∀ s ∈ (ofConcrete c).signatures name,
        agrees s.args pattern = decide (s.args = pattern.filterMap fun p => p) := by
      intro s _
      rw [Bool.eq_iff_iff, agrees_iff_of_all hall, decide_eq_true_iff]
    rw [List.filter_congr htest, lookup_eq,
      ← entriesWhere_eq_entriesFor (nodup_args_signatures c name)]
    rfl
  · rfl

/-! ## Coercions -/

/-- The instances that take over the productions of another one, each where it first does so. -/
theorem supers_eq (target : InstanceId) :
    (ofConcrete c).supers target =
      ((c.allProductions.filter (·.2 = .coerce target)).map Prod.fst).eraseDups := by
  rw [ofConcrete_eq]
  induction c.allProductions using List.reverseRecOn with
  | nil => rfl
  | append_singleton ips ip ih =>
    rw [List.foldl_concat, supers_add, ih, List.filter_append, List.map_append]
    by_cases h : ip.2 = .coerce target
    · have hlast : [ip].filter (·.2 = .coerce target) = [ip] := by simp [h]
      rw [if_pos h, hlast, List.map_singleton, eraseDups_concat]
      simp only [List.mem_eraseDups]
    · have hlast : [ip].filter (·.2 = .coerce target) = [] := by simp [h]
      rw [if_neg h, hlast, List.map_nil, List.append_nil]

/-- The productions of a grammar stand in the order of their instances. -/
theorem sorted_allProductions : c.allProductions.Pairwise fun p q => p.1.val ≤ q.1.val := by
  have hplaces : c.instances.zipIdx.Pairwise fun p q => p.2 < q.2 := by
    rw [← List.pairwise_map, List.zipIdx_map_snd]
    exact List.pairwise_lt_range'
  rw [Concrete.allProductions, List.pairwise_flatten, List.forall_mem_map, List.pairwise_map]
  constructor
  · rintro ⟨inst, i⟩ -
    rw [List.pairwise_map]
    exact List.pairwise_of_forall fun _ _ => Int.le_refl _
  · refine hplaces.imp ?_
    rintro ⟨inst, i⟩ ⟨inst', j⟩ hij p hp q hq
    obtain ⟨_, -, rfl⟩ := List.mem_map.1 hp
    obtain ⟨_, -, rfl⟩ := List.mem_map.1 hq
    simp only [InstanceId.ofIndex]
    omega

/-- The instances that take over productions of another one stand in the order of the grammar, each
of them once. -/
theorem sorted_supers (target : InstanceId) :
    ((ofConcrete c).supers target).Pairwise fun g g' => g.val < g'.val := by
  rw [supers_eq]
  have hsorted : ((c.allProductions.filter (·.2 = .coerce target)).map Prod.fst).Pairwise
      fun g g' => g.val ≤ g'.val := by
    rw [List.pairwise_map]
    exact (sorted_allProductions c).filter _
  have hdistinct := nodup_eraseDups
    ((c.allProductions.filter (·.2 = .coerce target)).map Prod.fst)
  refine ((hsorted.sublist (eraseDups_sublist _)).and hdistinct).imp ?_
  rintro g g' ⟨hle, hne⟩
  have hval : g.val ≠ g'.val := fun heq => hne (congrArg InstanceId.mk heq)
  omega

/-- **An index tells what its grammar has.** -/
theorem index_faithful :
    (∀ key, (ofConcrete c).lookup name key =
      ((c.makers name).filter (·.1 = key)).map Prod.snd) ∧
    (ofConcrete c).signatures name =
      ((c.makers name).map Prod.fst).eraseDups.map
        (fun args => ⟨args, (ofConcrete c).lookup name args⟩) ∧
    (((ofConcrete c).signatures name).map Signature.args).Nodup ∧
    (∀ pattern, (ofConcrete c).matching name pattern =
      (((ofConcrete c).signatures name).filter fun s =>
        s.args.length == pattern.length &&
          (s.args.zip pattern).all fun (a, p) => p.all (· = a)).flatMap Signature.entries) ∧
    ∀ target, (∀ id, id ∈ (ofConcrete c).supers target ↔ .coerce target ∈ c.productionsOf id) ∧
      ((ofConcrete c).supers target).Pairwise fun g g' => g.val < g'.val := by
  refine ⟨lookup_ofConcrete c name, signatures_eq c name, nodup_args_signatures c name, ?_, ?_⟩
  · intro pattern
    rw [matching_eq]
    simp only [agrees_eq]
  · exact fun target => ⟨fun _ => mem_supers, sorted_supers c target⟩

end Index

end Polyglot
