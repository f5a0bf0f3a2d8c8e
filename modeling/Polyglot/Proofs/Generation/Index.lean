import Polyglot.Generation.Index
import Polyglot.Proofs.Grammar.Productions

/-!
# What an index tells about its grammar

The index of a concrete syntax is made in one pass over the productions, which keeps two association
lists up to date, and for each function the slots of its signatures. What the index says afterwards
is stated here by the productions alone.

- `Index.signatures_insert`: through its slot, an entry comes to the signature with its arguments.
- `Index.lookup_ofConcrete`: the productions of a function over given arguments, in order.
- `Index.mem_matching`: those that agree with a pattern.
- `Index.mem_supers`: the instances that coerce an instance.
-/

namespace Polyglot

namespace Concrete

/-- What a production says about a function: its arguments and its entry, if it makes it. -/
def maker? (c : Concrete) (name : Sym) :
    InstanceId × Production → Option (List InstanceId × IndexEntry)
  | (id, .apply fn args) =>
    match c.function? fn with
    | some f => if f.name = name then some (args, ⟨id, fn⟩) else none
    | none => none
  | (_, .coerce _) => none

/-- The productions that make a function, in the order of the grammar. -/
def makers (c : Concrete) (name : Sym) : List (List InstanceId × IndexEntry) :=
  c.allProductions.filterMap (c.maker? name)

theorem mem_makers {c : Concrete} {name : Sym} {args : List InstanceId} {entry : IndexEntry} :
    (args, entry) ∈ c.makers name ↔
      .apply entry.fn args ∈ c.productionsOf entry.id ∧
        ∃ f, c.function? entry.fn = some f ∧ f.name = name := by
  obtain ⟨id, fn⟩ := entry
  simp only [makers, List.mem_filterMap, ← mem_allProductions]
  constructor
  · rintro ⟨⟨id', p⟩, hp, heq⟩
    cases p with
    | coerce target => cases heq
    | apply fn' args' =>
      simp only [maker?] at heq
      split at heq
      · rename_i f hf
        split at heq
        · rename_i hname
          cases heq
          exact ⟨hp, f, hf, hname⟩
        · cases heq
      · cases heq
  · rintro ⟨hp, f, hf, hname⟩
    exact ⟨_, hp, by simp [maker?, hf, hname]⟩

theorem length_makers_le (c : Concrete) (name : Sym) :
    (c.makers name).length ≤ c.allProductions.length := List.length_filterMap_le ..

end Concrete

namespace Index

/-! ## Association lists -/

theorem lookup_upsert {κ α : Type} [DecidableEq κ] (key k : κ) (init : α) (f : α → α)
    (l : List (κ × α)) :
    (upsert key init f l).lookup k =
      if key = k then some (f ((l.lookup k).getD init)) else l.lookup k := by
  induction l with
  | nil =>
    by_cases h : key = k
    · simp [upsert, h]
    · simp [upsert, List.lookup_cons, h, beq_false_of_ne (Ne.symm h)]
  | cons p l ih =>
    obtain ⟨k', a⟩ := p
    by_cases hk : k = k'
    · subst hk
      by_cases h : k = key
      · simp [upsert, h]
      · simp [upsert, h, Ne.symm h]
    · by_cases h : k' = key
      · subst h
        simp [upsert, List.lookup_cons, Ne.symm hk, beq_false_of_ne hk]
      · simp only [upsert, if_neg h, List.lookup_cons, beq_false_of_ne hk, ih]

/-! ## Signatures -/

/-- Adds an entry to the signature with these arguments; a new signature is put last. -/
def addSignature (args : List InstanceId) (entry : IndexEntry) : List Signature → List Signature
  | [] => [⟨args, [entry]⟩]
  | s :: rest =>
    if s.args = args then { s with entries := s.entries ++ [entry] } :: rest
    else s :: addSignature args entry rest

/-- The entries that a list of signatures has for given arguments. -/
def entriesFor (sigs : List Signature) (args : List InstanceId) : List IndexEntry :=
  ((sigs.find? (·.args = args)).map Signature.entries).getD []

theorem entriesFor_addSignature (args key : List InstanceId) (entry : IndexEntry)
    (sigs : List Signature) :
    entriesFor (addSignature args entry sigs) key =
      entriesFor sigs key ++ if args = key then [entry] else [] := by
  induction sigs with
  | nil => by_cases h : args = key <;> simp [entriesFor, addSignature, h]
  | cons s sigs ih =>
    by_cases hs : s.args = key
    · subst hs
      by_cases h : s.args = args
      · simp [entriesFor, addSignature, h]
      · simp [entriesFor, addSignature, h, Ne.symm h]
    · by_cases h : s.args = args
      · subst h
        simp [entriesFor, addSignature, hs]
      · simpa [entriesFor, addSignature, h, hs] using ih

/-- The entries whose arguments a test admits. -/
def entriesWhere (sigs : List Signature) (test : List InstanceId → Bool) : List IndexEntry :=
  ((sigs.filter fun s => test s.args).map Signature.entries).flatten

theorem mem_entriesWhere_addSignature {args : List InstanceId} {entry e : IndexEntry}
    {sigs : List Signature} {test : List InstanceId → Bool} :
    e ∈ entriesWhere (addSignature args entry sigs) test ↔
      e ∈ entriesWhere sigs test ∨ (e = entry ∧ test args = true) := by
  induction sigs with
  | nil => by_cases h : test args <;> simp [entriesWhere, addSignature, h]
  | cons s sigs ih =>
    simp only [entriesWhere] at ih ⊢
    by_cases h : s.args = args
    · subst h
      cases ht : test s.args
      · simp [addSignature, ht]
      · simp [addSignature, ht]
        grind
    · cases ht : test s.args
      · simpa [addSignature, h, ht] using ih
      · simp only [addSignature, if_neg h, List.filter_cons, ht, if_true, List.map_cons,
          List.flatten_cons, List.mem_append, ih, or_assoc]

theorem length_entriesWhere_addSignature (args : List InstanceId) (entry : IndexEntry)
    (sigs : List Signature) (test : List InstanceId → Bool) :
    (entriesWhere (addSignature args entry sigs) test).length ≤
      (entriesWhere sigs test).length + 1 := by
  induction sigs with
  | nil => cases h : test args <;> simp [entriesWhere, addSignature, h]
  | cons s sigs ih =>
    simp only [entriesWhere] at ih ⊢
    by_cases h : s.args = args
    · cases ht : test s.args
      · subst h
        simp [addSignature, ht]
      · subst h
        simp [addSignature, ht]
        omega
    · cases ht : test s.args <;> simp [addSignature, h, ht] at ih ⊢ <;> omega

/-! ## Slots -/

theorem addSignature_of_findIdx? {args : List InstanceId} {entry : IndexEntry}
    {sigs : List Signature} {i : Nat} (h : sigs.findIdx? (·.args = args) = some i) :
    addSignature args entry sigs = Signature.addAt i entry sigs := by
  induction sigs generalizing i with
  | nil => cases h
  | cons s sigs ih =>
    rw [List.findIdx?_cons] at h
    by_cases hs : s.args = args
    · simp only [hs, decide_true, if_true, Option.some.injEq] at h
      subst h
      simp [addSignature, Signature.addAt, hs]
    · simp only [hs, decide_false, Bool.false_eq_true, if_false, Option.map_eq_some_iff] at h
      obtain ⟨j, hj, rfl⟩ := h
      simpa [addSignature, Signature.addAt, hs] using ih hj

theorem addSignature_of_not_mem {args : List InstanceId} {entry : IndexEntry}
    {sigs : List Signature} (h : ∀ s ∈ sigs, s.args ≠ args) :
    addSignature args entry sigs = sigs ++ [⟨args, [entry]⟩] := by
  induction sigs with
  | nil => rfl
  | cons s sigs ih =>
    rw [List.forall_mem_cons] at h
    rw [addSignature, if_neg h.1, ih h.2, List.cons_append]

theorem reserve_of_some {g : Grouping} {args : List InstanceId} {i : Nat}
    (h : g.slots.lookup args = some i) : g.reserve args = g := by
  rw [Grouping.reserve]
  split
  · rfl
  · rename_i hnone
    rw [h] at hnone
    cases hnone

theorem reserve_of_none {g : Grouping} {args : List InstanceId}
    (h : g.slots.lookup args = none) :
    (g.reserve args).signatures = g.signatures ++ [⟨args, []⟩] ∧
      (g.reserve args).slots.lookup args = some g.signatures.length := by
  rw [Grouping.reserve]
  split
  · rename_i i hi
    rw [h] at hi
    cases hi
  · exact ⟨rfl, List.lookup_cons_self ..⟩

/-- Through its slots, an entry comes to the signature with its arguments. -/
theorem signatures_insert (g : Grouping) (args : List InstanceId) (entry : IndexEntry) :
    (g.insert args entry).signatures = addSignature args entry g.signatures := by
  cases hslot : g.slots.lookup args with
  | some i =>
    have hi := g.slots_eq args
    rw [hslot] at hi
    simp only [Grouping.insert, reserve_of_some hslot, hslot, Grouping.push,
      addSignature_of_findIdx? hi.symm]
  | none =>
    obtain ⟨hsigs, hlast⟩ := reserve_of_none hslot
    rw [g.slots_eq, List.findIdx?_eq_none_iff] at hslot
    have hnew : ∀ s ∈ g.signatures, s.args ≠ args := by simpa using hslot
    rw [addSignature_of_not_mem hnew]
    simp [Grouping.insert, hlast, Grouping.push, hsigs, Signature.addAt, List.modify_eq_take_drop]

/-- What is found through the slots is what the signatures have. -/
theorem entries_eq (g : Grouping) (args : List InstanceId) :
    g.entries args = entriesFor g.signatures args := by
  rw [Grouping.entries, g.slots_eq, entriesFor, ← List.find?_eq_bind_findIdx?_getElem?]
  cases g.signatures.find? (·.args = args) <;> rfl

/-! ## The pass over the productions -/

/-- The index is made by adding one production after the other. -/
theorem ofConcrete_eq (c : Concrete) :
    ofConcrete c = c.allProductions.foldl (fun index ip => index.add c ip.1 ip.2) {} := by
  rw [ofConcrete, Concrete.allProductions, List.foldl_flatten, List.foldl_map]
  simp only [List.foldl_map]

theorem signatures_add (c : Concrete) (index : Index) (ip : InstanceId × Production) (name : Sym) :
    (index.add c ip.1 ip.2).signatures name =
      match c.maker? name ip with
      | some (args, entry) => addSignature args entry (index.signatures name)
      | none => index.signatures name := by
  obtain ⟨id, p⟩ := ip
  cases p with
  | coerce target => rfl
  | apply fn args =>
    simp only [add, Concrete.maker?]
    cases hf : c.function? fn with
    | none => rfl
    | some f =>
      simp only [signatures, lookup_upsert]
      by_cases h : f.name = name
      · subst h
        cases hg : index.funs.lookup f.name <;> simp [signatures_insert]
      · simp [h]

theorem signatures_ofConcrete (c : Concrete) (name : Sym) :
    (ofConcrete c).signatures name =
      (c.makers name).foldl (fun sigs m => addSignature m.1 m.2 sigs) [] := by
  have hfold : ∀ (ips : List (InstanceId × Production)) (index : Index),
      (ips.foldl (fun index ip => index.add c ip.1 ip.2) index).signatures name =
        (ips.filterMap (c.maker? name)).foldl (fun sigs m => addSignature m.1 m.2 sigs)
          (index.signatures name) := by
    intro ips
    induction ips with
    | nil => exact fun _ => rfl
    | cons ip ips ih =>
      intro index
      rw [List.foldl_cons, ih, signatures_add]
      cases hm : c.maker? name ip with
      | none => simp [hm]
      | some m => simp [hm]
  rw [ofConcrete_eq, hfold]
  rfl

/-- A look-up goes through the slots, which lead to the signature with these arguments. -/
theorem lookup_eq (index : Index) (name : Sym) (args : List InstanceId) :
    index.lookup name args = entriesFor (index.signatures name) args := by
  cases hg : index.funs.lookup name with
  | none => simp [lookup, signatures, hg, entriesFor]
  | some g => simp [lookup, signatures, hg, entries_eq]

/-- The productions of a function over given arguments, in the order of the grammar. -/
theorem lookup_ofConcrete (c : Concrete) (name : Sym) (args : List InstanceId) :
    (ofConcrete c).lookup name args =
      ((c.makers name).filter (·.1 = args)).map Prod.snd := by
  have hfold : ∀ (ms : List (List InstanceId × IndexEntry)) (sigs : List Signature),
      entriesFor (ms.foldl (fun sigs m => addSignature m.1 m.2 sigs) sigs) args =
        entriesFor sigs args ++ (ms.filter (·.1 = args)).map Prod.snd := by
    intro ms
    induction ms with
    | nil => simp
    | cons m ms ih =>
      intro sigs
      rw [List.foldl_cons, ih, entriesFor_addSignature]
      by_cases h : m.1 = args <;> simp [h]
  rw [lookup_eq, signatures_ofConcrete]
  exact (hfold _ []).trans (List.nil_append _)

theorem mem_entriesWhere_ofConcrete {c : Concrete} {name : Sym} (test : List InstanceId → Bool)
    {e : IndexEntry} :
    e ∈ entriesWhere ((ofConcrete c).signatures name) test ↔
      ∃ args, (args, e) ∈ c.makers name ∧ test args = true := by
  have hfold : ∀ (ms : List (List InstanceId × IndexEntry)) (sigs : List Signature),
      e ∈ entriesWhere (ms.foldl (fun sigs m => addSignature m.1 m.2 sigs) sigs) test ↔
        e ∈ entriesWhere sigs test ∨ ∃ args, (args, e) ∈ ms ∧ test args = true := by
    intro ms
    induction ms with
    | nil => simp
    | cons m ms ih =>
      intro sigs
      rw [List.foldl_cons, ih, mem_entriesWhere_addSignature]
      obtain ⟨args, entry⟩ := m
      simp only [List.mem_cons, Prod.mk.injEq]
      grind
  rw [signatures_ofConcrete, hfold]
  simp [entriesWhere]

theorem length_entriesWhere_ofConcrete_le (c : Concrete) (name : Sym)
    (test : List InstanceId → Bool) :
    (entriesWhere ((ofConcrete c).signatures name) test).length ≤ (c.makers name).length := by
  have hfold : ∀ (ms : List (List InstanceId × IndexEntry)) (sigs : List Signature),
      (entriesWhere (ms.foldl (fun sigs m => addSignature m.1 m.2 sigs) sigs) test).length ≤
        (entriesWhere sigs test).length + ms.length := by
    intro ms
    induction ms with
    | nil => simp
    | cons m ms ih =>
      intro sigs
      have h₁ := ih (addSignature m.1 m.2 sigs)
      have h₂ := length_entriesWhere_addSignature m.1 m.2 sigs test
      simp only [List.foldl_cons, List.length_cons]
      omega
  rw [signatures_ofConcrete]
  simpa [entriesWhere] using hfold (c.makers name) []

/-! ## Patterns -/

/-- Where all arguments are known, to agree with the pattern is to be these arguments. -/
theorem agrees_iff_of_all {pattern : List (Option InstanceId)} (h : pattern.all Option.isSome)
    (args : List InstanceId) :
    agrees args pattern = true ↔ args = pattern.filterMap fun p => p := by
  induction pattern generalizing args with
  | nil => cases args <;> simp [agrees]
  | cons p ps ih =>
    simp only [List.all_cons, Bool.and_eq_true] at h
    obtain ⟨id, rfl⟩ := Option.isSome_iff_exists.1 h.1
    cases args with
    | nil => simp [agrees]
    | cons a as =>
      simp only [agrees, Option.all_some, Bool.and_eq_true, decide_eq_true_eq, ih h.2 as,
        List.filterMap_cons, List.cons.injEq]
      rw [eq_comm]

/-- The productions that agree with a pattern, also where all arguments are known and only one
signature is looked at. -/
theorem mem_matching {c : Concrete} {name : Sym} {pattern : List (Option InstanceId)}
    {e : IndexEntry} :
    e ∈ (ofConcrete c).matching name pattern ↔
      ∃ args, .apply e.fn args ∈ c.productionsOf e.id ∧
        (∃ f, c.function? e.fn = some f ∧ f.name = name) ∧ agrees args pattern = true := by
  -- Both ways of looking things up come down to the productions that make the function.
  have hmakers : e ∈ (ofConcrete c).matching name pattern ↔
      ∃ args, (args, e) ∈ c.makers name ∧ agrees args pattern = true := by
    rw [matching]
    split
    · rename_i hall
      simp only [lookup_ofConcrete, List.mem_map, List.mem_filter, decide_eq_true_eq]
      constructor
      · rintro ⟨⟨args, e'⟩, ⟨hm, hargs⟩, rfl⟩
        exact ⟨args, hm, (agrees_iff_of_all hall args).2 hargs⟩
      · rintro ⟨args, hm, hargs⟩
        exact ⟨(args, e), ⟨hm, (agrees_iff_of_all hall args).1 hargs⟩, rfl⟩
    · exact mem_entriesWhere_ofConcrete fun args => agrees args pattern
  simp only [hmakers, Concrete.mem_makers]
  grind

theorem length_matching_le (c : Concrete) (name : Sym) (pattern : List (Option InstanceId)) :
    ((ofConcrete c).matching name pattern).length ≤ c.allProductions.length := by
  refine Nat.le_trans ?_ (c.length_makers_le name)
  rw [matching]
  split
  · rw [lookup_ofConcrete, List.length_map]
    exact List.length_filter_le ..
  · exact length_entriesWhere_ofConcrete_le c name fun args => agrees args pattern

/-! ## Coercions -/

theorem supers_add (c : Concrete) (index : Index) (ip : InstanceId × Production)
    (target : InstanceId) :
    (index.add c ip.1 ip.2).supers target =
      if ip.2 = .coerce target then
        if ip.1 ∈ index.supers target then index.supers target
        else index.supers target ++ [ip.1]
      else index.supers target := by
  obtain ⟨id, p⟩ := ip
  cases p with
  | apply fn args =>
    simp only [add]
    cases c.function? fn <;> simp [supers]
  | coerce target' =>
    by_cases h : target' = target
    · subst h
      simp [add, supers, lookup_upsert]
      rfl
    · simp [add, supers, lookup_upsert, h]

theorem mem_supers {c : Concrete} {id target : InstanceId} :
    id ∈ (ofConcrete c).supers target ↔ .coerce target ∈ c.productionsOf id := by
  have hfold : ∀ (ips : List (InstanceId × Production)) (index : Index),
      id ∈ (ips.foldl (fun index ip => index.add c ip.1 ip.2) index).supers target ↔
        id ∈ index.supers target ∨ (id, Production.coerce target) ∈ ips := by
    intro ips
    induction ips with
    | nil => simp
    | cons ip ips ih =>
      intro index
      rw [List.foldl_cons, ih, supers_add]
      obtain ⟨id', p⟩ := ip
      grind
  rw [ofConcrete_eq, hfold, Concrete.mem_allProductions]
  simp [supers]

theorem length_supers_le (c : Concrete) (target : InstanceId) :
    ((ofConcrete c).supers target).length ≤ c.allProductions.length := by
  have hfold : ∀ (ips : List (InstanceId × Production)) (index : Index),
      ((ips.foldl (fun index ip => index.add c ip.1 ip.2) index).supers target).length ≤
        (index.supers target).length + ips.length := by
    intro ips
    induction ips with
    | nil => simp
    | cons ip ips ih =>
      intro index
      refine Nat.le_trans (ih _) ?_
      rw [supers_add, List.length_cons]
      split
      · split
        · omega
        · rw [List.length_append, List.length_singleton]
          omega
      · omega
  rw [ofConcrete_eq]
  simpa [supers] using hfold c.allProductions {}

end Index

end Polyglot
