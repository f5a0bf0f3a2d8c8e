import Polyglot.Grammar.Basic

/-!
# Productions by what they are applied to

To generate from an expression one has to know, from the instances of the arguments, which
productions of a function apply; and from an instance, which ones take over its productions. An
`Index` is made from a concrete syntax in one pass over its productions, in the order of the
grammar.

- `Index.lookup`: the productions of a function over exactly these arguments.
- `Index.matching`: the same where some arguments may be anything.
- `Index.supers`: the instances that take over the productions of an instance.
-/

namespace Polyglot

/-- A production that makes a function: the instance that it belongs to and the concrete function.
-/
structure IndexEntry where
  id : InstanceId
  fn : FunId
  deriving DecidableEq, Repr

/-- The productions of a function over the same arguments. -/
structure Signature where
  args : List InstanceId
  entries : List IndexEntry
  deriving DecidableEq, Repr

namespace Signature

/-- Adds an entry to the signature at a place. -/
def addAt (i : Nat) (entry : IndexEntry) (sigs : List Signature) : List Signature :=
  sigs.modify i fun s => { s with entries := s.entries ++ [entry] }

/-- An entry more does not change what stands where. -/
theorem findIdx?_addAt (i : Nat) (entry : IndexEntry) (sigs : List Signature)
    (key : List InstanceId) :
    (addAt i entry sigs).findIdx? (·.args = key) = sigs.findIdx? (·.args = key) := by
  induction sigs generalizing i with
  | nil => simp [addAt]
  | cons s sigs ih =>
    cases i with
    | zero => simp [addAt, List.findIdx?_cons]
    | succ i =>
      have hi := ih i
      rw [addAt] at hi
      simp [addAt, List.findIdx?_cons, hi]

end Signature

/-- The productions of a function by what they are applied to. The signatures have an order, and
`slots` tells for every list of arguments at which place its signature stands. -/
structure Grouping where
  signatures : List Signature := []
  slots : List (List InstanceId × Nat) := []
  /-- Every signature has a slot, which is its own place. -/
  slots_eq : ∀ args, slots.lookup args = signatures.findIdx? (·.args = args) := by
    intro args; rfl
  deriving DecidableEq, Repr

namespace Grouping

/-- The productions over exactly these arguments. -/
def entries (g : Grouping) (args : List InstanceId) : List IndexEntry :=
  match (g.slots.lookup args).bind (g.signatures[·]?) with
  | none => []
  | some s => s.entries

/-- Makes sure that there is a signature with these arguments; a new one is empty and put last. -/
def reserve (g : Grouping) (args : List InstanceId) : Grouping :=
  match h : g.slots.lookup args with
  | some _ => g
  | none =>
    { signatures := g.signatures ++ [⟨args, []⟩]
      slots := (args, g.signatures.length) :: g.slots
      slots_eq := by
        intro key
        rw [List.findIdx?_append, List.lookup_cons, ← g.slots_eq]
        by_cases hkey : key = args
        · subst hkey
          simp [h]
        · simp [beq_false_of_ne hkey, Ne.symm hkey] }

/-- Adds an entry to the signature at a place. -/
def push (g : Grouping) (i : Nat) (entry : IndexEntry) : Grouping :=
  { g with
    signatures := Signature.addAt i entry g.signatures
    slots_eq := by
      intro key
      rw [g.slots_eq, Signature.findIdx?_addAt] }

/-- Adds an entry to the signature with these arguments. -/
def insert (g : Grouping) (args : List InstanceId) (entry : IndexEntry) : Grouping :=
  let g := g.reserve args
  match g.slots.lookup args with
  | some i => g.push i entry
  | none => g

end Grouping

/-- Productions by function and arguments, and coercions by target. -/
structure Index where
  funs : List (Sym × Grouping) := []
  coercions : List (InstanceId × List InstanceId) := []
  deriving DecidableEq, Repr

namespace Index

/-- Changes the value of a key; a key that is not there yet is put last, with `init` changed. -/
def upsert {κ α : Type} [DecidableEq κ] (key : κ) (init : α) (f : α → α) :
    List (κ × α) → List (κ × α)
  | [] => [(key, f init)]
  | (k, a) :: rest => if k = key then (k, f a) :: rest else (k, a) :: upsert key init f rest

/-- Takes in a production of an instance. -/
def add (c : Concrete) (index : Index) (id : InstanceId) : Production → Index
  | .apply fn args =>
    match c.function? fn with
    | none => index
    | some f => { index with funs := upsert f.name {} (·.insert args ⟨id, fn⟩) index.funs }
  | .coerce target =>
    let insert (ids : List InstanceId) := if id ∈ ids then ids else ids ++ [id]
    { index with coercions := upsert target [] insert index.coercions }

/-- The index of a concrete syntax. -/
def ofConcrete (c : Concrete) : Index :=
  c.instances.zipIdx.foldl
    (fun index (inst, i) =>
      (inst.productions.getD []).foldl (fun index p => index.add c (.ofIndex i) p) index)
    {}

/-- The signatures of a function, in the order of the grammar. -/
def signatures (index : Index) (fn : Sym) : List Signature :=
  ((index.funs.lookup fn).map Grouping.signatures).getD []

/-- Whether anything makes a function. -/
def hasFunction (index : Index) (fn : Sym) : Bool := (index.funs.lookup fn).isSome

/-- The productions of a function over exactly these arguments. -/
def lookup (index : Index) (fn : Sym) (args : List InstanceId) : List IndexEntry :=
  ((index.funs.lookup fn).map (·.entries args)).getD []

/-- Whether arguments agree with a pattern, where an unknown argument may be anything. -/
def agrees : List InstanceId → List (Option InstanceId) → Bool
  | [], [] => true
  | a :: as, p :: ps => p.all (· = a) && agrees as ps
  | _, _ => false

/-- The productions of a function whose arguments agree with a pattern. If all arguments are known
there is only one signature to look at. -/
def matching (index : Index) (fn : Sym) (pattern : List (Option InstanceId)) : List IndexEntry :=
  if pattern.all Option.isSome then index.lookup fn (pattern.filterMap fun p => p)
  else
    (((index.signatures fn).filter fun s => agrees s.args pattern).map Signature.entries).flatten

/-- The instances that take over the productions of an instance. -/
def supers (index : Index) (id : InstanceId) : List InstanceId :=
  (index.coercions.lookup id).getD []

end Index

end Polyglot
