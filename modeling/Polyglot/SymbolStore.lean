/-!
# Interned strings

Identifiers and surface tokens are strings that are compared all the time, so each distinct string
is kept once, in a `SymbolStore`, and stands for itself everywhere else as a handle `Sym`. Handles
count up from 0 in the order in which strings were first seen.

- `SymbolStore.intern`: the handle of a string, which is added if it is new.
- `SymbolStore.find?`: the handle of a string that is already there.
- `SymbolStore.resolve?`: the string of a handle; the two look-ups are inverse to each other
  (`find?_eq_some_iff`), and interning more strings changes no handle given out before
  (`resolve?_intern_of_some`).
-/

namespace Polyglot

/-- A handle of an interned string. -/
structure Sym where
  index : Nat
  deriving DecidableEq, Repr

/-- Lists of handles are equal if and only if they compare so. -/
instance : LawfulBEq (List Sym) := inferInstance

/-- The strings interned so far; a string's handle is its place among them. -/
structure SymbolStore where
  names : Array String := #[]
  nodup : names.toList.Nodup := by simp

namespace SymbolStore

instance : Inhabited SymbolStore := ⟨{}⟩

/-- The number of distinct strings. -/
def size (s : SymbolStore) : Nat := s.names.size

/-- The handle of a string, if it was interned before. -/
def find? (s : SymbolStore) (name : String) : Option Sym :=
  (s.names.findIdx? (· == name)).map Sym.mk

/-- Whether a string was interned before. -/
def contains (s : SymbolStore) (name : String) : Bool := (s.find? name).isSome

/-- The string that a handle stands for. Handles of other stores may stand for nothing. -/
def resolve? (s : SymbolStore) (sym : Sym) : Option String := s.names[sym.index]?

/-- The string that a handle stands for, or a placeholder. -/
def name (s : SymbolStore) (sym : Sym) : String := (s.resolve? sym).getD "<unknown>"

/-- The handle of a string; one not seen before gets the next handle. -/
def intern (s : SymbolStore) (name : String) : Sym × SymbolStore :=
  match h : s.names.findIdx? (· == name) with
  | some i => (⟨i⟩, s)
  | none =>
    (⟨s.names.size⟩,
      { names := s.names.push name
        nodup := by
          rw [Array.findIdx?_eq_none_iff] at h
          rw [Array.toList_push, List.nodup_append]
          refine ⟨s.nodup, by simp, ?_⟩
          rintro a ha b hb rfl
          simp only [List.mem_singleton] at hb
          simpa [hb] using h a (Array.mem_toList_iff.1 ha) })

/-- The handles of several strings, interned in order. -/
def internAll (s : SymbolStore) : List String → List Sym × SymbolStore
  | [] => ([], s)
  | name :: names =>
    let (sym, s) := s.intern name
    let (syms, s) := s.internAll names
    (sym :: syms, s)

/-- How a store shows itself. -/
def summary (s : SymbolStore) : String := "SymbolStore \x7b len: " ++ toString s.size ++ " \x7d"

/-! ## Look-ups are inverse to each other -/

theorem find?_eq_some_iff {s : SymbolStore} {name : String} {sym : Sym} :
    s.find? name = some sym ↔ s.resolve? sym = some name := by
  obtain ⟨i⟩ := sym
  simp only [find?, resolve?, Option.map_eq_some_iff, Sym.mk.injEq, exists_eq_right,
    Array.findIdx?_eq_some_iff_getElem, Array.getElem?_eq_some_iff, beq_iff_eq]
  constructor
  · rintro ⟨hi, heq, -⟩
    exact ⟨hi, heq⟩
  · rintro ⟨hi, heq⟩
    refine ⟨hi, heq, fun j hj hjeq => ?_⟩
    have hnodup := s.nodup
    rw [List.nodup_iff_pairwise_ne, List.pairwise_iff_getElem] at hnodup
    exact hnodup j i (by simp; omega) (by simpa using hi) hj (by simp [hjeq, heq])

theorem resolve?_intern (s : SymbolStore) (name : String) :
    (s.intern name).2.resolve? (s.intern name).1 = some name := by
  unfold intern
  split
  · rename_i i h
    exact find?_eq_some_iff.1 (by simp [find?, h])
  · simp [resolve?]

/-- A handle given out before keeps its string. -/
theorem resolve?_intern_of_some {s : SymbolStore} {name other : String} {sym : Sym}
    (h : s.resolve? sym = some other) : (s.intern name).2.resolve? sym = some other := by
  unfold intern
  split
  · exact h
  · simp only [resolve?, Array.getElem?_push] at h ⊢
    have : sym.index < s.names.size := (Array.getElem?_eq_some_iff.1 h).1
    rw [if_neg (by omega)]
    exact h

end SymbolStore

end Polyglot
