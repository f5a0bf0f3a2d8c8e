import Polyglot.Proofs.Lists

/-!
# Computations that may fail

A computation that goes on after a first part comes to something exactly if both parts do, and a
traversal of checks passes exactly if every single check does. Two computations whose parts come to
the same come to the same.

- `mapM_eq_ok_iff`: a traversal comes to what its steps come to, and `exists_of_mapM_eq_error`: it
  fails as one of its steps does.
-/

namespace Polyglot

/-- A computation that goes on comes to something if both of its parts do. -/
theorem bind_eq_ok {ε α β : Type} {x : Except ε α} {f : α → Except ε β} {b : β} :
    (x >>= f) = .ok b ↔ ∃ a, x = .ok a ∧ f a = .ok b := by
  cases x with
  | error e => exact ⟨nofun, nofun⟩
  | ok a => exact ⟨fun h => ⟨a, rfl, h⟩, fun ⟨_, ha, h⟩ => by cases ha; exact h⟩

/-- What goes on in the same way after a first part comes to the same. -/
theorem bind_congr_ok {ε α β : Type} {x : Except ε α} {f g : α → Except ε β}
    (h : ∀ a, x = .ok a → f a = g a) : (x >>= f) = (x >>= g) := by
  cases x with
  | error e => rfl
  | ok a => exact h a rfl

/-- So does a traversal with the same steps. -/
theorem mapM_congr_mem {ε α β : Type} {f g : α → Except ε β} {as : List α}
    (h : ∀ a ∈ as, f a = g a) : as.mapM f = as.mapM g := by
  induction as with
  | nil => rfl
  | cons a as ih =>
    rw [List.mapM_cons, List.mapM_cons, h a List.mem_cons_self,
      ih fun a' ha' => h a' (List.mem_cons_of_mem _ ha')]

/-- Or with steps that match. -/
theorem mapM_congr_forall₂ {ε α α' β : Type} {f : α → Except ε β} {g : α' → Except ε β}
    {as : List α} {as' : List α'} (h : List.Forall₂ (fun a a' => f a = g a') as as') :
    as.mapM f = as'.mapM g := by
  induction h with
  | nil => rfl
  | cons hfirst _ ih => rw [List.mapM_cons, List.mapM_cons, hfirst, ih]

/-- A traversal comes to what its steps come to. -/
theorem mapM_eq_ok_iff {ε α β : Type} {f : α → Except ε β} {as : List α} {bs : List β} :
    as.mapM f = .ok bs ↔ List.Forall₂ (fun a b => f a = .ok b) as bs := by
  induction as generalizing bs with
  | nil =>
    rw [List.forall₂_nil_left_iff]
    exact ⟨fun h => by cases h; rfl, fun h => h ▸ rfl⟩
  | cons a as ih =>
    rw [List.forall₂_cons_left_iff, List.mapM_cons, bind_eq_ok]
    constructor
    · rintro ⟨b, hb, h⟩
      obtain ⟨bs', hbs, heq⟩ := bind_eq_ok.1 h
      cases heq
      exact ⟨b, bs', hb, ih.1 hbs, rfl⟩
    · rintro ⟨b, bs', hb, hbs, rfl⟩
      exact ⟨b, hb, bind_eq_ok.2 ⟨bs', ih.2 hbs, rfl⟩⟩

/-- A traversal that fails does so as one of its steps does. -/
theorem exists_of_mapM_eq_error {ε α β : Type} {f : α → Except ε β} {as : List α} {e : ε}
    (h : as.mapM f = .error e) : ∃ a ∈ as, f a = .error e := by
  induction as with
  | nil => cases h
  | cons a as ih =>
    rw [List.mapM_cons] at h
    cases ha : f a with
    | error e' =>
      rw [ha] at h
      cases h
      exact ⟨a, List.mem_cons_self, ha⟩
    | ok b =>
      cases has : as.mapM f with
      | error e' =>
        rw [ha, has] at h
        cases h
        obtain ⟨a', ha', heq⟩ := ih has
        exact ⟨a', List.mem_cons_of_mem _ ha', heq⟩
      | ok bs =>
        rw [ha, has] at h
        cases h

/-- One check and then another pass if both do. -/
theorem seq_eq_ok {ε : Type} {x : Except ε Unit} {y : Unit → Except ε Unit} :
    (x >>= y) = .ok () ↔ x = .ok () ∧ y () = .ok () := by
  rw [bind_eq_ok]
  exact ⟨fun ⟨_, hx, hy⟩ => ⟨hx, hy⟩, fun ⟨hx, hy⟩ => ⟨(), hx, hy⟩⟩

/-- What goes on behind a guard passes if the guard does not stop it. -/
theorem guard_eq_ok {ε α : Type} {p : Prop} [Decidable p] {e : ε} {x : α → Except ε Unit}
    {y : Except ε Unit} : (if p then throw e >>= x else y) = .ok () ↔ ¬ p ∧ y = .ok () := by
  by_cases h : p
  · rw [if_pos h]
    exact ⟨nofun, fun hy => absurd h hy.1⟩
  · rw [if_neg h]
    exact (and_iff_right h).symm

/-- A traversal of checks passes if all of them do. -/
theorem forM_eq_ok {ε α : Type} {f : α → Except ε Unit} {as : List α} :
    as.forM f = .ok () ↔ ∀ a ∈ as, f a = .ok () := by
  induction as with
  | nil => exact ⟨fun _ => nofun, fun _ => rfl⟩
  | cons a as ih =>
    rw [List.forall_mem_cons, ← ih]
    exact seq_eq_ok

end Polyglot
