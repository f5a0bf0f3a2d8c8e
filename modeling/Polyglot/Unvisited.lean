/-!
# What is left to visit

A search that never visits anything twice on its way ends, because what is left to visit of a finite
list goes down with every step (`unvisited_cons_lt`).
-/

namespace Polyglot

variable {α : Type}

/-- How many elements of a list do not lie on a path. -/
def unvisited [DecidableEq α] (all path : List α) : Nat := (all.filter fun a => a ∉ path).length

theorem length_filter_lt {p q : α → Bool} {as : List α} {a : α} (ha : a ∈ as)
    (hp : p a = false) (hq : q a = true) (hpq : ∀ b, p b = true → q b = true) :
    (as.filter p).length < (as.filter q).length := by
  induction as with
  | nil => simp at ha
  | cons b bs ih =>
    have hle : (bs.filter p).length ≤ (bs.filter q).length := by
      rw [← List.countP_eq_length_filter, ← List.countP_eq_length_filter]
      exact List.countP_mono_left fun x _ => hpq x
    rcases List.mem_cons.1 ha with rfl | hb
    · simp only [List.filter_cons, hp, hq]
      simp
      omega
    · have := ih hb
      simp only [List.filter_cons]
      cases hpb : p b with
      | true => simpa [hpq b hpb] using this
      | false =>
        cases hqb : q b with
        | true => simp; omega
        | false => simpa using this

theorem unvisited_cons_lt [DecidableEq α] {all path : List α} {a : α} (h : a ∈ all)
    (ha : a ∉ path) : unvisited all (a :: path) < unvisited all path := by
  refine length_filter_lt h (by simp) (by simpa using ha) ?_
  intro b hb
  simp only [List.mem_cons, not_or, decide_eq_true_eq] at hb ⊢
  exact hb.2

end Polyglot
