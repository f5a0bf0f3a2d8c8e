import Polyglot.Choice

/-!
# Decision trees and their exhaustive walk

A nondeterministic computation is a `Decision`: either it is over, with a value, or it decides among
some number of alternatives, each of which leads on to another decision. No alternatives at all is a
dead end.

- `Decision.visits`: all leaves and dead ends, in depth-first order; the meaning of a tree.
- `Decision.walk`: one descent, guided by a `Choice`.
- `Decision.attempt`: one round of the enumeration: mark, walk, reset, advance; `Decision.rounds`
  are the first few of them.
- `Decision.remaining`: the number of rounds still to come, which every round brings down
  (`remaining_attempt_lt`).

A resumable enumeration that uses these rounds is in `Polyglot.Search`.
-/

namespace Polyglot

/-- A tree of decisions with values of type `α` at its leaves. -/
inductive Decision (α : Type) where
  | leaf (a : α)
  | choose (n : Nat) (branch : Fin n → Decision α)

/-- The end of one descent: the alternatives picked on the way, outermost first, and the value
found, or none at a dead end. -/
structure Visit (α : Type) where
  picks : List Nat
  value : Option α
  deriving DecidableEq, Repr

/-- The same visit seen from one decision higher up. -/
def Visit.below {α : Type} (i : Nat) (v : Visit α) : Visit α := { v with picks := i :: v.picks }

namespace Decision

variable {α : Type} {β : Type}

/-- A dead end. -/
def fail : Decision α := .choose 0 Fin.elim0

/-- Goes on with `f` at every leaf. -/
def bind : Decision α → (α → Decision β) → Decision β
  | .leaf a, f => f a
  | .choose n branch, f => .choose n fun i => (branch i).bind f

instance : Monad Decision where
  pure := .leaf
  bind := Decision.bind

/-- Decides which member of a list to go on with. -/
def ofList (as : List α) : Decision α := .choose as.length fun i => .leaf as[i]

/-- Every leaf and dead end, in depth-first order. -/
def visits : Decision α → List (Visit α)
  | .leaf a => [⟨[], some a⟩]
  | .choose 0 _ => [⟨[], none⟩]
  | .choose (_ + 1) branch =>
    (List.ofFn fun i => ((branch i).visits).map (Visit.below i)).flatten

/-- The values at the leaves, in depth-first order. -/
def values (t : Decision α) : List α := t.visits.filterMap Visit.value

/-- One descent: every decision is taken by `Choice.next`. -/
def walk : Decision α → Choice → Except Choice.Fault (Visit α × Choice)
  | .leaf a, c => .ok (⟨[], some a⟩, c)
  | .choose n branch, c =>
    match c.next n with
    | .error f => .error f
    | .ok none => .ok (⟨[], none⟩, c)
    | .ok (some (i, c)) =>
      match (branch i).walk c with
      | .error f => .error f
      | .ok (v, c) => .ok (v.below i, c)

/-- What one round of the enumeration yields. -/
structure Round (α : Type) where
  visit : Visit α
  /-- The record as the walk left it. -/
  walked : Choice
  /-- The record from which the next round starts. -/
  choice : Choice
  /-- Whether there is a next round. -/
  more : Bool

/-- One round of the enumeration of the tree below the current depth. -/
def attempt (t : Decision α) (c : Choice) : Except Choice.Fault (Round α) := do
  let (visit, walked) ← t.walk c
  let back ← walked.reset c.mark
  let (more, choice) := Choice.advance back
  return { visit, walked, choice, more }

/-- The first rounds of the enumeration, up to `limit` of them. -/
def rounds (t : Decision α) : Nat → Choice → Except Choice.Fault (List (Round α))
  | 0, _ => .ok []
  | limit + 1, c => do
    let round ← t.attempt c
    if round.more then return round :: (← t.rounds limit round.choice) else return [round]

/-! ## Every round makes progress -/

/-- How many rounds of the enumeration follow the one that replays `p`. -/
def remaining : Decision α → List Nat → Nat
  | .leaf _, p => p.foldr (· + ·) 0
  | .choose 0 _, p => p.foldr (· + ·) 0
  | .choose (n + 1) branch, p =>
    let last := Choice.width (n + 1) - 1
    let later := p.headD last
    (branch (Fin.ofNat (n + 1) (last - later))).remaining p.tail +
      (List.range later).foldl
        (fun k j => k + (1 + (branch (Fin.ofNat (n + 1) (last - j))).remaining [])) 0

/-- A path that is replayed to its end and then only advanced loses at least one each time. -/
theorem foldr_successor?_lt {p q : List Nat} (h : Choice.successor? p = some q) :
    q.foldr (· + ·) 0 < p.foldr (· + ·) 0 := by
  induction p generalizing q with
  | nil => simp [Choice.successor?] at h
  | cons r rest ih =>
    cases hrest : Choice.successor? rest with
    | some q' =>
      rw [Choice.successor?_cons_of_some r hrest] at h
      have := ih hrest
      cases h
      simpa using this
    | none =>
      rw [Choice.successor?_cons_of_none r hrest] at h
      split at h
      · cases h
      · cases h
        simp
        omega

/-- The rounds that follow a decision are those below the alternative taken and those of the later
alternatives. -/
theorem remaining_choose (n : Nat) (branch : Fin (n + 1) → Decision α) (later : Nat)
    (p : List Nat) :
    (Decision.choose (n + 1) branch).remaining (later :: p) =
      (branch (Fin.ofNat (n + 1) (Choice.width (n + 1) - 1 - later))).remaining p +
        (List.range later).foldl (fun k j => k +
          (1 + (branch (Fin.ofNat (n + 1) (Choice.width (n + 1) - 1 - j))).remaining [])) 0 := by
  simp [remaining]

/-- A fresh decision costs as much as one recorded with all its alternatives. -/
theorem remaining_choose_head (n : Nat) (branch : Fin (n + 1) → Decision α) (p : List Nat) :
    (Decision.choose (n + 1) branch).remaining p =
      (Decision.choose (n + 1) branch).remaining
        (p.headD (Choice.width (n + 1) - 1) :: p.tail) := by
  simp [remaining]

/-- What a walk leaves behind: the decisions `u` it took and the stale ones `l` it never reached.
Replaying them costs as many rounds as before, and the path after them costs fewer. -/
theorem walk_progress (t : Decision α) {taken p : List Nat} {v : Visit α} {c : Choice}
    (h : t.walk ⟨taken, p⟩ = .ok (v, c)) :
    ∃ u l, c = ⟨u.reverse ++ taken, l⟩ ∧ t.remaining (u ++ l) = t.remaining p ∧
      ∀ q, Choice.successor? (u ++ l) = some q → t.remaining q < t.remaining p := by
  induction t generalizing taken p v c with
  | leaf a =>
    simp only [walk, Except.ok.injEq, Prod.mk.injEq] at h
    exact ⟨[], p, h.2.symm, rfl, fun q hq => foldr_successor?_lt hq⟩
  | choose n branch ih =>
    cases n with
    | zero =>
      simp only [walk, Choice.next_zero, Except.ok.injEq, Prod.mk.injEq] at h
      exact ⟨[], p, h.2.symm, rfl, fun q hq => foldr_successor?_lt hq⟩
    | succ n =>
      rw [remaining_choose_head n branch p]
      simp only [walk, Choice.next_succ] at h
      generalize p.headD (Choice.width (n + 1) - 1) = later at h ⊢
      by_cases hle : later ≤ Choice.width (n + 1) - 1
      · rw [if_pos hle] at h
        dsimp only at h
        split at h
        · cases h
        · rename_i v' c' hw
          simp only [Except.ok.injEq, Prod.mk.injEq] at h
          obtain ⟨u, l, hc, hrem, hsucc⟩ := ih _ hw
          refine ⟨later :: u, l, ?_, ?_, ?_⟩
          · rw [← h.2, hc]
            simp
          · rw [List.cons_append, remaining_choose, remaining_choose, hrem]
          · intro q hq
            rw [List.cons_append] at hq
            cases hs : Choice.successor? (u ++ l) with
            | some q' =>
              rw [Choice.successor?_cons_of_some later hs] at hq
              cases hq
              rw [remaining_choose, remaining_choose]
              have := hsucc q' hs
              omega
            | none =>
              rw [Choice.successor?_cons_of_none later hs] at hq
              split at hq
              · cases hq
              · cases hq
                obtain ⟨k, rfl⟩ : ∃ k, later = k + 1 := ⟨later - 1, by omega⟩
                rw [remaining_choose, remaining_choose, List.range_succ]
                simp
                omega
      · rw [if_neg hle] at h
        cases h

/-- What a round is made of. -/
theorem attempt_eq_ok {t : Decision α} {c : Choice} {r : Round α} (h : t.attempt c = .ok r) :
    ∃ u l, t.walk c = .ok (r.visit, ⟨u.reverse ++ c.taken, l⟩) ∧
      t.remaining (u ++ l) = t.remaining c.pending ∧
      (∀ q, Choice.successor? (u ++ l) = some q → t.remaining q < t.remaining c.pending) ∧
      (r.more, r.choice) = Choice.advance ⟨c.taken, u ++ l⟩ := by
  unfold attempt at h
  cases hw : t.walk c with
  | error f => rw [hw] at h; cases h
  | ok vc =>
    obtain ⟨v, w⟩ := vc
    obtain ⟨u, l, rfl, hrem, hsucc⟩ := walk_progress t hw
    have hreset := Choice.reset_append u.reverse c.taken l
    rw [List.reverse_reverse] at hreset
    rw [hw] at h
    change (Choice.reset ⟨u.reverse ++ c.taken, l⟩ ⟨c.taken.length⟩ >>= _) = _ at h
    rw [hreset] at h
    cases h
    exact ⟨u, l, rfl, hrem, hsucc, rfl⟩

/-- A round keeps the decisions above the current depth. -/
theorem taken_of_attempt {t : Decision α} {c : Choice} {r : Round α} (h : t.attempt c = .ok r) :
    r.choice.taken = c.taken := by
  obtain ⟨u, l, -, -, -, hadv⟩ := attempt_eq_ok h
  have := Choice.advance_taken ⟨c.taken, u ++ l⟩
  rwa [← hadv] at this

/-- A round that announces another one has one round fewer to come. -/
theorem remaining_attempt_lt {t : Decision α} {c : Choice} {r : Round α}
    (h : t.attempt c = .ok r) (hmore : r.more = true) :
    t.remaining r.choice.pending < t.remaining c.pending := by
  obtain ⟨u, l, -, -, hsucc, hadv⟩ := attempt_eq_ok h
  unfold Choice.advance at hadv
  split at hadv
  · rename_i q hq
    have hchoice := congrArg Prod.snd hadv
    dsimp only at hchoice
    rw [hchoice]
    exact hsucc q hq
  · have := congrArg Prod.fst hadv
    simp [hmore] at this

end Decision

end Polyglot
