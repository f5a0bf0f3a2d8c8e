/-!
# Replayable decisions

A depth-first search that asks `next` at every decision point can be walked again and again, each
walk taking the next branch, without keeping a stack of its own. The record of one walk is a
`Choice`: for every decision, outermost first, how many alternatives come after the one taken.

- `Choice.next`: replay the recorded decision at this depth, or record a fresh one and take its
  first alternative.
- `Choice.mark` and `Choice.reset`: come back to an earlier depth; what was recorded below it stays
  and is replayed by the next walk.
- `Choice.advance`: move on to the next path below the current depth, in depth-first order.

The record is kept in two halves, the decisions above the current depth and those below it, so the
current depth can never lie beyond the end of the path.
-/

namespace Polyglot

/-- A record of decisions, split at the current depth. Each decision is kept as the number of
alternatives that come after the one taken. -/
structure Choice where
  /-- Decisions above the current depth, innermost first. -/
  taken : List Nat := []
  /-- Decisions below the current depth, outermost first. -/
  pending : List Nat := []
  deriving DecidableEq, Repr

namespace Choice

/-- A depth to which `reset` can come back. -/
structure Mark where
  depth : Nat
  deriving DecidableEq, Repr

/-- What goes wrong when a record is driven against its use. -/
inductive Fault where
  /-- A mark deeper than the current depth. -/
  | markBeyondDepth (mark depth : Nat)
  /-- A recorded decision had more alternatives left than the decision point now offers. -/
  | replayTooWide (recorded alternatives : Nat)
  deriving DecidableEq, Repr

/-- The wording of a fault. -/
def Fault.message : Fault → String
  | .markBeyondDepth mark depth =>
    "choice mark " ++ toString mark ++ " is beyond current depth " ++ toString depth
  | .replayTooWide recorded alternatives =>
    "replayed choice " ++ toString recorded ++ " exceeds " ++ toString alternatives ++
      " alternatives"

/-- The largest number of alternatives that a record can hold; wider decisions count as this. -/
def maxAlternatives : Nat := 0xFFFFFFFF

/-- How many decisions lie above the current position. -/
def depth (c : Choice) : Nat := c.taken.length

/-- The recorded decisions, outermost first, each as the number of alternatives that were untried
when it was made: the one taken and those after it. -/
def path (c : Choice) : List Nat := (c.taken.reverse ++ c.pending).map (· + 1)

/-- The current depth, for `reset`. -/
def mark (c : Choice) : Mark := ⟨c.depth⟩

/-- Climbs `k` decisions up; they stay recorded. -/
def climb : Nat → Choice → Choice
  | 0, c => c
  | k + 1, ⟨r :: taken, pending⟩ => climb k ⟨taken, r :: pending⟩
  | _ + 1, ⟨[], pending⟩ => ⟨[], pending⟩

/-- Comes back to a mark taken at this depth or above it. -/
def reset (c : Choice) (m : Mark) : Except Fault Choice :=
  if m.depth ≤ c.depth then .ok (climb (c.depth - m.depth) c)
  else .error (.markBeyondDepth m.depth c.depth)

/-- How many alternatives a decision among `n` is recorded with. -/
def width (n : Nat) : Nat := min n maxAlternatives

theorem width_le (n : Nat) : width n ≤ n := Nat.min_le_left ..

theorem width_pos {n : Nat} (h : n ≠ 0) : 0 < width n := by
  simp only [width, maxAlternatives]
  omega

/-- Decides among `n` alternatives: nothing if there are none, otherwise the index taken and the
record one level deeper. A decision not recorded yet takes the first alternative. -/
def next (c : Choice) (n : Nat) : Except Fault (Option (Fin n × Choice)) :=
  if h : n = 0 then .ok none
  else
    let last := width n - 1
    let later := c.pending.headD last
    if later ≤ last then
      .ok (some (⟨last - later, by have := width_le n; have := width_pos h; omega⟩,
        ⟨later :: c.taken, c.pending.tail⟩))
    else .error (.replayTooWide (later + 1) (width n))

/-- The path that follows `p` in depth-first order: decisions with no alternative left are dropped
from the end, and the deepest other one moves on. Nothing follows the last path. -/
def successor? : List Nat → Option (List Nat)
  | [] => none
  | r :: rest =>
    match successor? rest, r with
    | some rest', r => some (r :: rest')
    | none, 0 => none
    | none, r + 1 => some [r]

/-- Moves to the next path below the current depth, and says whether there was one. Once all have
been tried nothing stays recorded below the current depth. -/
def advance (c : Choice) : Bool × Choice :=
  match successor? c.pending with
  | some pending => (true, { c with pending })
  | none => (false, { c with pending := [] })

@[simp] theorem next_zero (c : Choice) : c.next 0 = .ok none := rfl

theorem next_succ (c : Choice) (n : Nat) :
    c.next (n + 1) =
      if c.pending.headD (width (n + 1) - 1) ≤ width (n + 1) - 1 then
        .ok (some (Fin.ofNat (n + 1) (width (n + 1) - 1 - c.pending.headD (width (n + 1) - 1)),
          ⟨c.pending.headD (width (n + 1) - 1) :: c.taken, c.pending.tail⟩))
      else .error (.replayTooWide (c.pending.headD (width (n + 1) - 1) + 1) (width (n + 1))) := by
  have hwidth := width_le (n + 1)
  have hpos := width_pos (Nat.succ_ne_zero n)
  simp only [next, Nat.add_eq_zero_iff, Nat.one_ne_zero, and_false, ↓reduceDIte]
  congr 4
  apply Fin.ext
  simp only [Fin.ofNat]
  exact (Nat.mod_eq_of_lt (by omega)).symm

theorem successor?_cons_of_some {rest q : List Nat} (r : Nat) (h : successor? rest = some q) :
    successor? (r :: rest) = some (r :: q) := by
  simp [successor?, h]

theorem successor?_cons_of_none {rest : List Nat} (r : Nat) (h : successor? rest = none) :
    successor? (r :: rest) = if r = 0 then none else some [r - 1] := by
  cases r <;> simp [successor?, h]

/-- Advancing leaves the decisions above the current depth alone. -/
theorem advance_taken (c : Choice) : c.advance.2.taken = c.taken := by
  unfold advance
  split <;> rfl

/-- Climbing over what was just taken moves it back below the current depth. -/
theorem climb_append (u taken pending : List Nat) :
    climb u.length ⟨u ++ taken, pending⟩ = ⟨taken, u.reverse ++ pending⟩ := by
  induction u generalizing pending with
  | nil => rfl
  | cons r u ih => simp [climb, ih]

/-- Coming back to where a stretch of decisions began leaves them all pending. -/
theorem reset_append (u taken pending : List Nat) :
    reset ⟨u ++ taken, pending⟩ ⟨taken.length⟩ = .ok ⟨taken, u.reverse ++ pending⟩ := by
  simp [reset, depth, climb_append]

end Choice

end Polyglot
