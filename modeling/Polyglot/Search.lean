import Polyglot.Decision

/-!
# Resumable enumeration of a decision tree

A `Search` remembers where the enumeration of a tree stands. `Search.next?` goes on round by round
until a round is accepted, and once the tree is exhausted it has nothing more to give. What
accepting a round means is up to the caller, who sees every round, failed ones included, and may
keep a state of its own: which values were seen before, counters, a store.
-/

namespace Polyglot

/-- Where an enumeration stands. -/
structure Search where
  choice : Choice := {}
  /-- Whether every path has been tried. -/
  finished : Bool := false
  deriving DecidableEq, Repr

namespace Search

variable {α β σ : Type}

/-- How many rounds are still to come. -/
def remaining (t : Decision α) (s : Search) : Nat :=
  if s.finished then 0 else t.remaining s.choice.pending + 1

/-- Goes on until `accept` turns the value of a round, or its failure, into a result. The state of
the caller is threaded through all rounds. -/
def next? (t : Decision α) (accept : Option α → σ → Option β × σ) (s : Search) (state : σ) :
    Except Choice.Fault (Option β × Search × σ) :=
  if _hs : s.finished then .ok (none, s, state)
  else
    match _hr : t.attempt s.choice with
    | .error fault => .error fault
    | .ok round =>
      let s' : Search := ⟨round.choice, !round.more⟩
      match accept round.visit.value state with
      | (some b, state) => .ok (some b, s', state)
      | (none, state) => s'.next? t accept state
termination_by s.remaining t
decreasing_by
  simp only [remaining, _hs, Bool.false_eq_true, if_false]
  cases hm : round.more with
  | false => simp
  | true =>
    have := Decision.remaining_attempt_lt _hr hm
    simpa using this

/-- Takes up to `limit` results, and asks for one more only below that limit: whether the
enumeration ended is known only then. -/
def take (t : Decision α) (accept : Option α → σ → Option β × σ) :
    Nat → Search → σ → Except Choice.Fault (List β × Search × σ)
  | 0, s, state => .ok ([], s, state)
  | limit + 1, s, state => do
    let (b?, s, state) ← s.next? t accept state
    match b? with
    | none => return ([], s, state)
    | some b =>
      let (bs, s, state) ← take t accept limit s state
      return (b :: bs, s, state)

end Search

end Polyglot
