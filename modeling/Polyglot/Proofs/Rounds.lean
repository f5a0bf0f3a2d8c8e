import Polyglot.Proofs.Checks
import Polyglot.Proofs.Exhaustion

/-!
# The rounds of an enumeration

An enumeration starts at some depth of a record and makes its rounds there: walk, come back,
advance. The decisions above that depth are those of an enumeration around it, and none of the
rounds may touch them. Within a round nothing depends on how far the walk has come: whoever comes
back early and walks again is led to the same end.

- `Decision.Ends`: the ends of a tree, without any order.
- `Decision.Passes`: the records that come up on a walk; `Passes.walk_eq`: to come back from one of
  them and walk again is to make the same walk.
- `Decision.rounds_exact`: the rounds visit every end once, in depth-first order, and leave the
  record as it was.
-/

namespace Polyglot

/-- A decision that was taken is taken again in the same way, whatever is recorded after it. -/
theorem Choice.next_again {c c' : Choice} {n : Nat} {i : Fin n}
    (h : c.next n = .ok (some (i, c'))) :
    ∃ later, c' = ⟨later :: c.taken, c.pending.tail⟩ ∧
      ∀ rest, (⟨c.taken, later :: rest⟩ : Choice).next n =
        .ok (some (i, ⟨later :: c.taken, rest⟩)) := by
  unfold Choice.next at h ⊢
  split at h
  · cases h
  · rename_i hn
    dsimp only at h
    split at h
    · rename_i hle
      simp only [Except.ok.injEq, Option.some.injEq, Prod.mk.injEq] at h
      obtain ⟨rfl, rfl⟩ := h
      refine ⟨_, rfl, fun rest => ?_⟩
      rw [dif_neg hn]
      exact if_pos hle
    · cases h

namespace Decision

variable {α : Type} {t : Decision α}

/-! ## The ends of a tree -/

/-- An end of a tree: a leaf or a dead end, with the picks that lead to it. -/
inductive Ends : Decision α → Visit α → Prop where
  | leaf (a : α) : Ends (.leaf a) ⟨[], some a⟩
  | dead (branch : Fin 0 → Decision α) : Ends (.choose 0 branch) ⟨[], none⟩
  | choose {n : Nat} {branch : Fin n → Decision α} (i : Fin n) {v : Visit α}
      (h : Ends (branch i) v) : Ends (.choose n branch) (v.below i)

/-- The visits of a tree are its ends. -/
theorem mem_visits_iff {v : Visit α} : v ∈ t.visits ↔ t.Ends v := by
  induction t generalizing v with
  | leaf a =>
    rw [visits, List.mem_singleton]
    constructor
    · rintro rfl
      exact .leaf a
    · rintro ⟨⟩
      rfl
  | choose n branch ih =>
    cases n with
    | zero =>
      rw [visits, List.mem_singleton]
      constructor
      · rintro rfl
        exact .dead branch
      · intro h
        cases h with
        | dead => rfl
        | choose i => exact i.elim0
    | succ n =>
      rw [mem_visits_choose]
      constructor
      · rintro ⟨i, u, hu, rfl⟩
        exact .choose i ((ih i).1 hu)
      · intro h
        cases h with
        | choose i hv => exact ⟨i, _, (ih i).2 hv, rfl⟩

/-- **The visits are in depth-first order**: the picks that lead to them grow lexicographically, so
none comes twice. -/
theorem pairwise_picks_visits (t : Decision α) :
    (t.visits.map Visit.picks).Pairwise (· < ·) := by
  induction t with
  | leaf a => simp [visits]
  | choose n branch ih =>
    cases n with
    | zero => simp [visits]
    | succ n =>
      rw [visits_choose, visitsBelow, List.map_flatten, List.map_ofFn, List.pairwise_flatten]
      constructor
      · -- below one alternative the order is that of its branch
        intro picks hpicks
        obtain ⟨i, rfl⟩ := List.mem_ofFn.1 hpicks
        rw [Function.comp_apply, List.map_map, List.pairwise_map]
        refine (List.pairwise_map.1 (ih i)).imp fun {u v} huv => ?_
        exact List.cons_lt_cons_iff.2 (.inr ⟨rfl, huv⟩)
      · -- and an earlier alternative comes before a later one
        refine List.pairwise_ofFn.2 fun i j hij p hp q hq => ?_
        simp only [Function.comp_apply, List.map_map, List.mem_map] at hp hq
        obtain ⟨u, -, rfl⟩ := hp
        obtain ⟨v, -, rfl⟩ := hq
        exact List.cons_lt_cons_iff.2 (.inl hij)

/-! ## Coming back in the middle of a walk -/

/-- A record comes up on the walk from another one. -/
inductive Passes : Decision α → Choice → Choice → Prop where
  | here (t : Decision α) (c : Choice) : Passes t c c
  | on {n : Nat} {branch : Fin n → Decision α} {c c' m : Choice} {i : Fin n}
      (hnext : c.next n = .ok (some (i, c'))) (h : Passes (branch i) c' m) :
      Passes (.choose n branch) c m

/-- The record that a walk leaves came up on it. -/
theorem passes_of_walk {c c' : Choice} {v : Visit α} (h : t.walk c = .ok (v, c')) :
    t.Passes c c' := by
  induction t generalizing c c' v with
  | leaf a =>
    cases h
    exact .here _ _
  | choose n branch ih =>
    rw [walk] at h
    split at h
    · cases h
    · cases h
      exact .here _ _
    · rename_i i c₁ hnext
      cases hwalk : (branch i).walk c₁ with
      | error f =>
        rw [hwalk] at h
        cases h
      | ok vc =>
        rw [hwalk] at h
        cases h
        exact .on hnext (ih i hwalk)

/-- What is recorded in the middle of a walk, taken from its beginning, leads to the same end. -/
theorem Passes.walk_eq {c m : Choice} (h : t.Passes c m) :
    ∃ u l, m = ⟨u.reverse ++ c.taken, l⟩ ∧ t.walk ⟨c.taken, u ++ l⟩ = t.walk c := by
  induction h with
  | here t c => exact ⟨[], c.pending, rfl, rfl⟩
  | @on n branch c c' m i hnext _ ih =>
    obtain ⟨later, rfl, hagain⟩ := Choice.next_again hnext
    obtain ⟨u, l, rfl, hwalk⟩ := ih
    refine ⟨later :: u, l, by simp, ?_⟩
    rw [List.cons_append, walk, walk, hnext, hagain]
    dsimp only
    rw [hwalk]

/-- So whoever comes back early makes the same walk. -/
theorem Passes.reset {c m : Choice} (h : t.Passes c m) :
    ∃ back, m.reset c.mark = .ok back ∧ back.reset c.mark = .ok back ∧ t.walk back = t.walk c := by
  obtain ⟨u, l, rfl, hwalk⟩ := h.walk_eq
  refine ⟨⟨c.taken, u ++ l⟩, ?_, Choice.reset_append [] c.taken (u ++ l), hwalk⟩
  have hreset := Choice.reset_append u.reverse c.taken l
  rwa [List.reverse_reverse] at hreset

/-! ## All rounds -/

/-- A round that is the last one leaves nothing recorded below the depth that it started from. -/
theorem pending_of_attempt {c : Choice} {r : Round α} (h : t.attempt c = .ok r)
    (hmore : r.more = false) : r.choice.pending = [] := by
  obtain ⟨u, l, -, -, -, hadvance⟩ := attempt_eq_ok h
  unfold Choice.advance at hadvance
  split at hadvance
  · have := congrArg Prod.fst hadvance
    simp [hmore] at this
  · obtain ⟨-, hchoice⟩ := Prod.mk.inj hadvance
    rw [hchoice]

/-- The visit of a round is that of its walk. -/
theorem walk_of_attempt {c : Choice} {r : Round α} (h : t.attempt c = .ok r) :
    t.walk c = .ok (r.visit, r.walked) := by
  obtain ⟨⟨v, walked⟩, hwalk, h⟩ := bind_eq_ok.1 h
  obtain ⟨back, -, h⟩ := bind_eq_ok.1 h
  cases h
  exact hwalk

/-- The rounds of an enumeration, each from the record that the one before left. -/
inductive Loop (t : Decision α) : Choice → List (Round α) → Prop where
  | last {c : Choice} {r : Round α} (h : t.attempt c = .ok r) (hmore : r.more = false) :
      Loop t c [r]
  | more {c : Choice} {r : Round α} {rs : List (Round α)} (h : t.attempt c = .ok r)
      (hmore : r.more = true) (hrest : Loop t r.choice rs) : Loop t c (r :: rs)

/-- The loop makes the visits that the record stands for, and then it ends. -/
theorem exists_loop (hn : t.Narrow) {c : Choice} (hc : t.Follows c.pending) :
    ∃ rs, t.Loop c rs ∧ rs.map Round.visit = t.visitsFrom c.pending := by
  generalize hlength : (t.visitsFrom c.pending).length = k
  induction k using Nat.strongRecOn generalizing c with
  | ind k ih =>
    obtain ⟨r, hattempt, hfollows, hvisits⟩ := attempt_of_follows hn hc
    cases hmore : r.more with
    | false => exact ⟨[r], .last hattempt hmore, by simp [hvisits, hmore]⟩
    | true =>
      rw [hmore, if_pos rfl] at hvisits
      obtain ⟨rs, hloop, hrest⟩ := ih _ (by rw [← hlength, hvisits]; simp) (hfollows hmore) rfl
      exact ⟨r :: rs, .more hattempt hmore hloop, by rw [List.map_cons, hrest, hvisits]⟩

namespace Loop

variable {c : Choice} {rs : List (Round α)}

theorem rounds_eq (h : t.Loop c rs) {limit : Nat} (hlimit : rs.length ≤ limit) :
    t.rounds limit c = .ok rs := by
  induction h generalizing limit with
  | last h hmore =>
    obtain ⟨limit, rfl⟩ := Nat.exists_eq_add_one.2 (Nat.lt_of_lt_of_le Nat.one_pos hlimit)
    refine bind_eq_ok.2 ⟨_, h, ?_⟩
    rw [hmore, if_neg Bool.false_ne_true]
    rfl
  | more h hmore _ ih =>
    obtain ⟨limit, rfl⟩ := Nat.exists_eq_add_one.2 (Nat.lt_of_lt_of_le (Nat.succ_pos _) hlimit)
    refine bind_eq_ok.2 ⟨_, h, ?_⟩
    rw [hmore, if_pos rfl]
    exact bind_eq_ok.2 ⟨_, ih (Nat.le_of_succ_le_succ hlimit), rfl⟩

/-- All rounds but the last announce another one, and the last leaves the record without anything
below the depth of the loop. -/
theorem exists_last (h : t.Loop c rs) :
    ∃ before last, rs = before ++ [last] ∧ (∀ r ∈ before, r.more = true) ∧ last.more = false ∧
      last.choice = ⟨c.taken, []⟩ := by
  induction h with
  | @last c r h hmore =>
    refine ⟨[], r, rfl, nofun, hmore, ?_⟩
    rw [← taken_of_attempt h, ← pending_of_attempt h hmore]
  | @more c r rs h hmore _ ih =>
    obtain ⟨before, last, rfl, hbefore, hlast, hchoice⟩ := ih
    refine ⟨r :: before, last, rfl, fun r' hr' => ?_, hlast, ?_⟩
    · rcases List.mem_cons.1 hr' with rfl | hr'
      · exact hmore
      · exact hbefore r' hr'
    · rw [hchoice, taken_of_attempt h]

/-- Each round is an attempt from the record before it, which keeps the decisions above the loop. -/
theorem attempt_of_mem (h : t.Loop c rs) {start : Choice} {r : Round α}
    (hr : (start, r) ∈ (c :: rs.map Round.choice).zip rs) :
    start.taken = c.taken ∧ t.attempt start = .ok r := by
  induction h with
  | last h =>
    cases List.mem_singleton.1 hr
    exact ⟨rfl, h⟩
  | more h _ _ ih =>
    rcases List.mem_cons.1 hr with heq | hr
    · cases heq
      exact ⟨rfl, h⟩
    · obtain ⟨htaken, hattempt⟩ := ih hr
      exact ⟨htaken.trans (taken_of_attempt h), hattempt⟩

end Loop

/-- **The rounds of an enumeration visit every end once.** For every tree whose decisions a record
can hold, and every record that ends at its depth: so many rounds are made and not more; they visit
the leaves and dead ends of the tree, in depth-first order; all but the last announce another one,
and the last leaves the record as it was at the beginning. At any moment of a round, to come back to
the depth of the loop and walk again leads to the same end and leaves the same record. -/
theorem rounds_exact (hn : t.Narrow) {c : Choice} (hc : c.pending = []) :
    ∃ rs : List (Round α), (∀ limit ≥ rs.length, t.rounds limit c = .ok rs) ∧
      (∀ v, v ∈ rs.map Round.visit ↔ t.Ends v) ∧
      (rs.map fun r => r.visit.picks).Pairwise (· < ·) ∧
      (∃ before last, rs = before ++ [last] ∧ (∀ r ∈ before, r.more = true) ∧
        last.more = false ∧ last.choice = c) ∧
      ∀ start r, (start, r) ∈ (c :: rs.map Round.choice).zip rs →
        start.taken = c.taken ∧ t.Passes start r.walked ∧
          ∀ m, t.Passes start m → ∃ back, m.reset c.mark = .ok back ∧
            back.reset c.mark = .ok back ∧ t.walk back = .ok (r.visit, r.walked) := by
  obtain ⟨rs, hloop, hvisits⟩ := exists_loop hn (c := c) (hc ▸ follows_nil t)
  rw [hc, visitsFrom_nil] at hvisits
  refine ⟨rs, fun limit => hloop.rounds_eq, fun v => ?_, ?_, ?_, fun start r hr => ?_⟩
  · rw [hvisits, mem_visits_iff]
  · have horder := pairwise_picks_visits t
    rwa [← hvisits, List.map_map] at horder
  · obtain ⟨before, last, hrs, hbefore, hlast, hchoice⟩ := hloop.exists_last
    exact ⟨before, last, hrs, hbefore, hlast, hchoice.trans (by rw [← hc])⟩
  · obtain ⟨htaken, hattempt⟩ := hloop.attempt_of_mem hr
    have hwalk := walk_of_attempt hattempt
    have hmark : start.mark = c.mark := by rw [Choice.mark, Choice.depth, htaken]; rfl
    refine ⟨htaken, passes_of_walk hwalk, fun m hm => ?_⟩
    rw [← hwalk, ← hmark]
    exact hm.reset

/-- A tree with a leaf, a dead end and a decision of its own among its alternatives. -/
def uneven : Decision Nat :=
  .choose 3 fun i =>
    match i with
    | 0 => .leaf 0
    | 1 => .fail
    | 2 => .choose 2 fun j => .leaf (j + 1)

theorem narrow_uneven : uneven.Narrow := by
  refine ⟨by decide, fun i => ?_⟩
  match i with
  | 0 => trivial
  | 1 => exact ⟨by decide, nofun⟩
  | 2 => exact ⟨by decide, fun _ => trivial⟩

theorem rounds_exact_uneven :
    uneven.Narrow ∧ (⟨[1, 0], []⟩ : Choice).pending = [] ∧
    ∃ rs : List (Round Nat), (∀ limit ≥ rs.length, uneven.rounds limit ⟨[1, 0], []⟩ = .ok rs) ∧
      (∀ v, v ∈ rs.map Round.visit ↔ uneven.Ends v) ∧
      (rs.map fun r => r.visit.picks).Pairwise (· < ·) ∧
      (∃ before last, rs = before ++ [last] ∧ (∀ r ∈ before, r.more = true) ∧
        last.more = false ∧ last.choice = ⟨[1, 0], []⟩) ∧
      ∀ start r, (start, r) ∈ (⟨[1, 0], []⟩ :: rs.map Round.choice).zip rs →
        start.taken = [1, 0] ∧ uneven.Passes start r.walked ∧
          ∀ m, uneven.Passes start m → ∃ back, m.reset (Choice.mark ⟨[1, 0], []⟩) = .ok back ∧
            back.reset (Choice.mark ⟨[1, 0], []⟩) = .ok back ∧
            uneven.walk back = .ok (r.visit, r.walked) :=
  ⟨narrow_uneven, rfl, rounds_exact narrow_uneven rfl⟩

end Decision

end Polyglot
