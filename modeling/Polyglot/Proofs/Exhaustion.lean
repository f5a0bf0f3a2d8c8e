import Mathlib
import Polyglot.Proofs.Checks
import Polyglot.Search

/-!
# Every end of a decision tree is visited once

A search walks a decision tree again and again and never looks at the tree as a whole. That it
visits all ends nevertheless, each once and in depth-first order, comes from what a record of
decisions means: the visits from the one that it replays on (`Decision.visitsFrom`).

- `Decision.walk_of_follows`: a walk makes the first of these visits, and its successor stands for
  the rest of them.
- `Search.next?_eq`: a call of `Search.next?` takes the first accepted result off the list of those
  still to come.
- `Search.induction_on_rounds`: how a property of all calls is proved, round by round.
- `Search.next?_invariant`, `Search.next?_outcome`, `Search.next?_rel`: what all rounds preserve, of
  one state, together with what is found, or between two, for trees of any width.

The order is proved for trees that are `Narrow`: a record holds at most `Choice.maxAlternatives`
alternatives of a decision, and the others are never taken. So a search of a tree that is wider is
a search of what is left of it when these are cut off (`Search.next?_cut`).
-/

namespace Polyglot

/-- A decision picks among the alternatives that a record can hold. -/
theorem Choice.next_width (c : Choice) (n : Nat) :
    c.next n = (c.next (Choice.width n)).map
      (Option.map fun (i, c) => (i.castLE (Choice.width_le n), c)) := by
  have hwidth : Choice.width (Choice.width n) = Choice.width n := by simp [Choice.width]
  unfold Choice.next
  by_cases hn : n = 0
  · simp [hn, Choice.width, Except.map]
  · have hpos := Choice.width_pos hn
    simp only [hn, Nat.ne_of_gt hpos, hwidth, ↓reduceDIte]
    split <;> rfl

namespace Decision

variable {α β : Type}

/-! ## The values of a tree -/

/-- The ends of a tree, as seen from one decision higher up. -/
def visitsBelow {n : Nat} (branch : Fin n → Decision α) : List (List (Visit α)) :=
  List.ofFn fun i => ((branch i).visits).map (Visit.below i)

theorem visits_choose (n : Nat) (branch : Fin (n + 1) → Decision α) :
    (Decision.choose (n + 1) branch).visits = (visitsBelow branch).flatten := by
  rw [visits, visitsBelow]

theorem mem_visits_choose {n : Nat} {branch : Fin (n + 1) → Decision α} {v : Visit α} :
    v ∈ (Decision.choose (n + 1) branch).visits ↔ ∃ i, ∃ u ∈ (branch i).visits, v = u.below i := by
  rw [visits_choose, visitsBelow, List.mem_flatten]
  constructor
  · rintro ⟨vs, hvs, hv⟩
    obtain ⟨i, rfl⟩ := List.mem_ofFn.1 hvs
    obtain ⟨u, hu, rfl⟩ := List.mem_map.1 hv
    exact ⟨i, u, hu, rfl⟩
  · rintro ⟨i, u, hu, rfl⟩
    exact ⟨_, List.mem_ofFn.2 ⟨i, rfl⟩, List.mem_map.2 ⟨u, hu, rfl⟩⟩

theorem mem_values {t : Decision α} {a : α} :
    a ∈ t.values ↔ ∃ v ∈ t.visits, v.value = some a := List.mem_filterMap

@[simp] theorem mem_values_leaf {a b : α} : b ∈ (Decision.leaf a).values ↔ b = a := by
  simp [values, visits]

@[simp] theorem mem_values_choose {n : Nat} {branch : Fin n → Decision α} {a : α} :
    a ∈ (Decision.choose n branch).values ↔ ∃ i, a ∈ (branch i).values := by
  cases n with
  | zero => simp [values, visits]
  | succ n =>
    simp only [mem_values]
    constructor
    · rintro ⟨v, hv, ha⟩
      obtain ⟨i, u, hu, rfl⟩ := mem_visits_choose.1 hv
      exact ⟨i, u, hu, ha⟩
    · rintro ⟨i, u, hu, ha⟩
      exact ⟨u.below i, mem_visits_choose.2 ⟨i, u, hu, rfl⟩, ha⟩

@[simp] theorem not_mem_values_fail {a : α} : a ∉ (Decision.fail : Decision α).values := by
  rw [Decision.fail, mem_values_choose]
  exact fun ⟨i, _⟩ => i.elim0

@[simp] theorem mem_values_bind {t : Decision α} {f : α → Decision β} {b : β} :
    b ∈ (t.bind f).values ↔ ∃ a ∈ t.values, b ∈ (f a).values := by
  induction t with
  | leaf a => simp [Decision.bind]
  | choose n branch ih =>
    rw [Decision.bind, mem_values_choose]
    constructor
    · rintro ⟨i, hb⟩
      obtain ⟨a, ha, hb⟩ := (ih i).1 hb
      exact ⟨a, mem_values_choose.2 ⟨i, ha⟩, hb⟩
    · rintro ⟨a, ha, hb⟩
      obtain ⟨i, ha⟩ := mem_values_choose.1 ha
      exact ⟨i, (ih i).2 ⟨a, ha, hb⟩⟩

@[simp] theorem mem_values_ofList {as : List α} {a : α} : a ∈ (ofList as).values ↔ a ∈ as := by
  simp only [ofList, mem_values_choose, mem_values_leaf]
  constructor
  · rintro ⟨i, rfl⟩
    exact List.getElem_mem i.isLt
  · intro ha
    obtain ⟨i, hi, rfl⟩ := List.mem_iff_getElem.1 ha
    exact ⟨⟨i, hi⟩, rfl⟩

/-! In depth-first order: -/

theorem values_leaf (a : α) : (Decision.leaf a).values = [a] := by
  simp [values, visits]

theorem values_choose (n : Nat) (branch : Fin n → Decision α) :
    (Decision.choose n branch).values = (List.ofFn fun i => (branch i).values).flatten := by
  cases n with
  | zero => simp [values, visits]
  | succ n =>
    rw [values, visits_choose, visitsBelow, List.filterMap_flatten, List.map_ofFn]
    congr 2
    funext i
    simp only [Function.comp_apply, List.filterMap_map, values]
    rfl

theorem values_bind (t : Decision α) (f : α → Decision β) :
    (t.bind f).values = t.values.flatMap fun a => (f a).values := by
  induction t with
  | leaf a => simp [Decision.bind, values_leaf]
  | choose n branch ih =>
    simp only [Decision.bind, values_choose, ih, List.flatMap_def, List.map_flatten, List.map_ofFn,
      List.flatten_flatten]
    rfl

/-- Whatever a record says, a walk ends at an end of the tree. -/
theorem mem_visits_of_walk (t : Decision α) {c c' : Choice} {v : Visit α}
    (h : t.walk c = .ok (v, c')) : v ∈ t.visits := by
  induction t generalizing c c' v with
  | leaf a =>
    simp only [walk, Except.ok.injEq, Prod.mk.injEq] at h
    simp [visits, ← h.1]
  | choose n branch ih =>
    simp only [walk] at h
    split at h
    · cases h
    · rename_i hnext
      simp only [Except.ok.injEq, Prod.mk.injEq] at h
      cases n with
      | zero => simp [visits, ← h.1]
      | succ n =>
        rw [Choice.next_succ] at hnext
        split at hnext <;> cases hnext
    · rename_i i c₁ hnext
      cases hw : (branch i).walk c₁ with
      | error f => rw [hw] at h; cases h
      | ok vc =>
        obtain ⟨u, c₂⟩ := vc
        rw [hw] at h
        cases h
        cases n with
        | zero => exact i.elim0
        | succ n => exact mem_visits_choose.2 ⟨i, u, ih i hw, rfl⟩

/-- What a round gives is a value of the tree. -/
theorem mem_values_of_attempt {t : Decision α} {c : Choice} {r : Round α}
    (h : t.attempt c = .ok r) {a : α} (ha : r.visit.value = some a) : a ∈ t.values := by
  obtain ⟨u, l, hwalk, -⟩ := attempt_eq_ok h
  exact mem_values.2 ⟨_, mem_visits_of_walk t hwalk, ha⟩

/-! ## What a record stands for -/

/-- No decision of the tree is wider than what a record can hold. -/
def Narrow : Decision α → Prop
  | .leaf _ => True
  | .choose n branch => n ≤ Choice.maxAlternatives ∧ ∀ i, (branch i).Narrow

theorem Narrow.bind {t : Decision α} {f : α → Decision β} (ht : t.Narrow)
    (hf : ∀ a ∈ t.values, (f a).Narrow) : (t.bind f).Narrow := by
  induction t with
  | leaf a => exact hf a (by simp)
  | choose n branch ih =>
    exact ⟨ht.1, fun i => ih i (ht.2 i) fun a ha => hf a (mem_values_choose.2 ⟨i, ha⟩)⟩

/-- A record leads down the tree: every entry of it counts the alternatives after one of those that
its decision offers. -/
def Follows : Decision α → List Nat → Prop
  | _, [] => True
  | .leaf _, _ :: _ => False
  | .choose n branch, later :: p => ∃ i : Fin n, i + later + 1 = n ∧ (branch i).Follows p

/-- The alternative after which so many come. -/
def alternative (n later : Nat) : Fin (n + 1) := ⟨n - later, Nat.lt_succ_of_le (Nat.sub_le n later)⟩

theorem alternative_eq {n later : Nat} {i : Fin (n + 1)} (h : i + later = n) :
    alternative n later = i := by
  apply Fin.ext
  simp only [alternative]
  omega

/-- The visits from the one that a record replays on, in depth-first order. -/
def visitsFrom : Decision α → List Nat → List (Visit α)
  | t, [] => t.visits
  | .leaf a, _ :: _ => (Decision.leaf a).visits
  | .choose 0 _, _ :: _ => [⟨[], none⟩]
  | .choose (n + 1) branch, later :: p =>
    let i := alternative n later
    ((branch i).visitsFrom p).map (Visit.below i) ++ ((visitsBelow branch).drop (i + 1)).flatten

@[simp] theorem follows_nil (t : Decision α) : t.Follows [] := by
  cases t <;> trivial

@[simp] theorem visitsFrom_nil (t : Decision α) : t.visitsFrom [] = t.visits := by
  cases t <;> simp [visitsFrom]

theorem visitsFrom_cons {n : Nat} {branch : Fin (n + 1) → Decision α} {i : Fin (n + 1)}
    {later : Nat} (h : i + later = n) (p : List Nat) :
    (Decision.choose (n + 1) branch).visitsFrom (later :: p) =
      ((branch i).visitsFrom p).map (Visit.below i) ++
        ((visitsBelow branch).drop (i + 1)).flatten := by
  simp only [visitsFrom, alternative_eq h]

/-- The visits from an alternative on are those below it and those of the later ones. -/
theorem flatten_drop_visitsBelow {n : Nat} (branch : Fin (n + 1) → Decision α) (i : Fin (n + 1)) :
    ((visitsBelow branch).drop i).flatten =
      ((branch i).visits).map (Visit.below i) ++ ((visitsBelow branch).drop (i + 1)).flatten := by
  have hi : (i : Nat) < (visitsBelow branch).length := by
    rw [visitsBelow, List.length_ofFn]
    exact i.isLt
  rw [List.drop_eq_getElem_cons hi, List.flatten_cons]
  congr 1
  simp only [visitsBelow, List.getElem_ofFn]

/-- A decision that is not recorded yet stands for all its alternatives. -/
theorem visitsFrom_headD {n : Nat} {branch : Fin (n + 1) → Decision α} (p : List Nat) :
    (Decision.choose (n + 1) branch).visitsFrom p =
      (Decision.choose (n + 1) branch).visitsFrom (p.headD n :: p.tail) := by
  cases p with
  | cons later p => rfl
  | nil =>
    have h := flatten_drop_visitsBelow branch 0
    rw [visitsFrom_cons (i := 0) (by simp), visitsFrom_nil, visits_choose]
    simpa using h

/-- A record of a decision, full or not, leads down the alternative that it asks for. -/
theorem Follows.exists_alternative {n : Nat} {branch : Fin (n + 1) → Decision α} {p : List Nat}
    (h : (Decision.choose (n + 1) branch).Follows p) :
    ∃ i : Fin (n + 1), i + p.headD n = n ∧ (branch i).Follows p.tail := by
  cases p with
  | nil => exact ⟨0, by simp, by simp⟩
  | cons later p =>
    obtain ⟨i, hi, hp⟩ := h
    exact ⟨i, by simp only [List.headD_cons]; omega, hp⟩

/-- A walk goes down the alternative that the record asks for, and records it. -/
theorem walk_choose {n : Nat} {branch : Fin (n + 1) → Decision α}
    (hn : n + 1 ≤ Choice.maxAlternatives) {i : Fin (n + 1)} {p : List Nat}
    (hi : i + p.headD n = n) {taken : List Nat} {v : Visit α} {c : Choice}
    (h : (branch i).walk ⟨p.headD n :: taken, p.tail⟩ = .ok (v, c)) :
    (Decision.choose (n + 1) branch).walk ⟨taken, p⟩ = .ok (v.below i, c) := by
  have hwidth : Choice.width (n + 1) - 1 = n := by
    simp only [Choice.width, Nat.min_eq_left hn]
    rfl
  simp only [walk, Choice.next_succ, hwidth]
  generalize p.headD n = later at hi h ⊢
  have hpick : Fin.ofNat (n + 1) (n - later) = i := by
    apply Fin.ext
    simp only [Fin.ofNat]
    rw [Nat.mod_eq_of_lt (by omega)]
    omega
  rw [if_pos (by omega), hpick]
  simp only [h]

/-- After the last alternative of a decision nothing comes. -/
theorem drop_visitsBelow_last {n : Nat} (branch : Fin (n + 1) → Decision α) {i : Fin (n + 1)}
    (hi : (i : Nat) = n) : (visitsBelow branch).drop (i + 1) = [] :=
  List.drop_eq_nil_of_le (by simp [visitsBelow]; omega)

/-- After any other alternative the next one comes, from its beginning. -/
theorem follows_next {n later : Nat} (branch : Fin (n + 1) → Decision α) {i : Fin (n + 1)}
    (hi : i + later = n) (hlater : later ≠ 0) :
    (Decision.choose (n + 1) branch).Follows [later - 1] ∧
      (Decision.choose (n + 1) branch).visitsFrom [later - 1] =
        ((visitsBelow branch).drop (i + 1)).flatten := by
  have hlt : (i : Nat) + 1 < n + 1 := by omega
  have hnext : ((⟨i + 1, hlt⟩ : Fin (n + 1)) : Nat) + (later - 1) = n := by
    simp only
    omega
  refine ⟨⟨⟨i + 1, hlt⟩, by omega, follows_nil _⟩, ?_⟩
  rw [visitsFrom_cons hnext, visitsFrom_nil]
  exact (flatten_drop_visitsBelow branch ⟨i + 1, hlt⟩).symm

/-- **One walk, one visit**: a walk that follows a record makes the first of the visits that the
record stands for and leaves nothing pending. Its successor stands for the visits that follow; if
there is none, no visit does. -/
theorem walk_of_follows (t : Decision α) (hn : t.Narrow) (taken : List Nat) {p : List Nat}
    (h : t.Follows p) :
    ∃ v u, t.walk ⟨taken, p⟩ = .ok (v, ⟨u.reverse ++ taken, []⟩) ∧
      (Choice.successor? u = none → t.visitsFrom p = [v]) ∧
      ∀ q, Choice.successor? u = some q → t.Follows q ∧ t.visitsFrom p = v :: t.visitsFrom q := by
  induction t generalizing taken p with
  | leaf a =>
    cases p with
    | cons later p => exact h.elim
    | nil => exact ⟨⟨[], some a⟩, [], rfl, fun _ => rfl, fun q hq => by cases hq⟩
  | choose n branch ih =>
    cases n with
    | zero =>
      cases p with
      | cons later p =>
        obtain ⟨i, -, -⟩ := h
        exact i.elim0
      | nil => exact ⟨⟨[], none⟩, [], rfl, fun _ => rfl, fun q hq => by cases hq⟩
    | succ n =>
      obtain ⟨i, hi, hfollows⟩ := h.exists_alternative
      obtain ⟨v, u, hwalk, hlast, hmore⟩ := ih i (hn.2 i) (p.headD n :: taken) hfollows
      refine ⟨v.below i, p.headD n :: u, ?_, ?_⟩
      · rw [walk_choose hn.1 hi hwalk]
        simp
      rw [visitsFrom_headD, visitsFrom_cons hi]
      generalize p.headD n = later at hi ⊢
      -- The successor is one below the alternative, or else the next alternative, or there is none.
      cases hu : Choice.successor? u with
      | some q' =>
        obtain ⟨hq', hvisits⟩ := hmore q' hu
        rw [Choice.successor?_cons_of_some later hu]
        refine ⟨by simp, fun q hs => ?_⟩
        cases hs
        exact ⟨⟨i, by omega, hq'⟩, by rw [visitsFrom_cons hi, hvisits]; rfl⟩
      | none =>
        rw [Choice.successor?_cons_of_none later hu, hlast hu]
        by_cases hlater : later = 0
        · rw [if_pos hlater, drop_visitsBelow_last branch (by omega)]
          exact ⟨fun _ => rfl, fun q hs => by cases hs⟩
        · rw [if_neg hlater]
          refine ⟨by simp, fun q hs => ?_⟩
          cases hs
          obtain ⟨hfollows', hvisits⟩ := follows_next branch hi hlater
          exact ⟨hfollows', by rw [hvisits]; rfl⟩

/-- A round makes the first of the visits that the record stands for, and the record that it leaves
stands for the others. -/
theorem attempt_of_follows {t : Decision α} (hn : t.Narrow) {c : Choice}
    (h : t.Follows c.pending) :
    ∃ r, t.attempt c = .ok r ∧ (r.more = true → t.Follows r.choice.pending) ∧
      t.visitsFrom c.pending =
        r.visit :: (if r.more then t.visitsFrom r.choice.pending else []) := by
  obtain ⟨taken, p⟩ := c
  obtain ⟨v, u, hwalk, hlast, hmore⟩ := walk_of_follows t hn taken h
  have hreset := Choice.reset_append u.reverse taken []
  rw [List.reverse_reverse, List.append_nil] at hreset
  have hattempt : t.attempt ⟨taken, p⟩ = .ok
      { visit := v
        walked := ⟨u.reverse ++ taken, []⟩
        choice := (Choice.advance ⟨taken, u⟩).2
        more := (Choice.advance ⟨taken, u⟩).1 } := by
    unfold attempt
    rw [hwalk]
    show (Choice.reset ⟨u.reverse ++ taken, []⟩ ⟨taken.length⟩ >>= _) = _
    rw [hreset]
    rfl
  refine ⟨_, hattempt, ?_, ?_⟩
  all_goals
    unfold Choice.advance
    cases hu : Choice.successor? u with
    | none => simp [hlast hu]
    | some q => simp [hmore q hu]

/-! ## Decisions that are too wide -/

/-- A tree without the alternatives that a record cannot hold. -/
def cut : Decision α → Decision α
  | .leaf a => .leaf a
  | .choose n branch =>
    .choose (Choice.width n) fun i => (branch (i.castLE (Choice.width_le n))).cut

theorem narrow_cut (t : Decision α) : t.cut.Narrow := by
  induction t with
  | leaf a => trivial
  | choose n branch ih => exact ⟨Nat.min_le_right .., fun i => ih _⟩

/-- From a tree that is not too wide nothing is cut off. -/
theorem cut_eq_self {t : Decision α} (h : t.Narrow) : t.cut = t := by
  induction t with
  | leaf a => rfl
  | choose n branch ih =>
    have hbranch : (fun i => (branch i).cut) = branch := funext fun i => ih i (h.2 i)
    have hwidth : ∀ (m : Nat) (_ : m = n) (hle : m ≤ n),
        Decision.choose m (fun i => (branch (i.castLE hle)).cut) = .choose n branch := by
      rintro m rfl hle
      exact congrArg _ hbranch
    exact hwidth _ (Nat.min_eq_left h.1) _

theorem mem_values_of_cut {t : Decision α} {a : α} (h : a ∈ t.cut.values) : a ∈ t.values := by
  induction t with
  | leaf b => exact h
  | choose n branch ih =>
    rw [cut, mem_values_choose] at h
    obtain ⟨i, hi⟩ := h
    exact mem_values_choose.2 ⟨_, ih _ hi⟩

theorem mem_values_cut_iff {t : Decision α} (hn : t.Narrow) {a : α} :
    a ∈ t.cut.values ↔ a ∈ t.values := by
  refine ⟨mem_values_of_cut, fun h => ?_⟩
  induction t with
  | leaf b => exact h
  | choose n branch ih =>
    obtain ⟨i, hi⟩ := mem_values_choose.1 h
    have hlt : (i : Nat) < Choice.width n := by
      rw [Choice.width, Nat.min_eq_left hn.1]
      exact i.isLt
    rw [cut, mem_values_choose]
    exact ⟨⟨i, hlt⟩, ih _ (hn.2 _) hi⟩

/-- What is cut off is never walked on. -/
theorem walk_cut (t : Decision α) (c : Choice) : t.cut.walk c = t.walk c := by
  induction t generalizing c with
  | leaf a => rfl
  | choose n branch ih =>
    rw [cut, walk, walk, Choice.next_width c n]
    cases c.next (Choice.width n) with
    | error f => rfl
    | ok r =>
      cases r with
      | none => rfl
      | some r => simp [Except.map, ih]

end Decision

namespace Search

variable {α β σ : Type}

/-! ## One call -/

/-- A round of a search leaves fewer rounds to come. -/
theorem remaining_lt {t : Decision α} {s : Search} (hf : s.finished = false)
    {round : Decision.Round α} (h : t.attempt s.choice = .ok round) :
    remaining t ⟨round.choice, !round.more⟩ < s.remaining t := by
  have hrest : s.remaining t = t.remaining s.choice.pending + 1 := by simp [remaining, hf]
  rw [hrest, remaining]
  cases hmore : round.more with
  | false => simp
  | true =>
    have := Decision.remaining_attempt_lt h hmore
    simpa using this

/-- Induction on the rounds of a search. It is finished, or a round fails, or a round is made and the
search goes on from there. -/
@[elab_as_elim]
theorem induction_on_rounds (t : Decision α) {motive : Search → Prop}
    (finished : ∀ s : Search, s.finished = true → motive s)
    (fault : ∀ (s : Search) (f : Choice.Fault), s.finished = false →
      t.attempt s.choice = .error f → motive s)
    (round : ∀ (s : Search) (r : Decision.Round α), s.finished = false →
      t.attempt s.choice = .ok r → motive ⟨r.choice, !r.more⟩ → motive s)
    (s : Search) : motive s := by
  induction hm : s.remaining t using Nat.strongRecOn generalizing s with
  | ind m ih =>
    cases hf : s.finished with
    | true => exact finished s hf
    | false =>
      cases hattempt : t.attempt s.choice with
      | error f => exact fault s f hf hattempt
      | ok r => exact round s r hf hattempt (ih _ (hm ▸ remaining_lt hf hattempt) _ rfl)

theorem next?_of_error {t : Decision α} {accept : Option α → σ → Option β × σ} {s : Search}
    {state : σ} (hf : s.finished = false) {fault : Choice.Fault}
    (h : t.attempt s.choice = .error fault) : s.next? t accept state = .error fault := by
  rw [next?, dif_neg (by simp [hf])]
  split
  · rename_i fault' hfault
    cases h.symm.trans hfault
    rfl
  · rename_i round hround
    cases h.symm.trans hround

/-- A call makes a round, and goes on if that is not accepted. -/
theorem next?_of_ok {t : Decision α} {accept : Option α → σ → Option β × σ} {s : Search}
    {state : σ} (hf : s.finished = false) {round : Decision.Round α}
    (h : t.attempt s.choice = .ok round) :
    s.next? t accept state =
      match accept round.visit.value state with
      | (some b, state) => .ok (some b, ⟨round.choice, !round.more⟩, state)
      | (none, state) => next? t accept ⟨round.choice, !round.more⟩ state := by
  rw [next?, dif_neg (by simp [hf])]
  split
  · rename_i fault hfault
    cases h.symm.trans hfault
  · rename_i round' hround
    cases h.symm.trans hround
    rfl

/-- A search of a tree is a search of what is left when its decisions are cut to their widths. -/
theorem next?_cut (t : Decision α) (accept : Option α → σ → Option β × σ) (s : Search) (state : σ) :
    s.next? t.cut accept state = s.next? t accept state := by
  have hcut : ∀ c, t.cut.attempt c = t.attempt c := fun c => by
    rw [Decision.attempt, Decision.attempt, Decision.walk_cut]
  induction s using induction_on_rounds t generalizing state with
  | finished s hf => rw [next?, dif_pos hf, next?, dif_pos hf]
  | fault s f hf hattempt =>
    rw [next?_of_error hf ((hcut _).trans hattempt), next?_of_error hf hattempt]
  | round s r hf hattempt ih =>
    rw [next?_of_ok hf ((hcut _).trans hattempt), next?_of_ok hf hattempt]
    cases accept r.visit.value state with
    | mk b? state' =>
      cases b? with
      | some b => rfl
      | none => exact ih state'

/-! ## What a search has still to yield -/

/-- The values of the rounds that are still to come; a dead end has none. -/
def upcoming (t : Decision α) (s : Search) : List (Option α) :=
  if s.finished then [] else (t.visitsFrom s.choice.pending).map Visit.value

/-- What the caller accepts of a list of values, from a state on. -/
def acceptedOf (accept : Option α → σ → Option β × σ) : List (Option α) → σ → List β
  | [], _ => []
  | v :: vs, state =>
    match accept v state with
    | (some b, state) => b :: acceptedOf accept vs state
    | (none, state) => acceptedOf accept vs state

/-- The results that a search has still to yield. -/
def accepted (t : Decision α) (accept : Option α → σ → Option β × σ) (s : Search) (state : σ) :
    List β :=
  acceptedOf accept (s.upcoming t) state

/-- What a list of values makes of the state of the caller. -/
def stateAfter (accept : Option α → σ → Option β × σ) : List (Option α) → σ → σ
  | [], state => state
  | v :: vs, state => stateAfter accept vs (accept v state).2

/-- What the rounds that are still to come make of the state of the caller. -/
def final (t : Decision α) (accept : Option α → σ → Option β × σ) (s : Search) (state : σ) : σ :=
  stateAfter accept (s.upcoming t) state

/-- A search that was not driven beyond the tree. -/
def Stands (t : Decision α) (s : Search) : Prop :=
  s.finished = false → t.Follows s.choice.pending

theorem stands_start (t : Decision α) : Stands t {} := fun _ => Decision.follows_nil t

theorem upcoming_start (t : Decision α) : ({} : Search).upcoming t = t.visits.map Visit.value := by
  simp [upcoming]

/-- What a call comes to, from what holds of the values that are still to come and the state of the
caller: `P` as long as no round is accepted, and `Q` of what is left at the end. -/
theorem next?_of_rounds {t : Decision α} (hn : t.Narrow) {accept : Option α → σ → Option β × σ}
    {P : List (Option α) → σ → Prop} {Q : Option β → List (Option α) → σ → Prop}
    (hend : ∀ state, P [] state → Q none [] state)
    (hround : ∀ v vs state, P (v :: vs) state →
      ((accept v state).1 = none → P vs (accept v state).2) ∧
        ∀ b, (accept v state).1 = some b → Q (some b) vs (accept v state).2)
    {s : Search} (hs : Stands t s) {state : σ} (hP : P (s.upcoming t) state) :
    ∃ b? s' state', s.next? t accept state = .ok (b?, s', state') ∧ Stands t s' ∧
      Q b? (s'.upcoming t) state' := by
  generalize hvs : s.upcoming t = vs at hP
  induction vs generalizing s state with
  | nil =>
    cases hf : s.finished with
    | true => exact ⟨none, s, state, by rw [next?, dif_pos hf], hs, hvs ▸ hend _ hP⟩
    | false =>
      -- a search that is not finished has at least one round to come
      obtain ⟨r, -, -, hvisits⟩ := Decision.attempt_of_follows hn (hs hf)
      simp [upcoming, hf, hvisits] at hvs
  | cons v vs ih =>
    cases hf : s.finished with
    | true => simp [upcoming, hf] at hvs
    | false =>
      obtain ⟨r, hattempt, hfollows, hvisits⟩ := Decision.attempt_of_follows hn (hs hf)
      have hs' : Stands t ⟨r.choice, !r.more⟩ := fun h => hfollows (by simpa using h)
      obtain ⟨hupcoming, hvalue⟩ : upcoming t ⟨r.choice, !r.more⟩ = vs ∧ r.visit.value = v := by
        simp only [upcoming, hf, Bool.false_eq_true, if_false, hvisits, List.map_cons,
          List.cons.injEq] at hvs
        refine ⟨?_, hvs.1⟩
        rw [← hvs.2]
        cases r.more <;> simp [upcoming]
      obtain ⟨hgo, hyield⟩ := hround v vs state hP
      rw [next?_of_ok hf hattempt, hvalue]
      cases haccept : accept v state with
      | mk b? state₁ =>
        rw [haccept] at hgo hyield
        cases b? with
        | some b => exact ⟨some b, _, state₁, rfl, hs', hupcoming ▸ hyield b rfl⟩
        | none => exact ih hs' hupcoming (hgo rfl)

/-- A call takes the first result off those that are still to come; if there is none, then all
rounds are made. -/
theorem next?_eq {t : Decision α} (hn : t.Narrow) (accept : Option α → σ → Option β × σ)
    (s : Search) (hs : Stands t s) (state : σ) :
    ∃ s' state', s.next? t accept state = .ok ((s.accepted t accept state).head?, s', state') ∧
      Stands t s' ∧ s'.accepted t accept state' = (s.accepted t accept state).tail ∧
      s'.final t accept state' = s.final t accept state ∧
      (s.accepted t accept state = [] → s'.upcoming t = []) := by
  let P (vs : List (Option α)) (state' : σ) : Prop :=
    acceptedOf accept vs state' = s.accepted t accept state ∧
      stateAfter accept vs state' = s.final t accept state
  let Q (b? : Option β) (vs : List (Option α)) (state' : σ) : Prop :=
    b? = (s.accepted t accept state).head? ∧
      acceptedOf accept vs state' = (s.accepted t accept state).tail ∧
      stateAfter accept vs state' = s.final t accept state ∧
      (s.accepted t accept state = [] → vs = [])
  have hend : ∀ state', P [] state' → Q none [] state' := by
    rintro state' ⟨haccepted, hfinal⟩
    rw [acceptedOf] at haccepted
    exact ⟨by rw [← haccepted]; rfl, by rw [← haccepted]; rfl, hfinal, fun _ => rfl⟩
  have hround : ∀ v vs state', P (v :: vs) state' →
      ((accept v state').1 = none → P vs (accept v state').2) ∧
        ∀ b, (accept v state').1 = some b → Q (some b) vs (accept v state').2 := by
    rintro v vs state' ⟨haccepted, hfinal⟩
    rw [acceptedOf] at haccepted
    rw [stateAfter] at hfinal
    cases haccept : accept v state' with
    | mk b? state₁ =>
      rw [haccept] at haccepted hfinal
      cases b? with
      | none => exact ⟨fun _ => ⟨haccepted, hfinal⟩, nofun⟩
      | some b =>
        refine ⟨nofun, fun b' hb' => ?_⟩
        cases hb'
        exact ⟨by rw [← haccepted]; rfl, by rw [← haccepted]; rfl, hfinal,
          fun h => by rw [← haccepted] at h; cases h⟩
  obtain ⟨b?, s', state', hnext, hstands, hb, htail, hfinal, hupcoming⟩ :=
    next?_of_rounds hn hend hround hs (⟨rfl, rfl⟩ : P (s.upcoming t) state)
  exact ⟨s', state', hb ▸ hnext, hstands, htail, hfinal, hupcoming⟩

/-- What the caller accepts first, one by one, until there is nothing more; if more is asked for
than there is, then all rounds are made. -/
theorem take_eq {t : Decision α} (hn : t.Narrow) (accept : Option α → σ → Option β × σ)
    (limit : Nat) (s : Search) (hs : Stands t s) (state : σ) :
    ∃ s' state', take t accept limit s state =
      .ok ((s.accepted t accept state).take limit, s', state') ∧
      ((s.accepted t accept state).length < limit → state' = s.final t accept state) := by
  induction limit generalizing s state with
  | zero => exact ⟨s, state, rfl, nofun⟩
  | succ limit ih =>
    obtain ⟨s₁, state₁, hnext, hstands, htail, hfinal, hend⟩ := next?_eq hn accept s hs state
    cases hall : s.accepted t accept state with
    | nil =>
      rw [hall] at hnext
      refine ⟨s₁, state₁, by simp [take, hnext, bind, Except.bind, pure, Except.pure], fun _ => ?_⟩
      rw [← hfinal, final, hend hall, stateAfter]
    | cons b bs =>
      rw [hall] at hnext htail
      obtain ⟨s₂, state₂, htake, hlast⟩ := ih s₁ hstands state₁
      rw [htail] at htake hlast
      refine ⟨s₂, state₂, by simp [take, hnext, htake, bind, Except.bind, pure, Except.pure],
        fun hlt => ?_⟩
      rw [hlast (Nat.lt_of_succ_lt_succ hlt), hfinal]

/-! ## What all rounds preserve -/

/-- A property `P` of the state that every round keeps, and a property `Q` of a result that holds
when it is accepted and is kept afterwards, hold after a call. -/
theorem next?_invariant {t : Decision α} {accept : Option α → σ → Option β × σ}
    {P : σ → Prop} {Q : β → σ → Prop}
    (hround : ∀ v state, (∀ a, v = some a → a ∈ t.values) → P state →
      P (accept v state).2 ∧ (∀ b, (accept v state).1 = some b → Q b (accept v state).2) ∧
        ∀ b, Q b state → Q b (accept v state).2)
    (s : Search) {state state' : σ} {b? : Option β} {s' : Search} (hP : P state)
    (h : s.next? t accept state = .ok (b?, s', state')) :
    P state' ∧ (∀ b, b? = some b → Q b state') ∧ ∀ b, Q b state → Q b state' := by
  induction s using induction_on_rounds t generalizing state with
  | finished s hf =>
    rw [next?, dif_pos hf] at h
    cases h
    exact ⟨hP, nofun, fun _ hb => hb⟩
  | fault s f hf hattempt =>
    rw [next?_of_error hf hattempt] at h
    cases h
  | round s r hf hattempt ih =>
    obtain ⟨hP₁, hyield, hkeep⟩ :=
      hround _ state (fun a => Decision.mem_values_of_attempt hattempt) hP
    rw [next?_of_ok hf hattempt] at h
    split at h
    · rename_i b state₁ haccept
      cases h
      rw [haccept] at hP₁ hyield hkeep
      exact ⟨hP₁, hyield, hkeep⟩
    · rename_i state₁ haccept
      rw [haccept] at hP₁ hyield hkeep
      obtain ⟨hP₂, hyield₂, hkeep₂⟩ := ih hP₁ h
      exact ⟨hP₂, hyield₂, fun b hb => hkeep₂ b (hkeep b hb)⟩

/-- What a call comes to: `P` holds of the state of the caller as long as no round is accepted, and
`Q` of the result and of the state that is left. -/
theorem next?_outcome {t : Decision α} {accept : Option α → σ → Option β × σ} {P : σ → Prop}
    {Q : Option β → σ → Prop} (hend : ∀ state, P state → Q none state)
    (hround : ∀ v state, P state → ((accept v state).1 = none → P (accept v state).2) ∧
      ∀ b, (accept v state).1 = some b → Q (some b) (accept v state).2)
    (s : Search) {state state' : σ} {b? : Option β} {s' : Search} (hP : P state)
    (h : s.next? t accept state = .ok (b?, s', state')) : Q b? state' := by
  induction s using induction_on_rounds t generalizing state with
  | finished s hf =>
    rw [next?, dif_pos hf] at h
    cases h
    exact hend _ hP
  | fault s f hf hattempt =>
    rw [next?_of_error hf hattempt] at h
    cases h
  | round s r hf hattempt ih =>
    obtain ⟨hgo, hyield⟩ := hround r.visit.value state hP
    rw [next?_of_ok hf hattempt] at h
    split at h
    · rename_i b state₁ haccept
      cases h
      rw [haccept] at hyield
      exact hyield b rfl
    · rename_i state₁ haccept
      rw [haccept] at hgo
      exact ih (hgo rfl) h

/-- Two callers whose states every round keeps related, and who accept the same results, get the
same results from a search and are left in related states. -/
theorem next?_rel {t : Decision α} {accept : Option α → σ → Option β × σ} {R : σ → σ → Prop}
    (hround : ∀ v x y, (∀ a, v = some a → a ∈ t.values) → R x y →
      (accept v y).1 = (accept v x).1 ∧ R (accept v x).2 (accept v y).2)
    (s : Search) {x y : σ} (hR : R x y) :
    (∃ f, s.next? t accept x = .error f ∧ s.next? t accept y = .error f) ∨
      ∃ b? s' x' y', s.next? t accept x = .ok (b?, s', x') ∧
        s.next? t accept y = .ok (b?, s', y') ∧ R x' y' := by
  induction s using induction_on_rounds t generalizing x y with
  | finished s hf =>
    rw [next?, dif_pos hf, next?, dif_pos hf]
    exact .inr ⟨none, s, x, y, rfl, rfl, hR⟩
  | fault s f hf hattempt =>
    exact .inl ⟨f, next?_of_error hf hattempt, next?_of_error hf hattempt⟩
  | round s r hf hattempt ih =>
    obtain ⟨hsame, hR'⟩ := hround _ x y (fun a => Decision.mem_values_of_attempt hattempt) hR
    rw [next?_of_ok hf hattempt, next?_of_ok hf hattempt]
    obtain ⟨b?, x', hx⟩ : ∃ b? x', accept r.visit.value x = (b?, x') := ⟨_, _, rfl⟩
    obtain ⟨c?, y', hy⟩ : ∃ c? y', accept r.visit.value y = (c?, y') := ⟨_, _, rfl⟩
    rw [hx, hy] at hsame hR'
    obtain rfl : c? = b? := hsame
    rw [hx, hy]
    cases c? with
    | some b => exact .inr ⟨some b, _, x', y', rfl, rfl, hR'⟩
    | none => exact ih hR'

/-- What rounds keep, and what holds of results from then on, after any number of results. -/
theorem take_invariant {t : Decision α} {accept : Option α → σ → Option β × σ}
    {P : σ → Prop} {Q : β → σ → Prop}
    (hround : ∀ v state, (∀ a, v = some a → a ∈ t.values) → P state →
      P (accept v state).2 ∧ (∀ b, (accept v state).1 = some b → Q b (accept v state).2) ∧
        ∀ b, Q b state → Q b (accept v state).2)
    (limit : Nat) (s : Search) {state state' : σ} {bs : List β} {s' : Search} (hP : P state)
    (h : take t accept limit s state = .ok (bs, s', state')) :
    P state' ∧ (∀ b ∈ bs, Q b state') ∧ ∀ b, Q b state → Q b state' := by
  induction limit generalizing s state bs with
  | zero =>
    cases h
    exact ⟨hP, by simp, fun _ hb => hb⟩
  | succ limit ih =>
    rw [take] at h
    obtain ⟨⟨b?, s₁, state₁⟩, hnext, h⟩ := bind_eq_ok.1 h
    obtain ⟨hP₁, hyield, hkeep⟩ := next?_invariant hround s hP hnext
    cases b? with
    | none =>
      cases h
      exact ⟨hP₁, by simp, hkeep⟩
    | some b =>
      obtain ⟨⟨bs', s₂, state₂⟩, htake, h⟩ := bind_eq_ok.1 h
      cases h
      obtain ⟨hP₂, hyield₂, hkeep₂⟩ := ih s₁ hP₁ htake
      refine ⟨hP₂, fun b' hb' => ?_, fun b' hb' => hkeep₂ b' (hkeep b' hb')⟩
      rcases List.mem_cons.1 hb' with rfl | hb'
      · exact hkeep₂ _ (hyield _ rfl)
      · exact hyield₂ b' hb'

end Search

end Polyglot
