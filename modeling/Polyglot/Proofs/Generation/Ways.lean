import Polyglot.Proofs.Generation.Ascent
import Polyglot.Proofs.Generation.Signatures
import Polyglot.Proofs.Rounds

/-!
# The ways that a climb takes

Coercions may run in diamonds and in circles. A climb goes up from an instance on every way that
comes to no instance twice, and tells where it ends and after how many steps; where a step more
would come back to an instance of the way, it finds a dead end, once for every such step.

- `Concrete.WayUp`, `Concrete.TurnsBack`: the ways without repetitions, and those that repeat an
  instance with their last step.
- `Index.way`: the way that the picks of a visit stand for.
- `Index.ends_climbFrom_iff`: one decision of a climb. It says what a climb goes through
  (`Index.exists_ends_iff`), what it tells (`Index.value_of_ends`) and in which order
  (`Index.way_lt_way`).
- `Index.climb_exact`: the enumeration of a climb, from its first round to its last.
-/

namespace Polyglot

namespace Concrete

variable (c : Concrete)

/-- A way up from an instance that comes to no instance twice: the instances that it comes to, one
after the other. -/
structure WayUp (id : InstanceId) (way : List InstanceId) : Prop where
  coerced : (id :: way).IsChain c.Coerced
  simple : (id :: way).Nodup

/-- A way up that comes to an instance twice, and does so with its last step. -/
structure TurnsBack (id : InstanceId) (way : List InstanceId) : Prop where
  coerced : (id :: way).IsChain c.Coerced
  simple : (id :: way.dropLast).Nodup
  repeats : ¬(id :: way).Nodup

/-- A way that a climb tries from an instance that was come to over `path`: only its last step may
come to an instance again. -/
def Tries (path : List InstanceId) (id : InstanceId) (way : List InstanceId) : Prop :=
  (id :: way).IsChain c.Coerced ∧ (way.dropLast.reverse ++ id :: path).Nodup

variable {c} {path : List InstanceId} {id g : InstanceId} {way : List InstanceId}

/-- The first step of a way: it is the last one if it turns back, and any way may follow it if it
does not. -/
theorem tries_cons_iff (hpath : (id :: path).Nodup) :
    c.Tries path id (g :: way) ↔ c.Coerced id g ∧
      (g ∈ id :: path ∧ way = [] ∨ g ∉ id :: path ∧ c.Tries (id :: path) g way) := by
  rw [Tries, Tries, List.isChain_cons_cons, and_assoc, and_congr_right_iff]
  intro _
  cases way with
  | nil =>
    simp only [List.dropLast_singleton, List.dropLast_nil, List.reverse_nil, List.nil_append,
      List.isChain_singleton, List.nodup_cons (a := g), and_true, true_and, hpath, and_self]
    exact iff_of_true trivial (Decidable.em (g ∈ id :: path))
  | cons h rest =>
    rw [List.dropLast_cons_cons, List.reverse_cons, List.append_assoc, List.singleton_append]
    constructor
    · rintro ⟨hchain, hnodup⟩
      have hnew := (List.nodup_cons.1 (List.nodup_append.1 hnodup).2.1).1
      exact .inr ⟨hnew, hchain, hnodup⟩
    · rintro (⟨-, ⟨⟩⟩ | ⟨-, h⟩)
      exact h

/-- The ways that are tried from the first instance on are those that turn back and those that do
not. -/
theorem tries_nil_iff : c.Tries [] id way ↔ c.WayUp id way ∨ c.TurnsBack id way := by
  have hperm : (way.dropLast.reverse ++ [id]).Nodup ↔ (id :: way.dropLast).Nodup := by
    rw [← List.nodup_reverse, List.reverse_append, List.reverse_reverse]
    rfl
  rw [Tries, hperm]
  constructor
  · rintro ⟨hchain, hsimple⟩
    by_cases hnodup : (id :: way).Nodup
    · exact .inl ⟨hchain, hnodup⟩
    · exact .inr ⟨hchain, hsimple, hnodup⟩
  · rintro (h | h)
    · exact ⟨h.coerced, h.simple.sublist (way.dropLast_sublist.cons_cons id)⟩
    · exact ⟨h.coerced, h.simple⟩

end Concrete

namespace Index

variable {c : Concrete} {path : List InstanceId} {id : InstanceId}

/-- The way up that picks stand for: to stay is the first alternative, and after it come the
instances that take over productions. -/
def way (index : Index) : InstanceId → List Nat → List InstanceId
  | _, [] | _, 0 :: _ => []
  | id, (i + 1) :: picks =>
    match (index.supers id)[i]? with
    | none => []
    | some g => g :: index.way g picks

@[simp] theorem way_zero (index : Index) (id : InstanceId) (picks : List Nat) :
    index.way id (0 :: picks) = [] := rfl

theorem way_succ {index : Index} {i : Nat} {g : InstanceId} (hg : (index.supers id)[i]? = some g)
    (picks : List Nat) : index.way id ((i + 1) :: picks) = g :: index.way g picks := by
  rw [way, hg]

/-! ## One decision -/

/-- A climb stays, or turns back with its first step, or goes on. -/
theorem ends_climbFrom_iff {v : Visit (InstanceId × Nat)} :
    ((ofConcrete c).climbFrom path id).Ends v ↔
      v = ⟨[0], some (id, path.length)⟩ ∨
      ∃ i g, ((ofConcrete c).supers id)[i]? = some g ∧
        (g ∈ id :: path ∧ v = ⟨[i + 1], none⟩ ∨
          g ∉ id :: path ∧ ∃ u, ((ofConcrete c).climbFrom (id :: path) g).Ends u ∧
            v = u.below (i + 1)) := by
  rw [climbFrom]
  constructor
  · intro h
    cases h with
    | @choose _ _ i u hu =>
      obtain ⟨i, hi⟩ := i
      cases i with
      | zero =>
        cases hu
        exact .inl rfl
      | succ i =>
        have hlt := Nat.lt_of_succ_lt_succ hi
        refine .inr ⟨i, _, List.getElem?_eq_getElem hlt, ?_⟩
        dsimp only at hu
        split at hu
        · rename_i hmem
          refine .inl ⟨hmem, ?_⟩
          cases hu with
          | dead => rfl
          | choose j => exact j.elim0
        · rename_i hnew
          exact .inr ⟨hnew, u, hu, rfl⟩
  · rintro (rfl | ⟨i, g, hg, h⟩)
    · refine .choose ⟨0, Nat.succ_pos _⟩ (v := ⟨[], some (id, path.length)⟩) ?_
      exact .leaf (id, path.length)
    · obtain ⟨hlt, rfl⟩ := List.getElem?_eq_some_iff.1 hg
      rcases h with ⟨hmem, rfl⟩ | ⟨hnew, u, hu, rfl⟩
      · refine .choose ⟨i + 1, Nat.succ_lt_succ hlt⟩ (v := ⟨[], none⟩) ?_
        dsimp only
        rw [dif_pos hmem]
        exact .dead _
      · refine .choose ⟨i + 1, Nat.succ_lt_succ hlt⟩ ?_
        dsimp only
        rwa [dif_neg hnew]

/-! ## All ways -/

/-- The ways that a climb takes are those that may be tried. -/
theorem exists_ends_iff (hpath : (id :: path).Nodup) {w : List InstanceId} :
    (∃ v, ((ofConcrete c).climbFrom path id).Ends v ∧ (ofConcrete c).way id v.picks = w) ↔
      c.Tries path id w := by
  induction w generalizing path id with
  | nil =>
    refine iff_of_true ⟨_, ends_climbFrom_iff.2 (.inl rfl), rfl⟩ ⟨List.isChain_singleton _, ?_⟩
    exact hpath
  | cons g w ih =>
    rw [Concrete.tries_cons_iff hpath, Concrete.Coerced, ← mem_supers]
    constructor
    · rintro ⟨v, hv, hw⟩
      rcases ends_climbFrom_iff.1 hv with rfl | ⟨i, g', hg', h⟩
      · cases hw
      · have hmem := List.mem_of_getElem? hg'
        rcases h with ⟨hback, rfl⟩ | ⟨hnew, u, hu, rfl⟩
        · rw [way_succ hg'] at hw
          obtain ⟨rfl, rfl⟩ := List.cons.inj hw
          exact ⟨hmem, .inl ⟨hback, rfl⟩⟩
        · rw [Visit.below, way_succ hg'] at hw
          obtain ⟨rfl, hrest⟩ := List.cons.inj hw
          exact ⟨hmem, .inr ⟨hnew, (ih (hpath.cons hnew)).1 ⟨u, hu, hrest⟩⟩⟩
    · rintro ⟨hmem, h⟩
      obtain ⟨i, hg⟩ := List.mem_iff_getElem?.1 hmem
      rcases h with ⟨hback, rfl⟩ | ⟨hnew, h⟩
      · exact ⟨⟨[i + 1], none⟩, ends_climbFrom_iff.2 (.inr ⟨i, g, hg, .inl ⟨hback, rfl⟩⟩),
          way_succ hg []⟩
      · obtain ⟨u, hu, rfl⟩ := (ih (hpath.cons hnew)).2 h
        exact ⟨u.below (i + 1), ends_climbFrom_iff.2 (.inr ⟨i, g, hg, .inr ⟨hnew, u, hu, rfl⟩⟩),
          way_succ hg u.picks⟩

/-- What a climb tells of a way: where it ends and how long it is, unless it turns back. -/
theorem value_of_ends (hpath : (id :: path).Nodup) {v : Visit (InstanceId × Nat)}
    (hv : ((ofConcrete c).climbFrom path id).Ends v) {w : List InstanceId}
    (hw : (ofConcrete c).way id v.picks = w) :
    v.value = if (w.reverse ++ id :: path).Nodup then
      some ((id :: w).getLast (List.cons_ne_nil id w), path.length + w.length) else none := by
  induction w generalizing path id v with
  | nil =>
    rcases ends_climbFrom_iff.1 hv with rfl | ⟨i, g, hg, ⟨-, rfl⟩ | ⟨-, u, -, rfl⟩⟩
    · simp [hpath]
    · rw [way_succ hg] at hw
      cases hw
    · rw [Visit.below, way_succ hg] at hw
      cases hw
  | cons g w ih =>
    rw [List.reverse_cons, List.append_assoc, List.singleton_append]
    rcases ends_climbFrom_iff.1 hv with rfl | ⟨i, g', hg, ⟨hback, rfl⟩ | ⟨hnew, u, hu, rfl⟩⟩
    · cases hw
    · rw [way_succ hg] at hw
      obtain ⟨rfl, rfl⟩ := List.cons.inj hw
      exact (if_neg fun h => (List.nodup_cons.1 h).1 hback).symm
    · rw [Visit.below, way_succ hg] at hw
      obtain ⟨rfl, hrest⟩ := List.cons.inj hw
      rw [Visit.below, ih (hpath.cons hnew) hu hrest, List.getLast_cons (List.cons_ne_nil _ _),
        List.length_cons, List.length_cons, Nat.add_assoc, Nat.add_comm 1]

/-- The picks of a visit: the first one says whether the climb stays, and if not then where to. -/
theorem picks_of_ends {v : Visit (InstanceId × Nat)}
    (hv : ((ofConcrete c).climbFrom path id).Ends v) :
    v.picks = [0] ∨ ∃ i g picks, ((ofConcrete c).supers id)[i]? = some g ∧
      v.picks = (i + 1) :: picks ∧ (g ∈ id :: path ∧ picks = [] ∨
        g ∉ id :: path ∧ ∃ u, ((ofConcrete c).climbFrom (id :: path) g).Ends u ∧
          u.picks = picks) := by
  rcases ends_climbFrom_iff.1 hv with rfl | ⟨i, g, hg, ⟨hback, rfl⟩ | ⟨hnew, u, hu, rfl⟩⟩
  · exact .inl rfl
  · exact .inr ⟨i, g, [], hg, rfl, .inl ⟨hback, rfl⟩⟩
  · exact .inr ⟨i, g, u.picks, hg, rfl, .inr ⟨hnew, u, hu, rfl⟩⟩

/-- Ways come in the order of the instances at which they part, and the beginning of a way comes
before it. -/
theorem way_lt_way {u v : Visit (InstanceId × Nat)}
    (hu : ((ofConcrete c).climbFrom path id).Ends u)
    (hv : ((ofConcrete c).climbFrom path id).Ends v) (hlt : u.picks < v.picks) :
    ((ofConcrete c).way id u.picks).map InstanceId.val <
      ((ofConcrete c).way id v.picks).map InstanceId.val := by
  -- On the picks of the first way, which get shorter as long as the two do not part.
  induction hlength : u.picks.length generalizing path id u v with
  | zero =>
    rcases picks_of_ends hu with hp | ⟨i, g, p, -, hp, -⟩ <;> simp [hp] at hlength
  | succ n ih =>
    rcases picks_of_ends hv with hq | ⟨j, g', q, hg', hq, hv⟩
    · -- to stay comes first, so nothing comes before it
      rcases picks_of_ends hu with hp | ⟨i, g, p, -, hp, -⟩ <;>
        simp [hp, hq, List.cons_lt_cons_iff] at hlt
    · rw [hq, way_succ hg', List.map_cons]
      rcases picks_of_ends hu with hp | ⟨i, g, p, hg, hp, hu⟩
      · rw [hp]
        exact List.nil_lt_cons _ _
      · rw [hp, hq, List.cons_lt_cons_iff] at hlt
        rw [hp, way_succ hg, List.map_cons, List.cons_lt_cons_iff]
        rcases hlt with hij | ⟨hij, hpq⟩
        · -- the ways part here
          obtain ⟨hi, rfl⟩ := List.getElem?_eq_some_iff.1 hg
          obtain ⟨hj, rfl⟩ := List.getElem?_eq_some_iff.1 hg'
          exact .inl (List.pairwise_iff_getElem.1 (sorted_supers c id) i j hi hj (by omega))
        · obtain rfl : i = j := by omega
          obtain rfl : g = g' := Option.some.inj (hg.symm.trans hg')
          refine .inr ⟨rfl, ?_⟩
          rcases hu with ⟨hback, rfl⟩ | ⟨hnew, u', hu', rfl⟩
          · rcases hv with ⟨-, rfl⟩ | ⟨hnew, -⟩
            · exact absurd hpq (List.lt_irrefl _)
            · exact absurd hback hnew
          · rcases hv with ⟨hback, -⟩ | ⟨-, v', hv', rfl⟩
            · exact absurd hback hnew
            · exact ih hu' hv' hpq (by simpa [hp] using hlength)

/-! ## The enumeration -/

/-- No more instances take over productions of another one than there are instances. -/
theorem length_supers_le_instances (id : InstanceId) :
    ((ofConcrete c).supers id).length ≤ c.instances.length := by
  have hnodup : ((ofConcrete c).supers id).Nodup :=
    (sorted_supers c id).imp fun hlt heq => absurd (congrArg InstanceId.val heq) (Int.ne_of_lt hlt)
  have hsub : (ofConcrete c).supers id ⊆ (List.range c.instances.length).map .ofIndex := by
    intro g hg
    obtain ⟨inst, hinst, -⟩ := Concrete.mem_productionsOf.1 (mem_supers.1 hg)
    obtain ⟨n, hn, hinst⟩ := Option.bind_eq_some_iff.1 hinst
    obtain ⟨hlt, -⟩ := List.getElem?_eq_some_iff.1 hinst
    exact List.mem_map.2 ⟨n, List.mem_range.2 hlt, (InstanceId.index?_eq_some_iff.1 hn).symm⟩
  simpa using (List.subperm_of_subset hnodup hsub).length_le

variable (id)

/-- **A climb takes every way up once.** From a fresh record the enumeration of a climb ends, for
whatever coercions there are, diamonds and circles included, and its rounds take, each of them once,
the ways that come to no instance twice and those that do so with their last step. They come in
depth-first order: a way before all that go on from it, to stay first, and ways that part in the
order of the instances at which they part. A round on a way without repetitions tells where it ends
and how many steps it has, and a round on one that turns back is a dead end. So the instances that
are told are those that can be reached.

The instances of a syntax are told apart by numbers of 32 bits, so there are always as few of them
as `hfit` asks for. -/
theorem climb_exact (hfit : c.instances.length < Choice.maxAlternatives) :
    ∃ rs : List (Decision.Round (InstanceId × Nat)),
      (∀ limit ≥ rs.length, ((ofConcrete c).climb id).rounds limit {} = .ok rs) ∧
      (∃ before last, rs = before ++ [last] ∧ (∀ r ∈ before, r.more = true) ∧
        last.more = false) ∧
      (∀ way, way ∈ rs.map (fun r => (ofConcrete c).way id r.visit.picks) ↔
        c.WayUp id way ∨ c.TurnsBack id way) ∧
      (rs.map fun r => ((ofConcrete c).way id r.visit.picks).map InstanceId.val).Pairwise (· < ·) ∧
      (∀ r ∈ rs, ∀ way, (ofConcrete c).way id r.visit.picks = way →
        (c.WayUp id way →
          r.visit.value = some ((id :: way).getLast (List.cons_ne_nil id way), way.length)) ∧
        (c.TurnsBack id way → r.visit.value = none)) ∧
      ∀ top, (∃ r ∈ rs, ∃ n, r.visit.value = some (top, n)) ↔ c.Reaches id top := by
  have hnarrow : ((ofConcrete c).climb id).Narrow := narrow_climbFrom
    (fun g => Nat.lt_of_le_of_lt (length_supers_le_instances g) hfit) [] id
  obtain ⟨rs, hloop, hvisits⟩ := Decision.exists_loop hnarrow (c := {}) (Decision.follows_nil _)
  rw [Decision.visitsFrom_nil] at hvisits
  have hpath : [id].Nodup := List.nodup_singleton id
  have hends : ∀ v, v ∈ rs.map Decision.Round.visit ↔ ((ofConcrete c).climbFrom [] id).Ends v := by
    intro v
    rw [hvisits, Decision.mem_visits_iff]
    rfl
  have hround : ∀ r ∈ rs, ((ofConcrete c).climbFrom [] id).Ends r.visit := fun r hr =>
    (hends r.visit).1 (List.mem_map_of_mem hr)
  refine ⟨rs, fun limit => hloop.rounds_eq, ?_, fun way => ?_, ?_, ?_, fun top => ?_⟩
  · obtain ⟨before, last, hrs, hbefore, hlast, -⟩ := hloop.exists_last
    exact ⟨before, last, hrs, hbefore, hlast⟩
  · rw [← Concrete.tries_nil_iff, ← exists_ends_iff hpath]
    constructor
    · intro hway
      obtain ⟨r, hr, rfl⟩ := List.mem_map.1 hway
      exact ⟨r.visit, hround r hr, rfl⟩
    · rintro ⟨v, hv, rfl⟩
      obtain ⟨r, hr, rfl⟩ := List.mem_map.1 ((hends v).2 hv)
      exact List.mem_map.2 ⟨r, hr, rfl⟩
  · have horder := Decision.pairwise_picks_visits ((ofConcrete c).climb id)
    rw [← hvisits, List.map_map, List.pairwise_map] at horder
    rw [List.pairwise_map]
    exact horder.imp_of_mem fun hr hr' hlt => way_lt_way (hround _ hr) (hround _ hr') hlt
  · rintro r hr way hway
    have hvalue := value_of_ends hpath (hround r hr) hway
    have hperm : (way.reverse ++ [id]).Nodup ↔ (id :: way).Nodup := by
      rw [← List.reverse_cons, List.nodup_reverse]
    rw [List.length_nil, Nat.zero_add] at hvalue
    refine ⟨fun h => ?_, fun h => ?_⟩
    · rw [hvalue, if_pos (hperm.2 h.simple)]
    · rw [hvalue, if_neg (mt hperm.1 h.repeats)]
  · rw [← mem_climb]
    simp only [Decision.mem_values, ← hvisits]
    constructor
    · rintro ⟨r, hr, n, hn⟩
      exact ⟨n, r.visit, List.mem_map_of_mem hr, hn⟩
    · rintro ⟨n, v, hv, hn⟩
      obtain ⟨r, hr, rfl⟩ := List.mem_map.1 hv
      exact ⟨r, hr, n, hn⟩

/-- Instances that can be passed on along two ways, which meet again and lead back to where they
began; one of them can be passed on as itself. -/
def tangle : Concrete where
  name := ⟨0⟩
  instances :=
    [⟨some ⟨1⟩, 1, some [.coerce (.ofIndex 3)]⟩,
      ⟨some ⟨1⟩, 1, some [.coerce (.ofIndex 0), .coerce (.ofIndex 1)]⟩,
      ⟨some ⟨1⟩, 1, some [.coerce (.ofIndex 0)]⟩,
      ⟨some ⟨1⟩, 1, some [.coerce (.ofIndex 1), .coerce (.ofIndex 2)]⟩]

theorem climb_exact_tangle :
    tangle.instances.length < Choice.maxAlternatives ∧
    ∃ rs : List (Decision.Round (InstanceId × Nat)),
      (∀ limit ≥ rs.length, ((ofConcrete tangle).climb (.ofIndex 0)).rounds limit {} = .ok rs) ∧
      (∃ before last, rs = before ++ [last] ∧ (∀ r ∈ before, r.more = true) ∧
        last.more = false) ∧
      (∀ way, way ∈ rs.map (fun r => (ofConcrete tangle).way (.ofIndex 0) r.visit.picks) ↔
        tangle.WayUp (.ofIndex 0) way ∨ tangle.TurnsBack (.ofIndex 0) way) ∧
      (rs.map fun r => ((ofConcrete tangle).way (.ofIndex 0) r.visit.picks).map
        InstanceId.val).Pairwise (· < ·) ∧
      (∀ r ∈ rs, ∀ way, (ofConcrete tangle).way (.ofIndex 0) r.visit.picks = way →
        (tangle.WayUp (.ofIndex 0) way → r.visit.value =
          some ((.ofIndex 0 :: way).getLast (List.cons_ne_nil _ way), way.length)) ∧
        (tangle.TurnsBack (.ofIndex 0) way → r.visit.value = none)) ∧
      ∀ top, (∃ r ∈ rs, ∃ n, r.visit.value = some (top, n)) ↔
        tangle.Reaches (.ofIndex 0) top := by
  have hfit : tangle.instances.length < Choice.maxAlternatives := by decide
  exact ⟨hfit, climb_exact (.ofIndex 0) hfit⟩

/-- What the rounds tell, from staying to the second way back to the beginning. -/
example : ((ofConcrete tangle).climb (.ofIndex 0)).visits.map Visit.value =
    [some (.ofIndex 0, 0), some (.ofIndex 1, 1), none, some (.ofIndex 3, 2), none,
      some (.ofIndex 2, 1), some (.ofIndex 3, 2), none] := by
  decide +kernel

end Index

end Polyglot
