import Polyglot.Double.Shortest
import Polyglot.Proofs.Double.Nearest

/-!
# Shortest decimals read back

The exact value of a finite magnitude is a decimal, and it is rounded to that magnitude. So the
search for the shortest decimal always settles on one that reads back.

- `Double.nearestMagnitude_shortest`: the shortest decimal of a finite magnitude is rounded to it.
- `Double.normal_shortest`: it has no trailing zeros.
- `Double.ofMagnitude_magnitude`: a sign and a magnitude make up a double.
-/

namespace Polyglot

namespace Double

variable {magnitude : Nat}

theorem value_exactDecimal (magnitude : Nat) :
    (exactDecimal magnitude).value = value magnitude := by
  unfold exactDecimal value
  dsimp only
  split
  · rename_i he
    obtain ⟨k, hk⟩ := Int.eq_ofNat_of_zero_le he
    rw [Decimal.value_strip, hk]
    simp
  · rename_i he
    obtain ⟨k, hk⟩ := Int.eq_ofNat_of_zero_le (by omega : 0 ≤ -(unpack magnitude).2)
    have hexp : (unpack magnitude).2 = -(k : Int) := by omega
    -- a half is five tenths
    have hpow : (5 : ℚ) ^ k * 10 ^ (-(k : Int)) = 2 ^ (-(k : Int)) := by
      rw [zpow_neg, zpow_neg, zpow_natCast, zpow_natCast, ← div_eq_mul_inv, ← div_pow,
        ← inv_pow]
      norm_num
    rw [Decimal.value_strip, hexp]
    simp only [neg_neg, Int.toNat_natCast, Nat.pow_eq, Nat.cast_mul, Nat.cast_pow, Nat.cast_ofNat]
    rw [mul_assoc, hpow]

theorem nearestMagnitude_exactDecimal (h : magnitude < infinityMagnitude) :
    (exactDecimal magnitude).nearestMagnitude = magnitude :=
  Decimal.nearestMagnitude_of_value h (value_exactDecimal magnitude)

/-- The shortest decimal of a finite magnitude is rounded to it. -/
theorem nearestMagnitude_shortest (h : magnitude < infinityMagnitude) :
    (shortest magnitude).nearestMagnitude = magnitude :=
  shortest_readsBack (nearestMagnitude_exactDecimal h)

theorem normal_of_mem_candidates {d : Decimal} (h : d ∈ candidates magnitude) : d.Normal := by
  simp only [candidates, List.mem_flatten, List.mem_map] at h
  obtain ⟨_, ⟨n, -, rfl⟩, hd⟩ := h
  unfold neighbours at hd
  dsimp only at hd
  split at hd <;> simp only [List.mem_cons, List.not_mem_nil, or_false] at hd <;>
    rcases hd with rfl | rfl <;> exact Decimal.normal_strip _ _

/-- The shortest decimal has no trailing zeros. -/
theorem normal_shortest (magnitude : Nat) : (shortest magnitude).Normal := by
  unfold shortest
  split
  · exact .inl ⟨rfl, rfl⟩
  · cases hfind : (candidates magnitude).find? fun d => d.nearestMagnitude == magnitude with
    | some d => exact normal_of_mem_candidates (List.mem_of_find?_eq_some hfind)
    | none =>
      unfold exactDecimal
      dsimp only [Option.getD_none]
      split <;> exact Decimal.normal_strip _ _

/-- A double is made up of its sign and its magnitude. -/
theorem ofMagnitude_magnitude (x : Double) : ofMagnitude x.signBit x.magnitude = x := by
  obtain ⟨bits⟩ := x
  have hlt : bits.toNat < 2 ^ 64 := bits.toNat_lt
  simp only [ofMagnitude, signBit, magnitude, Nat.pow_eq, Double.mk.injEq, decide_eq_true_eq]
  have hnat : bits.toNat % 2 ^ 63 + (if 2 ^ 63 ≤ bits.toNat then 2 ^ 63 else 0) = bits.toNat := by
    split <;> omega
  rw [hnat, UInt64.ofNat_toNat]

end Double

end Polyglot
