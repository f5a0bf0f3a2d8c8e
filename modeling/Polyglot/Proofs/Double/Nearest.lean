import Mathlib
import Polyglot.Double.Nearest

/-!
# A double is the nearest one to its own value

Whatever quotient stands for the value of a finite magnitude, and whatever decimal does, it is
rounded to this magnitude. For the exponent of the last place depends on the value alone: it is the
one that leaves 53 binary digits before the point, or the lowest one.

- `Double.value`: the value of a finite magnitude.
- `Double.unitExponent_spec`: what the exponent of the last place is.
- `Double.nearestMagnitude_of_value`, `Decimal.nearestMagnitude_of_value`: what has the value of a
  magnitude is rounded to it.
-/

namespace Polyglot

/-! ## Rounding -/

/-- A quotient that is a whole number is rounded to it. -/
theorem roundQuotient_of_eq_mul {num den m : Nat} (hden : 0 < den) (h : num = m * den) :
    roundQuotient num den = m := by
  subst h
  have hdiv : m * den / den = m := Nat.mul_div_cancel m hden
  simp [roundQuotient, hdiv, hden]

namespace Double

section Scale

variable {base num den : Nat} {e : Int}

theorem scale_snd_pos (hbase : 0 < base) (hden : 0 < den) : 0 < (scale base num den e).2 := by
  unfold scale
  split
  · exact hden
  · exact Nat.mul_pos hden (Nat.pow_pos hbase)

/-- Scaling multiplies a quotient by a power of the base. -/
theorem scale_div (hbase : 0 < base) : ((scale base num den e).1 : ℚ) / (scale base num den e).2 =
    num / den * (base : ℚ) ^ e := by
  have hne : (base : ℚ) ≠ 0 := by exact_mod_cast hbase.ne'
  unfold scale
  split
  · rename_i he
    obtain ⟨k, rfl⟩ := Int.eq_ofNat_of_zero_le he
    simp [div_mul_eq_mul_div]
  · rename_i he
    obtain ⟨k, hk⟩ := Int.eq_ofNat_of_zero_le (by omega : 0 ≤ -e)
    obtain rfl : e = -(k : Int) := by omega
    simp only [neg_neg, Int.toNat_natCast, Nat.pow_eq, Nat.cast_mul, Nat.cast_pow, zpow_neg,
      zpow_natCast]
    field_simp

end Scale

/-! ## The exponent of the last place -/

/-- The exponent of the unit in the last place leaves 53 binary digits before the point, or it is
the lowest one and leaves at most as many. -/
theorem unitExponent_spec {num den : Nat} (hnum : 0 < num) (hden : 0 < den) :
    -1074 ≤ unitExponent num den ∧ (num / den : ℚ) < 2 ^ (unitExponent num den + 53) ∧
      (unitExponent num den = -1074 ∨ (2 : ℚ) ^ (unitExponent num den + 52) ≤ num / den) := by
  have hden' : (0 : ℚ) < den := by exact_mod_cast hden
  -- the binary digits of both numbers leave two exponents to choose from
  have hnum₁ : (2 : ℚ) ^ (num.log2 : Int) ≤ num := by
    exact_mod_cast Nat.log2_self_le hnum.ne'
  have hnum₂ : (num : ℚ) < 2 ^ ((num.log2 : Int) + 1) := by
    exact_mod_cast (Nat.lt_log2_self : num < 2 ^ (num.log2 + 1))
  have hden₁ : (2 : ℚ) ^ (den.log2 : Int) ≤ den := by
    exact_mod_cast Nat.log2_self_le hden.ne'
  have hden₂ : (den : ℚ) < 2 ^ ((den.log2 : Int) + 1) := by
    exact_mod_cast (Nat.lt_log2_self : den < 2 ^ (den.log2 + 1))
  obtain ⟨low, hlow⟩ : ∃ low : Int, low = num.log2 - den.log2 - 53 := ⟨_, rfl⟩
  have hlower : (2 : ℚ) ^ (low + 52) ≤ num / den := by
    rw [le_div_iff₀ hden']
    calc (2 : ℚ) ^ (low + 52) * den ≤ 2 ^ (low + 52) * 2 ^ ((den.log2 : Int) + 1) := by gcongr
      _ = 2 ^ (num.log2 : Int) := by rw [← zpow_add₀ two_ne_zero, hlow]; congr 1; ring
      _ ≤ num := hnum₁
  have hupper : (num / den : ℚ) < 2 ^ (low + 54) := by
    rw [div_lt_iff₀ hden']
    calc (num : ℚ) < 2 ^ ((num.log2 : Int) + 1) := hnum₂
      _ = 2 ^ (low + 54) * 2 ^ (den.log2 : Int) := by
        rw [← zpow_add₀ two_ne_zero, hlow]; congr 1; ring
      _ ≤ 2 ^ (low + 54) * den := by gcongr
  have hscale : (scale 2 num den (-(low + 53))).2 ≤ (scale 2 num den (-(low + 53))).1 ↔
      (2 : ℚ) ^ (low + 53) ≤ num / den := by
    have hpos : (0 : ℚ) < (scale 2 num den (-(low + 53))).2 := by
      exact_mod_cast scale_snd_pos two_pos hden
    rw [← Nat.cast_le (α := ℚ), ← one_le_div₀ hpos, scale_div two_pos, Nat.cast_two, zpow_neg,
      ← div_eq_mul_inv, one_le_div₀ (by positivity)]
  -- the comparison chooses the one that leaves 53 digits
  obtain ⟨e, he, he₁, he₂⟩ : ∃ e : Int, unitExponent num den = max (-1074) e ∧
      (2 : ℚ) ^ (e + 52) ≤ num / den ∧ (num / den : ℚ) < 2 ^ (e + 53) := by
    by_cases hle : (2 : ℚ) ^ (low + 53) ≤ num / den
    · refine ⟨low + 1, ?_, ?_, ?_⟩
      · rw [unitExponent, ← hlow, if_pos (hscale.2 hle)]
      · rwa [show low + 1 + 52 = low + 53 by ring]
      · rwa [show low + 1 + 53 = low + 54 by ring]
    · refine ⟨low, ?_, hlower, lt_of_not_ge hle⟩
      rw [unitExponent, ← hlow, if_neg (mt hscale.1 hle)]
  rcases le_total (-1074) e with hge | hle
  · rw [he, max_eq_right hge]
    exact ⟨hge, he₂, .inr he₁⟩
  · rw [he, max_eq_left hle]
    refine ⟨le_rfl, he₂.trans_le ?_, .inl rfl⟩
    exact zpow_le_zpow_right₀ one_le_two (by omega)

/-! ## Magnitudes -/

/-- The value of a finite magnitude. -/
def value (magnitude : Nat) : ℚ := (unpack magnitude).1 * 2 ^ (unpack magnitude).2

variable {magnitude : Nat}

/-- A finite magnitude stands for at most 53 binary digits; it has fewer only at the lowest
exponent. -/
theorem unpack_spec (h : magnitude < infinityMagnitude) :
    (unpack magnitude).1 < 2 ^ 53 ∧ -1074 ≤ (unpack magnitude).2 ∧ (unpack magnitude).2 ≤ 971 ∧
      ((unpack magnitude).2 = -1074 ∨ 2 ^ 52 ≤ (unpack magnitude).1) ∧
      ((unpack magnitude).2 + 1074).toNat * 2 ^ 52 + (unpack magnitude).1 = magnitude := by
  simp only [infinityMagnitude, Nat.pow_eq] at h
  simp only [unpack, Nat.pow_eq]
  split
  · dsimp only
    omega
  · dsimp only
    omega

/-- What has the value of a finite magnitude is rounded to it. -/
theorem nearestMagnitude_of_value {num den : Nat} (hden : 0 < den)
    (hfinite : magnitude < infinityMagnitude) (h : (num / den : ℚ) = value magnitude) :
    nearestMagnitude num den = magnitude := by
  obtain ⟨hm, he, -, hmin, hmagnitude⟩ := unpack_spec hfinite
  rw [value] at h
  generalize (unpack magnitude).1 = m at h hm hmin hmagnitude
  generalize (unpack magnitude).2 = e at h he hmin hmagnitude
  have hden' : (0 : ℚ) < den := by exact_mod_cast hden
  have hpow : ∀ k : Int, (0 : ℚ) < 2 ^ k := fun k => zpow_pos two_pos k
  by_cases hnum : num = 0
  · -- only zero has the value zero
    subst hnum
    have hzero : (m : ℚ) = 0 := by simpa [(hpow e).ne'] using h.symm
    have hm0 : m = 0 := by exact_mod_cast hzero
    rw [nearestMagnitude, if_pos rfl]
    omega
  obtain ⟨hlow, hupper, hlower⟩ := unitExponent_spec (Nat.pos_of_ne_zero hnum) hden
  -- the exponent is that of the magnitude, since only one leaves 53 digits
  have hexp : unitExponent num den = e := by
    rw [h] at hupper hlower
    rcases lt_trichotomy (unitExponent num den) e with hlt | heq | hgt
    · have hm' : (2 : ℚ) ^ 52 ≤ m := by exact_mod_cast hmin.resolve_left (by omega)
      have : (2 : ℚ) ^ (unitExponent num den + 53) ≤ m * 2 ^ e :=
        calc (2 : ℚ) ^ (unitExponent num den + 53) ≤ 2 ^ ((52 : Int) + e) :=
              zpow_le_zpow_right₀ one_le_two (by omega)
          _ = 2 ^ 52 * 2 ^ e := by rw [zpow_add₀ two_ne_zero]; norm_cast
          _ ≤ m * 2 ^ e := by gcongr
      exact absurd hupper (not_lt.2 this)
    · exact heq
    · have hm' : (m : ℚ) < 2 ^ 53 := by exact_mod_cast hm
      have : (m * 2 ^ e : ℚ) < 2 ^ (unitExponent num den + 52) :=
        calc (m * 2 ^ e : ℚ) < 2 ^ 53 * 2 ^ e := by gcongr
          _ = 2 ^ ((53 : Int) + e) := by rw [zpow_add₀ two_ne_zero]; norm_cast
          _ ≤ 2 ^ (unitExponent num den + 52) := zpow_le_zpow_right₀ one_le_two (by omega)
      exact absurd (hlower.resolve_left (by omega)) (not_le.2 this)
  -- so that the quotient is the significand
  have hquotient : (scale 2 num den (-e)).1 = m * (scale 2 num den (-e)).2 := by
    have hpos : (0 : ℚ) < (scale 2 num den (-e)).2 := by exact_mod_cast scale_snd_pos two_pos hden
    have hdiv : ((scale 2 num den (-e)).1 : ℚ) / (scale 2 num den (-e)).2 = m := by
      rw [scale_div two_pos, h, mul_assoc, Nat.cast_two, ← zpow_add₀ two_ne_zero, add_neg_cancel,
        zpow_zero, mul_one]
    rw [div_eq_iff hpos.ne'] at hdiv
    exact_mod_cast hdiv
  rw [nearestMagnitude, if_neg hnum]
  dsimp only
  rw [hexp, roundQuotient_of_eq_mul (scale_snd_pos two_pos hden) hquotient, Nat.pow_eq, hmagnitude]
  exact min_eq_right hfinite.le

end Double

/-! ## Decimals -/

namespace Decimal

/-- The value of a decimal. -/
def value (d : Decimal) : ℚ := d.coeff * 10 ^ d.exp

/-- A decimal without trailing zeros. -/
def Normal (d : Decimal) : Prop := d.coeff = 0 ∧ d.exp = 0 ∨ d.coeff % 10 ≠ 0

variable {d d' : Decimal} {magnitude : Nat}

theorem normal_strip (coeff : Nat) (exp : Int) : (strip coeff exp).Normal := by
  fun_induction strip coeff exp with
  | case1 => exact .inl ⟨rfl, rfl⟩
  | case2 _ _ _ _ ih => exact ih
  | case3 _ _ _ hne => exact .inr hne

theorem value_strip (coeff : Nat) (exp : Int) : (strip coeff exp).value = coeff * 10 ^ exp := by
  fun_induction strip coeff exp with
  | case1 => simp [value]
  | case2 coeff exp _ h ih =>
    obtain ⟨k, rfl⟩ := Nat.dvd_of_mod_eq_zero h
    rw [ih, Nat.mul_div_cancel_left k (by decide), zpow_add₀ (by norm_num)]
    push_cast
    ring
  | case3 => rfl

/-- A value with a smaller exponent and no trailing zero has no larger exponent. -/
theorem Normal.exp_le (hd : d.Normal) (hd' : d'.Normal) (h : d.value = d'.value) :
    d'.exp ≤ d.exp := by
  by_contra hlt
  obtain ⟨k, hk⟩ := Int.eq_ofNat_of_zero_le (by omega : 0 ≤ d'.exp - d.exp - 1)
  have hcoeff : d.coeff = d'.coeff * 10 ^ (k + 1) := by
    have hexp : d'.exp = ((k + 1 : Nat) : Int) + d.exp := by push_cast; omega
    have hpow : (10 : ℚ) ^ d.exp ≠ 0 := zpow_ne_zero _ (by norm_num)
    rw [value, value, hexp, zpow_add₀ (by norm_num), ← mul_assoc, mul_left_inj' hpow] at h
    exact_mod_cast h
  rcases hd with ⟨hzero, hexp⟩ | hne
  · have hzero' : d'.coeff = 0 := by simpa [hzero] using hcoeff.symm
    rcases hd' with ⟨-, hexp'⟩ | hne'
    · omega
    · exact hne' (by rw [hzero'])
  · exact hne (by rw [hcoeff, pow_succ, ← mul_assoc, Nat.mul_mod_left])

/-- Decimals without trailing zeros are told apart by their values. -/
theorem Normal.eq_of_value (hd : d.Normal) (hd' : d'.Normal) (h : d.value = d'.value) : d = d' := by
  have hexp : d.exp = d'.exp := le_antisymm (hd'.exp_le hd h.symm) (hd.exp_le hd' h)
  have hpow : (10 : ℚ) ^ d'.exp ≠ 0 := zpow_ne_zero _ (by norm_num)
  rw [value, value, hexp, mul_left_inj' hpow] at h
  obtain ⟨coeff, exp⟩ := d
  obtain ⟨coeff', exp'⟩ := d'
  simp only at hexp h
  rw [hexp, Nat.cast_injective h]

/-- A decimal without trailing zeros is got back from anything of its value. -/
theorem Normal.strip_eq (hd : d.Normal) {coeff : Nat} {exp : Int}
    (h : (coeff * 10 ^ exp : ℚ) = d.value) : strip coeff exp = d :=
  (normal_strip coeff exp).eq_of_value hd (by rw [value_strip, h])

/-- Three binary digits are less than a decimal one. -/
theorem two_zpow_le (k : Nat) : (2 : ℚ) ^ (3 * k : Int) ≤ 10 ^ (k : Int) := by
  rw [zpow_mul, zpow_natCast, zpow_natCast]
  gcongr
  norm_num

/-- What has the value of a finite magnitude is rounded to it: it is neither too large nor too small
to be worked out. -/
theorem nearestMagnitude_of_value (hfinite : magnitude < Double.infinityMagnitude)
    (h : d.value = Double.value magnitude) : d.nearestMagnitude = magnitude := by
  obtain ⟨hm, he, he', hmin, hmagnitude⟩ := Double.unpack_spec hfinite
  by_cases hzero : d.coeff = 0
  · -- only zero has the value zero
    have hvalue : Double.value magnitude = 0 := by rw [← h, value, hzero]; simp
    have hm0 : (Double.unpack magnitude).1 = 0 := by
      simpa [Double.value, zpow_ne_zero] using hvalue
    rw [nearestMagnitude, if_pos hzero]
    omega
  have hcoeff : (1 : ℚ) ≤ d.coeff := by exact_mod_cast Nat.pos_of_ne_zero hzero
  have hpos : (0 : ℚ) < d.value := by rw [value]; positivity
  have hm1 : (1 : ℚ) ≤ (Double.unpack magnitude).1 := by
    rw [h, Double.value] at hpos
    have : (Double.unpack magnitude).1 ≠ 0 := by
      intro h0
      simp [h0] at hpos
    exact_mod_cast Nat.pos_of_ne_zero this
  have hlower : (2 : ℚ) ^ (-1074 : Int) ≤ d.value := by
    rw [h, Double.value]
    calc (2 : ℚ) ^ (-1074 : Int) ≤ 1 * 2 ^ (Double.unpack magnitude).2 := by
          rw [one_mul]
          exact zpow_le_zpow_right₀ one_le_two he
      _ ≤ _ := by gcongr
  have hupper : d.value < (2 : ℚ) ^ (1024 : Int) := by
    have hm' : ((Double.unpack magnitude).1 : ℚ) < 2 ^ (53 : Int) := by exact_mod_cast hm
    rw [h, Double.value]
    calc ((Double.unpack magnitude).1 : ℚ) * 2 ^ (Double.unpack magnitude).2
          < 2 ^ (53 : Int) * 2 ^ (Double.unpack magnitude).2 := by gcongr
      _ = 2 ^ (53 + (Double.unpack magnitude).2) := (zpow_add₀ two_ne_zero _ _).symm
      _ ≤ 2 ^ (1024 : Int) := zpow_le_zpow_right₀ one_le_two (by omega)
  have hlarge : ¬ 400 < d.exp := by
    intro hexp
    have : (2 : ℚ) ^ (1024 : Int) ≤ d.value :=
      calc (2 : ℚ) ^ (1024 : Int) ≤ 2 ^ (3 * (400 : Nat) : Int) :=
            zpow_le_zpow_right₀ one_le_two (by decide)
        _ ≤ 10 ^ ((400 : Nat) : Int) := two_zpow_le 400
        _ ≤ 1 * 10 ^ d.exp := by
          rw [one_mul]
          exact zpow_le_zpow_right₀ (by norm_num) hexp.le
        _ ≤ d.coeff * 10 ^ d.exp := by gcongr
    exact absurd hupper (not_lt.2 this)
  have hsmall : ¬ d.digits.length + d.exp < -400 := by
    intro hexp
    have hdigits : (d.coeff : ℚ) < 10 ^ (d.digits.length : Int) := by
      have : d.coeff < 10 ^ d.digits.length :=
        (Nat.length_toDigits_le_iff (by decide) (Nat.length_toDigits_pos)).1 le_rfl
      exact_mod_cast this
    have : d.value < (2 : ℚ) ^ (-1074 : Int) :=
      calc d.value < 10 ^ (d.digits.length : Int) * 10 ^ d.exp := by rw [value]; gcongr
        _ = 10 ^ ((d.digits.length : Int) + d.exp) := by rw [zpow_add₀ (by norm_num)]
        _ ≤ 10 ^ (-((400 : Nat) : Int)) := zpow_le_zpow_right₀ (by norm_num) hexp.le
        _ ≤ 2 ^ (-(3 * (400 : Nat) : Int)) := by
          rw [zpow_neg, zpow_neg]
          exact inv_anti₀ (zpow_pos two_pos _) (two_zpow_le 400)
        _ ≤ 2 ^ (-1074 : Int) := zpow_le_zpow_right₀ one_le_two (by decide)
    exact absurd hlower (not_le.2 this)
  rw [nearestMagnitude, if_neg hzero, if_neg hlarge, if_neg hsmall]
  refine Double.nearestMagnitude_of_value (Double.scale_snd_pos (by decide) one_pos) hfinite ?_
  rw [Double.scale_div (by decide), ← h, value]
  simp

end Decimal

end Polyglot
