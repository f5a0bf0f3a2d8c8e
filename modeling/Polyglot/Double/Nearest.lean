import Polyglot.Double.Basic

/-!
# The double nearest to a decimal

A decimal is read as the double nearest to it; of two that are equally near, the one with the even
fraction. What lies beyond the largest finite number by half a unit or more is infinite.

- `roundQuotient`: the whole number nearest to a quotient, a half going to the even neighbour.
- `Double.nearestMagnitude`: the magnitude nearest to a quotient.
- `Decimal`: whole numbers times powers of ten, without trailing zeros; `Decimal.nearestMagnitude`.
-/

namespace Polyglot

/-- The whole number nearest to `num / den`; a half goes to the even neighbour. -/
def roundQuotient (num den : Nat) : Nat :=
  let q := num / den
  let r := num % den
  if 2 * r < den ∨ (2 * r = den ∧ q % 2 = 0) then q else q + 1

namespace Double

/-- The exponent of the unit in the last place of a positive quotient: it leaves 53 binary digits
before the point, or fewer at the lower end of the range. -/
def unitExponent (num den : Nat) : Int :=
  let low : Int := (num.log2 : Int) - den.log2 - 53
  let s := scale 2 num den (-(low + 53))
  max (-1074) (if s.2 ≤ s.1 then low + 1 else low)

/-- The magnitude nearest to `num / den`. Consecutive magnitudes are consecutive numbers, so a
fraction that rounds up to `2 ^ 53` carries into the exponent by itself. -/
def nearestMagnitude (num den : Nat) : Nat :=
  if num = 0 then 0
  else
    let e := unitExponent num den
    let s := scale 2 num den (-e)
    min infinityMagnitude ((e + 1074).toNat * Nat.pow 2 52 + roundQuotient s.1 s.2)

end Double

/-- The number `coeff * 10 ^ exp`. -/
structure Decimal where
  coeff : Nat
  exp : Int
  deriving DecidableEq, Repr

namespace Decimal

/-- The same number without trailing zeros in the coefficient. -/
def strip (coeff : Nat) (exp : Int) : Decimal :=
  if _h : coeff = 0 then ⟨0, 0⟩
  else if coeff % 10 = 0 then strip (coeff / 10) (exp + 1)
  else ⟨coeff, exp⟩

/-- The decimal digits of the coefficient, most significant first. -/
def digits (d : Decimal) : List Char := Nat.toDigits 10 d.coeff

/-- The magnitude of the double nearest to a decimal. Powers of ten far beyond the range of doubles
are not worked out. -/
def nearestMagnitude (d : Decimal) : Nat :=
  if d.coeff = 0 then 0
  else if 400 < d.exp then Double.infinityMagnitude
  else if d.digits.length + d.exp < -400 then 0
  else
    let s := Double.scale 10 d.coeff 1 d.exp
    Double.nearestMagnitude s.1 s.2

end Decimal

end Polyglot
