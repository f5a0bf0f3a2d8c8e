import Polyglot.Double.Nearest

/-!
# The shortest decimal that reads back

A finite double is written with as few digits as still read back as the same double; of the decimals
with that many digits, the one nearest to it, and a tie goes up. Seventeen digits are always enough,
and should they not be, every digit of the exact value is written.

`Double.shortest_readsBack` says that whatever the search settles on does read back, provided that
the exact value does.
-/

namespace Polyglot

namespace Double

/-- The exponent of the leading decimal digit of a positive quotient. -/
def leadingExponent (num den : Nat) : Int :=
  if den ≤ num then (Nat.toDigits 10 (num / den)).length - 1
  else
    let k := (Nat.toDigits 10 (den / num)).length
    if den = num * Nat.pow 10 (k - 1) then 1 - (k : Int) else -(k : Int)

/-- The two neighbours of `num / den` among the multiples of `10 ^ p`, the nearer one first. -/
def neighbours (num den : Nat) (p : Int) : List Decimal :=
  let s := scale 10 num den (-p)
  let below := Decimal.strip (s.1 / s.2) p
  let above := Decimal.strip (s.1 / s.2 + 1) p
  if 2 * (s.1 % s.2) < s.2 then [below, above] else [above, below]

/-- The value of a finite magnitude, digit for digit. -/
def exactDecimal (magnitude : Nat) : Decimal :=
  let (m, e) := unpack magnitude
  if 0 ≤ e then Decimal.strip (m * Nat.pow 2 e.toNat) 0
  else Decimal.strip (m * Nat.pow 5 (-e).toNat) e

/-- Decimals to try for a positive finite magnitude, in order of preference. -/
def candidates (magnitude : Nat) : List Decimal :=
  let (num, den) := ratio magnitude
  let lead := leadingExponent num den
  ((List.range 17).map fun (n : Nat) => neighbours num den (lead - n)).flatten

/-- The decimal that a finite magnitude is written as. -/
def shortest (magnitude : Nat) : Decimal :=
  if magnitude = 0 then ⟨0, 0⟩
  else
    ((candidates magnitude).find? fun d => d.nearestMagnitude == magnitude).getD
      (exactDecimal magnitude)

theorem shortest_readsBack {magnitude : Nat}
    (h : (exactDecimal magnitude).nearestMagnitude = magnitude) :
    (shortest magnitude).nearestMagnitude = magnitude := by
  unfold shortest
  split
  · rename_i h0
    rw [h0]
    rfl
  · cases hf : (candidates magnitude).find? fun d => d.nearestMagnitude == magnitude with
    | none => simpa using h
    | some d =>
      have := List.find?_some hf
      simpa using this

end Double

end Polyglot
