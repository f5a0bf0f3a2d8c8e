/-!
# Binary floating point numbers of 64 bits

A `Double` is its bit pattern: a sign, an exponent of 11 bits and a fraction of 52 bits. Numbers are
told apart as an expression does it, by `Double.canonical`: the two zeros count as one number, and
so do all the patterns that are not a number.

Arithmetic on doubles goes through `Float`; everything that has to be exact (reading and writing
decimals) works on the finite value `significand * 2 ^ exponent` in whole numbers instead.
-/

namespace Polyglot

/-- A floating point number, as its bit pattern. -/
structure Double where
  bits : UInt64
  deriving DecidableEq, Repr

namespace Double

/-- The bits without the sign. Larger ones are larger in magnitude. -/
def magnitude (x : Double) : Nat := x.bits.toNat % Nat.pow 2 63

/-- Whether the sign bit is set. -/
def signBit (x : Double) : Bool := Nat.pow 2 63 ≤ x.bits.toNat

/-- The magnitude of infinity; those above it are not numbers. -/
def infinityMagnitude : Nat := 2047 * Nat.pow 2 52

/-- Whether the bits stand for no number. -/
def isNaN (x : Double) : Bool := infinityMagnitude < x.magnitude

/-- Whether the bits stand for a number that is not infinite. -/
def isFinite (x : Double) : Bool := x.magnitude < infinityMagnitude

/-- The number with the given sign and magnitude. -/
def ofMagnitude (negative : Bool) (magnitude : Nat) : Double :=
  ⟨UInt64.ofNat (magnitude + if negative then Nat.pow 2 63 else 0)⟩

/-- The positive zero. -/
def zero : Double := ⟨0⟩

/-- Whether the number is less than zero; the negative zero is not. -/
def isNegative (x : Double) : Bool := x.signBit && !x.isNaN && x.magnitude != 0

/-- The representative of all numbers that an expression does not tell apart from this one. -/
def canonical (x : Double) : Double :=
  if x.isNaN then ofMagnitude false (infinityMagnitude + 1)
  else if x.magnitude = 0 then ofMagnitude false 0
  else x

/-- The exponent and the fraction that a finite magnitude stands for: `m` and `e` with the value
`m * 2 ^ e`. Below `2 ^ 52` the magnitude is subnormal. -/
def unpack (magnitude : Nat) : Nat × Int :=
  let fraction := Nat.pow 2 52
  if magnitude / fraction = 0 then (magnitude, -1074)
  else (magnitude % fraction + fraction, magnitude / fraction - 1075)

/-- A quotient of whole numbers times a power of `base`, as a quotient of whole numbers. -/
def scale (base : Nat) (num den : Nat) (e : Int) : Nat × Nat :=
  if 0 ≤ e then (num * base.pow e.toNat, den) else (num, den * base.pow (-e).toNat)

/-- The value of a finite magnitude as a quotient. -/
def ratio (magnitude : Nat) : Nat × Nat :=
  scale 2 (unpack magnitude).1 1 (unpack magnitude).2

/-- The number as one that can be computed with. -/
def toFloat (x : Double) : Float := Float.ofBits x.bits

/-- The bits of a computed number. -/
def ofFloat (x : Float) : Double := ⟨x.toBits⟩

end Double

end Polyglot
