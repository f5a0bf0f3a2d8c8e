import Polyglot.Double.Shortest

/-!
# How doubles are written and read

`Double.text` writes a double with its shortest digits, positionally when its leading digit stands
neither far before nor far behind the point and with an exponent otherwise. `Double.ofDecimalText`
is the double that a written number denotes. `fixedText` writes a quotient with a fixed number of
places.
-/

namespace Polyglot

/-- Between which powers of ten a number is written positionally. -/
structure NumberFormat where
  lowest : Int
  highest : Int

/-- Numbers from `10 ^ -4` up to, but not including, `10 ^ 16` are written positionally. -/
def Double.format : NumberFormat := ⟨-4, 15⟩

/-- Digits with the point behind the digit of exponent 0; `lead` is the exponent of the first digit.
There is at least one digit on either side of the point. -/
def positionalText (digits : List Char) (lead : Int) : List Char :=
  if lead < 0 then '0' :: '.' :: (List.replicate (-lead - 1).toNat '0' ++ digits)
  else
    let whole := lead.toNat + 1
    if digits.length ≤ whole then
      digits ++ List.replicate (whole - digits.length) '0' ++ ['.', '0']
    else digits.take whole ++ '.' :: digits.drop whole

/-- Digits with the point behind the first one, and the exponent of the first one. -/
def exponentText (digits : List Char) (lead : Int) : List Char :=
  let exponent := 'e' :: (toString lead).toList
  match digits with
  | [] => exponent
  | [d] => d :: exponent
  | d :: ds => d :: '.' :: ds ++ exponent

namespace Decimal

/-- The text of a decimal: positional or with an exponent. -/
def text (d : Decimal) : List Char :=
  let lead := d.exp + d.digits.length - 1
  if Double.format.lowest ≤ lead ∧ lead ≤ Double.format.highest then positionalText d.digits lead
  else exponentText d.digits lead

end Decimal

namespace Double

/-- The text of a double. -/
def text (x : Double) : String :=
  if x.isNaN then "NaN"
  else
    let unsigned :=
      if x.isFinite then String.ofList (shortest x.magnitude).text else "inf"
    if x.signBit then "-" ++ unsigned else unsigned

/-- The double written with these digits before and after the point, and this exponent. -/
def ofDecimalText (negative : Bool) (whole fraction : List Char) (exponent : Int) : Double :=
  let coeff := Nat.ofDigitChars 10 (whole ++ fraction) 0
  ofMagnitude negative (Decimal.strip coeff (exponent - fraction.length)).nearestMagnitude

/-- A quotient with a fixed number of places, rounded to the nearest one, a half to the even one. -/
def fixedText (places num den : Nat) : String :=
  let unit := Nat.pow 10 places
  let scaled := roundQuotient (num * unit) den
  let fraction := Nat.toDigits 10 (scaled % unit)
  toString (scaled / unit) ++ "." ++
    String.ofList (List.replicate (places - fraction.length) '0' ++ fraction)

end Double

end Polyglot
