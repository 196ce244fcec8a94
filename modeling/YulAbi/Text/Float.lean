/-!
# Decimal text of floating-point numbers

A finite double is `mantissa * 2 ^ exponent`. Among the decimal numbers that
round to it, the text shows one with the fewest digits, and of those the one
nearest to the double. It is written positionally: no exponent, no fraction when
it is whole. All arithmetic is exact on natural numbers.
-/

namespace YulAbi.FloatText

/-- The parts of a finite double. -/
structure Parts where
  /-- Whether the sign bit is set. -/
  negative : Bool
  /-- The integral mantissa with the hidden bit. -/
  mantissa : Nat
  /-- The power of two that scales the mantissa. -/
  exponent : Int
  /-- Whether the gap to the next smaller double is half the gap to the next larger one. -/
  narrowBelow : Bool

/-- Splits the bits of a finite double. -/
def partsOf (bits : UInt64) : Parts :=
  let raw := bits.toNat
  let fraction := raw % Nat.pow 2 52
  let biased := raw / Nat.pow 2 52 % 2048
  let negative := raw / Nat.pow 2 63 == 1
  if biased = 0 then ⟨negative, fraction, -1074, false⟩
  else ⟨negative, fraction + Nat.pow 2 52, Int.ofNat biased - 1075, fraction == 0 && biased != 1⟩

/-- A positive rational number as a quotient of natural numbers. -/
structure Ratio where
  /-- Numerator. -/
  num : Nat
  /-- Denominator. -/
  den : Nat

/-- The quotient `value * 2 ^ twos * 10 ^ tens`. -/
def scaled (value : Nat) (twos tens : Int) : Ratio :=
  ⟨value * Nat.pow 2 twos.toNat * Nat.pow 10 tens.toNat, Nat.pow 2 (-twos).toNat * Nat.pow 10 (-tens).toNat⟩

/-- A decimal number `digits * 10 ^ power`. -/
structure Decimal where
  /-- Significant digits, read as a number. -/
  digits : Nat
  /-- The power of ten that scales the digits. -/
  power : Int
  deriving Repr

/-- Tests whether `candidate * 10 ^ power` rounds to the double with these parts. The ends of the
rounding interval count when the mantissa is even. -/
def roundsTo (parts : Parts) (candidate : Nat) (power : Int) : Bool :=
  -- bounds in quarters of a unit of the mantissa
  let upper := scaled (4 * parts.mantissa + 2) (parts.exponent - 2) (-power)
  let lower := scaled (4 * parts.mantissa - (if parts.narrowBelow then 1 else 2)) (parts.exponent - 2) (-power)
  let even := parts.mantissa % 2 == 0
  let above := if even then lower.num ≤ candidate * lower.den else lower.num < candidate * lower.den
  let below := if even then candidate * upper.den ≤ upper.num else candidate * upper.den < upper.num
  above && below

/-- The decimal on the grid of `10 ^ power` that rounds to the double, the nearer one of the two
neighbours if both do; a tie goes to the even neighbour. -/
def onGrid? (parts : Parts) (power : Int) : Option Decimal :=
  let exact := scaled parts.mantissa parts.exponent (-power)
  let floor := exact.num / exact.den
  let rest := exact.num - floor * exact.den
  let nearest := if 2 * rest < exact.den then floor
    else if 2 * rest > exact.den then floor + 1
    else if floor % 2 = 0 then floor else floor + 1
  let other := if nearest = floor then floor + 1 else floor
  if roundsTo parts nearest power then some ⟨nearest, power⟩
  else if roundsTo parts other power then some ⟨other, power⟩
  else none

/-- The number of decimal digits of a natural number, one for zero. -/
def digitCount (value : Nat) : Nat := (Nat.toDigits 10 value).length

/-- The position of the leading decimal digit: `10 ^ p ≤ value < 10 ^ (p + 1)`. -/
def leadingPower (parts : Parts) : Int :=
  let exact := scaled parts.mantissa parts.exponent 0
  if exact.den ≤ exact.num then Int.ofNat (digitCount (exact.num / exact.den)) - 1
  else
    -- no double below one is a power of ten, so the reciprocal decides the position
    -Int.ofNat (digitCount (exact.den / exact.num))

/-- The shortest decimal that rounds to the double, tried from one digit to seventeen. -/
def shortest (parts : Parts) : Decimal :=
  if parts.mantissa = 0 then ⟨0, 0⟩
  else
    let lead := leadingPower parts
    ((List.range 18).findSome? fun count => onGrid? parts (lead - Int.ofNat count)).getD
      ⟨parts.mantissa, 0⟩

/-- Removes trailing zeros from the digits, at most `fuel` of them. -/
def dropTrailingZeros : Nat → Decimal → Decimal
  | 0, decimal => decimal
  | fuel + 1, decimal =>
    if decimal.digits ≠ 0 ∧ decimal.digits % 10 = 0 then
      dropTrailingZeros fuel ⟨decimal.digits / 10, decimal.power + 1⟩
    else decimal

/-- A decimal written positionally. -/
def positional (decimal : Decimal) : String :=
  let trimmed := dropTrailingZeros 400 decimal
  let digits := Nat.toDigits 10 trimmed.digits
  if 0 ≤ trimmed.power then
    String.ofList (digits ++ List.replicate (if trimmed.digits = 0 then 0 else trimmed.power.toNat) '0')
  else
    let places := (-trimmed.power).toNat
    let padded := List.replicate (places + 1 - digits.length) '0' ++ digits
    String.ofList (padded.take (padded.length - places) ++ '.' :: padded.drop (padded.length - places))

/-- The text of a double: `inf`, `-inf` and `NaN` for those that are not finite. -/
def render (value : Float) : String :=
  let bits := value.toBits
  let exponentBits := bits.toNat / Nat.pow 2 52 % 2048
  let negative := bits.toNat / Nat.pow 2 63 == 1
  if exponentBits = 2047 then
    if bits.toNat % Nat.pow 2 52 = 0 then (if negative then "-inf" else "inf") else "NaN"
  else
    let parts := partsOf bits
    (if parts.negative then "-" else "") ++ positional (shortest parts)

/-- The bits of the double nearest to a quotient, a half going to the even neighbour; none when
the quotient is too large for any finite double. -/
def nearestBits? (num den : Nat) : Option UInt64 :=
  if num = 0 ∨ den = 0 then some 0
  else
    let low := max (Int.ofNat num.log2 - Int.ofNat den.log2 - 53) (-1074)
    let wide := scaled num (-low) 0
    let exponent := if Nat.pow 2 53 ≤ wide.num / (wide.den * den) then low + 1 else low
    let exact := scaled num (-exponent) 0
    let divisor := exact.den * den
    let floor := exact.num / divisor
    let rest := exact.num % divisor
    let mantissa := if 2 * rest < divisor then floor
      else if divisor < 2 * rest then floor + 1
      else floor + floor % 2
    let bits := (exponent + 1074).toNat * Nat.pow 2 52 + mantissa
    if bits < 2047 * Nat.pow 2 52 then some (UInt64.ofNat bits) else none

/-- The double nearest to a quotient, if a finite one is. -/
def nearest? (num den : Nat) : Option Float := (nearestBits? num den).map Float.ofBits

/-- The bits of a double as sixteen hexadecimal digits behind `0x`. -/
def bitsText (value : Float) : String :=
  let digits := Nat.toDigits 16 value.toBits.toNat
  "0x" ++ String.ofList (List.replicate (16 - digits.length) '0' ++ digits)

end YulAbi.FloatText
