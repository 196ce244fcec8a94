import YulAbi.Document
import YulAbi.Text
import YulAbi.Text.Float

/-!
# JSON numbers

A number without fraction and exponent stays integral while it fits 64 bits,
signed or unsigned. Any other number becomes a double: its digits are collected
as long as they fit 64 bits, later integral digits only move the decimal point,
later fractional digits are dropped, and the collected digits are then scaled by
a power of ten with one rounding for each step.
-/

namespace YulAbi.Document

/-- The largest unsigned number of 64 bits. -/
def maxUnsigned64 : Nat := 0xffffffffffffffff

/-- A power of ten as a double, up to the three hundred and eighth. -/
def powerOfTen (power : Nat) : Float := (FloatText.nearest? (Nat.pow 10 power) 1).getD 0

/-- Scales a double down by `10 ^ exponent`, 308 powers at a time. Digits of 64 bits vanish after
four steps, so no more are taken. -/
def scaleDown : Nat → Float → Nat → Float
  | 0, value, _ => value
  | steps + 1, value, exponent =>
    if exponent ≤ 308 then value / powerOfTen exponent
    else if value == 0 then value
    else scaleDown steps (value / powerOfTen 308) (exponent - 308)

/-- The double of collected digits scaled by a power of ten, refused when it is infinite. -/
def scaleDigits? (digits : Nat) (exponent : Int) : Option Float :=
  let value := (UInt64.ofNat digits).toFloat
  if 0 ≤ exponent then
    if 308 < exponent then (if digits = 0 then some 0 else none)
    else
      let scaled := value * powerOfTen exponent.toNat
      if scaled.isInf then none else some scaled
  else some (scaleDown 4 value (-exponent).toNat)

/-- Digits collected so far and the power of ten that they still miss. -/
structure Significand where
  /-- The collected digits, at most 64 bits wide. -/
  digits : Nat
  /-- The power of ten that scales them. -/
  exponent : Int
  /-- Whether a digit has been left out because it did not fit. -/
  full : Bool

/-- Appends an integral digit. -/
def Significand.pushIntegral (collected : Significand) (digit : Nat) : Significand :=
  if collected.full || maxUnsigned64 < collected.digits * 10 + digit then
    { collected with exponent := collected.exponent + 1, full := true }
  else { collected with digits := collected.digits * 10 + digit }

/-- Appends a fractional digit. A full integral part may still take fractional digits that fit. -/
def Significand.pushFractional (collected : Significand) (digit : Nat) : Significand :=
  if collected.full || maxUnsigned64 < collected.digits * 10 + digit then { collected with full := true }
  else { collected with digits := collected.digits * 10 + digit, exponent := collected.exponent - 1 }

/-- The value of an ASCII digit. -/
def digitOf (char : Char) : Nat := char.toNat - 48

/-- Splits leading ASCII digits off. -/
def spanDigits (chars : List Char) : List Char × List Char := chars.span Numeral.isDigit

/-- Reads an optional exponent. The outer `none` refuses; the inner one stands for no exponent. -/
def readExponent? : List Char → Option (Option Int × List Char)
  | mark :: rest =>
    if mark == 'e' || mark == 'E' then
      let (negative, body) := match rest with
        | '+' :: tail => (false, tail)
        | '-' :: tail => (true, tail)
        | tail => (false, tail)
      let (digits, tail) := spanDigits body
      if digits.isEmpty then none
      else
        let size := Int.ofNat (Numeral.valueOf digits)
        some (some (if negative then -size else size), tail)
    else some (none, mark :: rest)
  | [] => some (none, [])

/-- Reads the part of a number after its sign; a number beyond every double has no value. -/
def readMagnitude? (negative : Bool) (chars : List Char) : Option (Document × List Char) := do
  let (integral, afterIntegral) := spanDigits chars
  if integral.isEmpty || (integral.head? == some '0' && 1 < integral.length) then none
  else
    let whole : Significand := (integral.map digitOf).foldl Significand.pushIntegral ⟨0, 0, false⟩
    let (fraction?, afterFraction) ← match afterIntegral with
      | '.' :: rest =>
        let (fraction, tail) := spanDigits rest
        if fraction.isEmpty then none else some (some fraction, tail)
      | rest => some (none, rest)
    let (exponent?, rest) ← readExponent? afterFraction
    if fraction?.isNone && exponent?.isNone && !whole.full &&
        (!negative || (0 < whole.digits && whole.digits ≤ 0x8000000000000000)) then
      let value := Int.ofNat whole.digits
      return (.integer (if negative then -value else value), rest)
    else
      let collected := ((fraction?.getD []).map digitOf).foldl Significand.pushFractional
        { whole with full := false }
      return match scaleDigits? collected.digits (collected.exponent + exponent?.getD 0) with
        | some value => (.float (if negative then -value else value), rest)
        | none => (.unreadable, rest)

/-- Reads a number with its optional minus sign. -/
def readNumber? : List Char → Option (Document × List Char)
  | '-' :: rest => readMagnitude? true rest
  | chars => readMagnitude? false chars

end YulAbi.Document
