import YulAbi.Text
import YulAbi.Text.Float
import YulAbi.Text.Hex

/-!
# Unquoted scalars

What an unquoted scalar of a block document means when a truth value, an
unsigned number or a double is expected. Read as text it is taken literally.
-/

namespace YulAbi.Scalar

/-- The three spellings of each truth value. -/
def toBool? (scalar : String) : Option Bool :=
  if scalar = "true" ∨ scalar = "True" ∨ scalar = "TRUE" then some true
  else if scalar = "false" ∨ scalar = "False" ∨ scalar = "FALSE" then some false
  else none

/-- Whether the scalar stands for the absent value. -/
def isAbsent (scalar : String) : Bool :=
  scalar = "" || scalar = "~" || scalar = "null" || scalar = "Null" || scalar = "NULL"

/-- Reads digits of a base below ten, at least one. -/
def readBase? (base : Nat) (chars : List Char) : Option Nat :=
  if chars.isEmpty then none
  else chars.foldlM (fun total char =>
    if Numeral.isDigit char && char.toNat - 48 < base then some (total * base + (char.toNat - 48))
    else none) 0

/-- Whether the scalar is made of digits but starts with a superfluous zero, which makes it text. -/
def hasLeadingZero (chars : List Char) : Bool :=
  let body := match chars with
    | '-' :: rest | '+' :: rest => rest
    | rest => rest
  match body with
  | '0' :: rest => !rest.isEmpty && rest.all Numeral.isDigit
  | _ => false

/-- Reads an unsigned number of 64 bits: decimal, or with the mark `0x`, `0o` or `0b`. -/
def toNatural? (scalar : String) : Option Nat := do
  let chars := scalar.toList
  let body := match chars with
    | '+' :: rest => rest
    | rest => rest
  let value ← match body with
    | '0' :: 'x' :: rest => Hex.readDigits? rest
    | '0' :: 'o' :: rest => readBase? 8 rest
    | '0' :: 'b' :: rest => readBase? 2 rest
    | rest => if hasLeadingZero chars then none else Numeral.readDigits? rest
  if value < 0x10000000000000000 then some value else none

/-- The quotient `digits * 10 ^ exponent` as the nearest double. -/
def doubleOf? (digits : Nat) (exponent : Int) : Option Float :=
  -- beyond these bounds every double is zero or infinite, whatever the digits
  if exponent < -(400 + Int.ofNat (FloatText.digitCount digits)) then some 0
  else if 400 < exponent then (if digits = 0 then some 0 else none)
  else FloatText.nearest? (digits * Nat.pow 10 exponent.toNat) (Nat.pow 10 (-exponent).toNat)

/-- Reads an exponent behind its mark. -/
def readExponent? : List Char → Option Int
  | '-' :: rest => (Numeral.readDigits? rest).map fun value => -Int.ofNat value
  | '+' :: rest => (Numeral.readDigits? rest).map Int.ofNat
  | rest => (Numeral.readDigits? rest).map Int.ofNat

/-- Reads an unsigned decimal with optional fraction and exponent; a digit must stand before or
after the point. -/
def readDecimal? (chars : List Char) : Option Float := do
  let (integral, rest) := chars.span Numeral.isDigit
  let (fraction, tail) := match rest with
    | '.' :: after => after.span Numeral.isDigit
    | after => ([], after)
  if integral.isEmpty && fraction.isEmpty then none
  else
    let exponent ← match tail with
      | [] => some 0
      | mark :: after => if mark == 'e' || mark == 'E' then readExponent? after else none
    doubleOf? (Numeral.valueOf (integral ++ fraction)) (exponent - Int.ofNat fraction.length)

/-- Reads a double, `.inf` and `.nan` included. -/
def toFloat? (scalar : String) : Option Float :=
  let unsigned := match scalar.toList with
    | '+' :: rest => rest
    | rest => rest
  if [".inf", ".Inf", ".INF"].contains (String.ofList unsigned) then some (1.0 / 0.0)
  else if ["-.inf", "-.Inf", "-.INF"].contains scalar then some (-1.0 / 0.0)
  else if [".nan", ".NaN", ".NAN"].contains scalar then some (0.0 / 0.0)
  else
    match scalar.toList with
    | '+' :: rest => readDecimal? rest
    | '-' :: rest => (readDecimal? rest).map fun value => -value
    | rest => readDecimal? rest

end YulAbi.Scalar
