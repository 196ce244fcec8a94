import YulAbi.Word

/-!
# Hexadecimal text

Numbers and words are written with a leading `0x`, in lower case and without
leading zeros. Byte strings are written with two digits for each byte. Reading
bytes accepts both cases of digit and an optional leading `0x`.
-/

namespace YulAbi.Hex

/-- The lower-case digit of a number below sixteen. -/
def digit (value : Nat) : Char :=
  if value < 10 then Char.ofNat (48 + value) else Char.ofNat (87 + value)

/-- The value of a hexadecimal digit in either case. -/
def digitValue? (char : Char) : Option Nat :=
  if '0' ≤ char ∧ char ≤ '9' then some (char.toNat - 48)
  else if 'a' ≤ char ∧ char ≤ 'f' then some (char.toNat - 87)
  else if 'A' ≤ char ∧ char ≤ 'F' then some (char.toNat - 55)
  else none

/-- Hexadecimal digits of a number without leading zeros, `0` for zero. -/
def digits (value : Nat) : String := String.ofList (Nat.toDigits 16 value)

/-- A number with its `0x` mark. -/
def ofNat (value : Nat) : String := "0x" ++ digits value

/-- A word with its `0x` mark. -/
def ofWord (word : Word) : String := ofNat word.toNat

/-- The two digits of one byte. -/
def byteDigits (byte : UInt8) : List Char := [digit (byte.toNat / 16), digit (byte.toNat % 16)]

/-- Two digits for each byte, without a mark. -/
def bareBytes (bytes : List UInt8) : String := String.ofList (bytes.flatMap byteDigits)

/-- Two digits for each byte behind a `0x` mark. -/
def ofBytes (bytes : List UInt8) : String := "0x" ++ bareBytes bytes

/-- Reads pairs of digits; an odd digit or any other character refuses the text. -/
def readPairs? : List Char → Option (List UInt8)
  | [] => some []
  | [_] => none
  | high :: low :: rest => do
    let upper ← digitValue? high
    let lower ← digitValue? low
    let tail ← readPairs? rest
    return UInt8.ofNat (upper * 16 + lower) :: tail

/-- Reads bytes from text with an optional leading `0x`. -/
def toBytes? (text : String) : Option (List UInt8) :=
  match text.toList with
  | '0' :: 'x' :: rest => readPairs? rest
  | chars => readPairs? chars

/-- Reads a number from bare digits, at least one. -/
def readDigits? : List Char → Option Nat
  | [] => none
  | chars => chars.foldlM (fun total char => (digitValue? char).map (total * 16 + ·)) 0

end YulAbi.Hex
