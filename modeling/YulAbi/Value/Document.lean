import YulAbi.Document.Read
import YulAbi.Text
import YulAbi.Text.Hex
import YulAbi.Value

/-!
# Values as documents

A value is a record of its kind and its content. A word is written as hexadecimal
text; it is read from a number or from digits in base sixteen, eight, two or ten,
in which underscores may stand anywhere.
-/

namespace YulAbi

/-- The value of a letter or digit as a digit of a base. -/
def Word.digitIn? (base : Nat) (char : Char) : Option Nat :=
  let code := char.toNat
  let value :=
    if Numeral.isDigit char then code - 48
    else if 'a' ≤ char ∧ char ≤ 'z' then code - 87
    else if 'A' ≤ char ∧ char ≤ 'Z' then code - 55
    else base
  if value < base then some value else none

/-- Reads a number below `2 ^ 256` in a base. Underscores are skipped; no digits give zero. -/
def Word.readDigits? (base : Nat) (chars : List Char) : Option Word := do
  let digits := chars.filter (· != '_')
  let value ← digits.foldlM (fun total char => (Word.digitIn? base char).map (total * base + ·)) 0
  if value < Nat.pow 2 256 then some (Word.ofNat value) else none

/-- Reads a word from text, in the base that its first two characters tell. -/
def Word.ofText? (text : String) : Option Word :=
  match text.toList with
  | '0' :: 'x' :: rest => Word.readDigits? 16 rest
  | '0' :: 'X' :: rest => Word.readDigits? 16 rest
  | '0' :: 'o' :: rest => Word.readDigits? 8 rest
  | '0' :: 'O' :: rest => Word.readDigits? 8 rest
  | '0' :: 'b' :: rest => Word.readDigits? 2 rest
  | '0' :: 'B' :: rest => Word.readDigits? 2 rest
  | chars => Word.readDigits? 10 chars

/-- Reads a word from text or from a number that fits 64 bits. -/
def Word.ofDocument? : Document → Option Word
  | .text value => Word.ofText? value
  | .integer (.ofNat value) => if value < 0x10000000000000000 then some (Word.ofNat value) else none
  | _ => none

namespace Value

open Document

/-- The kinds by name. -/
def kinds : List (String × String) :=
  ["word", "bytes", "array", "tuple"].map fun kind => (kind, kind)

mutual
/-- Reads a value nested at most `fuel` levels deep. -/
def readWithin? (fuel : Nat) (document : Document) : Option Value :=
  match fuel with
  | 0 => none
  | fuel + 1 => do
    let [some kind, some content] ← document.readFieldsOf? ["kind", "value"] | none
    readContent? fuel (← readChoice? kinds kind) content
/-- Reads the content of a value of a kind. -/
def readContent? (fuel : Nat) (kind : String) (content : Document) : Option Value :=
  match kind with
  | "word" => (Word.ofDocument? content).map .word
  | "bytes" =>
    (content.readList? (readNatural? 255)).map fun bytes => .bytes (bytes.map UInt8.ofNat)
  | "array" => (content.readList? (readWithin? fuel)).map .array
  | "tuple" => (content.readList? (readWithin? fuel)).map .tuple
  | _ => none
end

/-- Reads a value. -/
def ofDocument? (document : Document) : Option Value := readWithin? document.depth document

mutual
/-- Writes a value. -/
def toDocument : Value → Document
  | .word value => .record [("kind", .text "word"), ("value", .text (Hex.ofWord value))]
  | .bytes content =>
    .record [("kind", .text "bytes"),
      ("value", .array (content.map fun byte => .natural byte.toNat))]
  | .array elements => .record [("kind", .text "array"), ("value", .array (documents elements))]
  | .tuple members => .record [("kind", .text "tuple"), ("value", .array (documents members))]
/-- Writes values. -/
def documents : List Value → List Document
  | [] => []
  | value :: rest => value.toDocument :: documents rest
end

end Value

end YulAbi
