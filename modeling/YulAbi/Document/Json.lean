import YulAbi.Document.Number
import YulAbi.Text.Hex

/-!
# JSON

The reader takes strict JSON: four kinds of white space, no trailing commas, no
control characters inside text. Half a surrogate pair, a number out of range and a
collection below 127 nested levels are well formed but have no value. The printer
writes either one line or two-space indentation.
-/

namespace YulAbi.Document

/-- Whether JSON skips a character between tokens. -/
def isJsonSpace (char : Char) : Bool := char == ' ' || char == '\n' || char == '\t' || char == '\r'

/-- Skips white space between tokens. -/
def skipSpace (chars : List Char) : List Char := chars.dropWhile isJsonSpace

/-- Reads four hexadecimal digits. -/
def readHexQuad? : List Char → Option (Nat × List Char)
  | a :: b :: c :: d :: rest => (Hex.readDigits? [a, b, c, d]).map fun value => (value, rest)
  | _ => none

/-- The character of a numeric escape whose first four digits are read already, if it has one. The
second half of a surrogate pair is read here; a half without the other one is no character. -/
def readEscapedUnit (unit : Nat) (rest : List Char) : Option Char × List Char :=
  if 0xD800 ≤ unit ∧ unit < 0xDC00 then
    match rest with
    | '\\' :: 'u' :: tail =>
      match readHexQuad? tail with
      | some (low, after) =>
        if 0xDC00 ≤ low ∧ low < 0xE000 then
          (some (Char.ofNat (0x10000 + (unit - 0xD800) * 0x400 + (low - 0xDC00))), after)
        else (none, rest)
      | none => (none, rest)
    | _ => (none, rest)
  else if 0xDC00 ≤ unit ∧ unit < 0xE000 then (none, rest)
  else (some (Char.ofNat unit), rest)

/-- Reads one escape after its backslash; the outer `none` refuses, the inner one stands for half of
a surrogate pair. -/
def readEscape? : List Char → Option (Option Char × List Char)
  | '"' :: rest => some (some '"', rest)
  | '\\' :: rest => some (some '\\', rest)
  | '/' :: rest => some (some '/', rest)
  | 'b' :: rest => some (some (Char.ofNat 8), rest)
  | 'f' :: rest => some (some (Char.ofNat 12), rest)
  | 'n' :: rest => some (some '\n', rest)
  | 'r' :: rest => some (some '\r', rest)
  | 't' :: rest => some (some '\t', rest)
  | 'u' :: rest => (readHexQuad? rest).map fun (unit, after) => readEscapedUnit unit after
  | _ => none

/-- Reads text up to its closing quote; `done` holds the characters read so far in reverse, unless
one of them was half of a surrogate pair. The fuel bounds the number of characters. -/
def readTextBody? : Nat → Option (List Char) → List Char → Option (Option String × List Char)
  | 0, _, _ => none
  | fuel + 1, done, chars =>
    match chars with
    | [] => none
    | '"' :: rest => some (done.map fun chars => String.ofList chars.reverse, rest)
    | '\\' :: rest =>
      match readEscape? rest with
      | some (char?, after) =>
        readTextBody? fuel (done.bind fun chars => char?.map (· :: chars)) after
      | none => none
    | char :: rest =>
      if char.toNat < 0x20 then none else readTextBody? fuel (done.map (char :: ·)) rest

/-- Reads text behind its opening quote. -/
def readQuoted? (chars : List Char) : Option (Option String × List Char) :=
  readTextBody? (chars.length + 1) (some []) chars

/-- Requires the characters of a literal in front and removes them. -/
def expect? : List Char → List Char → Option (List Char)
  | [], rest => some rest
  | wanted :: more, char :: rest => if wanted == char then expect? more rest else none
  | _ :: _, [] => none

mutual
/-- Reads one value. Every step takes a character, so the length of the text is fuel enough;
`levels` is the number of containers that may still be opened. -/
def readValue? (fuel levels : Nat) (chars : List Char) : Option (Document × List Char) :=
  match fuel with
  | 0 => none
  | fuel + 1 =>
    match skipSpace chars with
    | 'n' :: rest => (expect? ['u', 'l', 'l'] rest).map fun tail => (.null, tail)
    | 't' :: rest => (expect? ['r', 'u', 'e'] rest).map fun tail => (.bool true, tail)
    | 'f' :: rest => (expect? ['a', 'l', 's', 'e'] rest).map fun tail => (.bool false, tail)
    | '"' :: rest => (readQuoted? rest).map fun (value, tail) => ((value.map .text).getD .unreadable, tail)
    | '[' :: rest =>
      match skipSpace rest with
      | ']' :: tail => some (within levels (.array []), tail)
      | body => readItems? fuel levels [] body
    | '\x7b' :: rest =>
      match skipSpace rest with
      | '\x7d' :: tail => some (within levels (.record []), tail)
      | body => readFields? fuel levels [] body
    | body => readNumber? body
/-- Reads the items of a sequence up to its closing bracket. -/
def readItems? (fuel levels : Nat) (done : List Document) (chars : List Char) :
    Option (Document × List Char) :=
  match fuel with
  | 0 => none
  | fuel + 1 =>
    match readValue? fuel (levels - 1) chars with
    | none => none
    | some (item, rest) =>
      match skipSpace rest with
      | ',' :: tail => readItems? fuel levels (item :: done) tail
      | ']' :: tail => some (within levels (.array (item :: done).reverse), tail)
      | _ => none
/-- Reads the fields of a record up to its closing brace. -/
def readFields? (fuel levels : Nat) (done : List (Option String × Document)) (chars : List Char) :
    Option (Document × List Char) :=
  match fuel with
  | 0 => none
  | fuel + 1 =>
    match skipSpace chars with
    | '"' :: rest =>
      match readQuoted? rest with
      | none => none
      | some (name, afterName) =>
        match skipSpace afterName with
        | ':' :: afterColon =>
          match readValue? fuel (levels - 1) afterColon with
          | none => none
          | some (value, afterValue) =>
            match skipSpace afterValue with
            | ',' :: tail => readFields? fuel levels ((name, value) :: done) tail
            | '\x7d' :: tail =>
              some (within levels (recordOf ((name, value) :: done).reverse), tail)
            | _ => none
        | _ => none
    | _ => none
end

/-- Reads a whole JSON text. -/
def ofJson? (text : String) : Option Document :=
  let chars := text.toList
  match readValue? (2 * chars.length + 2) 127 chars with
  | some (value, rest) => if (skipSpace rest).isEmpty then some value else none
  | none => none

/-- One character inside JSON text. -/
def escapeChar (char : Char) : List Char :=
  if char == '"' then ['\\', '"']
  else if char == '\\' then ['\\', '\\']
  else if char == '\n' then ['\\', 'n']
  else if char == '\r' then ['\\', 'r']
  else if char == '\t' then ['\\', 't']
  else if char.toNat == 8 then ['\\', 'b']
  else if char.toNat == 12 then ['\\', 'f']
  else if char.toNat < 0x20 then
    ['\\', 'u', '0', '0', Hex.digit (char.toNat / 16), Hex.digit (char.toNat % 16)]
  else [char]

/-- Text between quotes. -/
def quoteText (value : String) : String :=
  if value.toList.any fun char => char == '"' || char == '\\' || char.toNat < 0x20 then
    "\"" ++ String.ofList (value.toList.flatMap escapeChar) ++ "\""
  else "\"" ++ value ++ "\""

/-- The text of a value without parts. -/
def scalarText : Document → String
  | .bool true => "true"
  | .bool false => "false"
  | .integer value => toString value
  | .float value => FloatText.render value
  | .text value | .plain value => quoteText value
  | _ => "null"

mutual
/-- Writes a document on one line, appending to `out`. -/
def appendCompact (out : String) : Document → String
  | .list _ items => appendItems (out ++ "[") true items ++ "]"
  | .record fields => appendFields (out ++ "\x7b") true fields ++ "\x7d"
  | scalar => out ++ scalarText scalar
/-- Writes items separated by commas. -/
def appendItems (out : String) (first : Bool) : List Document → String
  | [] => out
  | item :: rest => appendItems (appendCompact (if first then out else out ++ ",") item) false rest
/-- Writes fields separated by commas. -/
def appendFields (out : String) (first : Bool) : List (String × Document) → String
  | [] => out
  | (name, value) :: rest =>
    appendFields
      (appendCompact ((if first then out else out ++ ",") ++ quoteText name ++ ":") value) false rest
end

/-- A document on one line. -/
def compact (document : Document) : String := appendCompact "" document

/-- A line break followed by two spaces for each level. -/
def lineBreak (level : Nat) : String := "\n" ++ String.ofList (List.replicate (2 * level) ' ')

mutual
/-- Writes a document over several lines, appending to `out`. -/
def appendPretty (out : String) (level : Nat) : Document → String
  | .list _ [] => out ++ "[]"
  | .list _ items => appendPrettyItems (out ++ "[") level true items ++ lineBreak level ++ "]"
  | .record [] => out ++ "\x7b\x7d"
  | .record fields =>
    appendPrettyFields (out ++ "\x7b") level true fields ++ lineBreak level ++ "\x7d"
  | scalar => out ++ scalarText scalar
/-- Writes items, each on a line of its own. -/
def appendPrettyItems (out : String) (level : Nat) (first : Bool) : List Document → String
  | [] => out
  | item :: rest =>
    appendPrettyItems
      (appendPretty ((if first then out else out ++ ",") ++ lineBreak (level + 1)) (level + 1) item)
      level false rest
/-- Writes fields, each on a line of its own. -/
def appendPrettyFields (out : String) (level : Nat) (first : Bool) : List (String × Document) → String
  | [] => out
  | (name, value) :: rest =>
    appendPrettyFields
      (appendPretty
        ((if first then out else out ++ ",") ++ lineBreak (level + 1) ++ quoteText name ++ ": ")
        (level + 1) value)
      level false rest
end

/-- A document over several lines, indented by two spaces for each level. -/
def pretty (document : Document) : String := appendPretty "" 0 document

end YulAbi.Document
