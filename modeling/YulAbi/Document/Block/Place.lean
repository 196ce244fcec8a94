/-!
# Characters and places of a block document

Which characters a block document may hold, which of them separate words and lines,
and how a place moves over them. A place counts the columns of its line in
characters and the width of its line in bytes.
-/

namespace YulAbi.Document.Block

/-- Whether a character may stand in a document: no control character does, except tabs and line
breaks. -/
def isAllowed (char : Char) : Bool :=
  let code := char.toNat
  char == '\t' || char == '\n' || char == '\r' || (0x20 ≤ code && code ≤ 0x7E) || code == 0x85 ||
    (0xA0 ≤ code && code ≤ 0xFFFD) || 0x10000 ≤ code

/-- Writes the line breaks that are control characters, a carriage return with a line feed among
them, as line feeds. -/
def unifyBreaks : List Char → List Char
  | [] => []
  | '\r' :: '\n' :: rest => '\n' :: unifyBreaks rest
  | char :: rest => (if char == '\r' || char.toNat == 0x85 then '\n' else char) :: unifyBreaks rest

/-- Whether a character separates words on a line. -/
def isGap (char : Char) : Bool := char == ' ' || char == '\t'

/-- Whether a character ends a line: a line feed, or one of the two separators of Unicode. -/
def isBreak (char : Char) : Bool := char == '\n' || char.toNat == 0x2028 || char.toNat == 0x2029

/-- The mark of the byte order, which may stand in front of a line. -/
def byteOrderMark : Char := Char.ofNat 0xFEFF

/-- Whether a word ends in front of these characters. -/
def endsWord : List Char → Bool
  | [] => true
  | char :: _ => isGap char || isBreak char

/-- A place in a text. -/
structure Place where
  /-- The number of lines before. -/
  line : Nat
  /-- The number of characters before on the line. -/
  column : Nat
  /-- The number of bytes before on the line. -/
  width : Nat

namespace Place

/-- The start of a text. -/
def start : Place := ⟨0, 0, 0⟩

/-- The place behind a number of ASCII characters. -/
def skip (place : Place) (count : Nat) : Place := ⟨place.line, place.column + count, place.width + count⟩

/-- The place behind a character. -/
def pass (place : Place) (char : Char) : Place :=
  if isBreak char then ⟨place.line + 1, 0, 0⟩
  else ⟨place.line, place.column + 1, place.width + char.utf8Size⟩

end Place

/-- Whether a mark that opens or closes a document stands here: three dashes or dots at the start of
a line, as a word of their own. -/
def isDocumentMark (place : Place) : List Char → Bool
  | a :: b :: c :: rest =>
    place.column == 0 && (a == '-' || a == '.') && b == a && c == a && endsWord rest
  | _ => false

end YulAbi.Document.Block
