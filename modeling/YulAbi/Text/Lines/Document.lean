import YulAbi.Document.Read
import YulAbi.Text.Lines

/-!
# Lines as documents

A line is text, an empty line may be written as the absent value, and a block is a
sequence. A record whose only field is `append` puts its lines at the level at which
it stands.
-/

namespace YulAbi

mutual
/-- Writes a line or a block. -/
def Line.toDocument : Line → Document
  | .text content => .text content
  | .nested lines => .array (Lines.documents lines)
/-- Writes each line. -/
def Lines.documents : Lines → List Document
  | [] => []
  | line :: rest => line.toDocument :: Lines.documents rest
end

namespace Lines

/-- Writes lines. -/
def toDocument (lines : Lines) : Document := .array (documents lines)

mutual
/-- Reads lines nested at most `fuel` levels deep. -/
def readWithin? (fuel : Nat) (document : Document) : Option Lines :=
  match fuel with
  | 0 => none
  | fuel + 1 => (document.readList? (readPart? fuel)).map List.flatten
/-- Reads one part of a sequence. -/
def readPart? (fuel : Nat) (document : Document) : Option Lines :=
  match document with
  | .text content => some [.text content]
  | .null => some [blank]
  | .record [("append", lines)] => readWithin? fuel lines
  | part => (readWithin? fuel part).map fun lines => [.nested lines]
end

/-- Reads lines. -/
def ofDocument? (document : Document) : Option Lines := readWithin? document.depth document

end Lines

end YulAbi
