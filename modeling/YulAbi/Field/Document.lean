import YulAbi.Field.Access
import YulAbi.Value.Document

/-!
# Access trees as documents

An access tree can be given as a document: the word and the value by these names, a
literal as hexadecimal text, and any other node as a record whose only field is
named for the node.
-/

namespace YulAbi

open Document

/-- The sources of a word by name. -/
def WordSource.ofDocument? (document : Document) : Option WordSource :=
  document.readChoice? ([WordSource.stack, .memory, .storage].map fun source => (source.keyword, source))

namespace AccessExpr

/-- Reads a tree nested at most `fuel` levels deep. -/
def readWithin? (fuel : Nat) (document : Document) : Option AccessExpr :=
  match fuel, document with
  | 0, _ => none
  | _ + 1, .text "word" => some .word
  | _ + 1, .text "value" => some .value
  | _ + 1, .text digits => (Word.ofText? digits).map .literal
  | fuel + 1, .record [(kind, content)] =>
    match kind, content with
    | "load", distance => (readInteger? distance).map .load
    | "not", tree => (readWithin? fuel tree).map .not
    | "shl", .list _ [bits, tree] => do return .shl (← readCount? bits) (← readWithin? fuel tree)
    | "shr", .list _ [bits, tree] => do return .shr (← readCount? bits) (← readWithin? fuel tree)
    | "byte", .list _ [index, tree] => do return .byte (← readCount? index) (← readWithin? fuel tree)
    | "and", .list _ [left, right] => do return .and (← readWithin? fuel left) (← readWithin? fuel right)
    | "or", .list _ [left, right] => do return .or (← readWithin? fuel left) (← readWithin? fuel right)
    | _, _ => none
  | _ + 1, _ => none

/-- Reads a tree. -/
def ofDocument? (document : Document) : Option AccessExpr := readWithin? document.depth.succ document

end AccessExpr

/-- Reads how a field is written. -/
def WriteForm.ofDocument? : Document → Option WriteForm
  | .record [("word", tree)] => (AccessExpr.ofDocument? tree).map .word
  | .record [("store8", .list _ [distance, tree])] => do
    return .store8 (← readInteger? distance) (← AccessExpr.ofDocument? tree)
  | .record [("window", .list _ [distance, tree])] => do
    return .window (← readInteger? distance) (← AccessExpr.ofDocument? tree)
  | _ => none

/-- Reads a cost: the price of a literal, or gas and bytes. -/
def Cost.ofDocument? : Document → Option Cost
  | .list _ [gas, bytes] => do return ⟨← readCount? gas, ← readCount? bytes⟩
  | document => (Word.ofDocument? document).map push

end YulAbi
