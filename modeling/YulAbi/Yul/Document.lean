import YulAbi.Description.Document
import YulAbi.Value.Document
import YulAbi.Yul.Build
import YulAbi.Yul.Routine

/-!
# Code as documents

Code can be given as a document. In expressions text that starts with `0x` and
numbers are literals and other text is a variable; a record names a constant, a
routine, an instruction or an operation that is folded where it is built. A
statement is a record of its parts, one of which tells what it is.
-/

namespace YulAbi.Yul

open Document

/-- Operations of two operands that are folded or written as they are. -/
def binaryOperations : List (String × (Expr → Expr → Expr)) :=
  [("add", .add), ("sub", .sub), ("mul", .mul), ("shl", .shl), ("shr", .shr), ("and", .and),
    ("or", .or), ("lt", .lt), ("gt", .gt), ("eq", .eq), ("signextend", .signextend)]

/-- Operations of one operand. -/
def unaryOperations : List (String × (Expr → Expr)) :=
  [("not", .not), ("iszero", .iszero), ("mload", .mload), ("calldataload", .calldataload),
    ("sload", .sload)]

/-- Builds an operation by its name. -/
def operation? (name : String) : List Expr → Option Expr
  | [] => if name == "calldatasize" then some .calldatasize else none
  | [operand] => (unaryOperations.lookup name).map fun build => build operand
  | [left, right] => (binaryOperations.lookup name).map fun build => build left right
  | _ => none

namespace Expr

/-- Reads text as a literal or a variable. -/
def ofText? (text : String) : Option Expr :=
  if text.toList.take 2 == ['0', 'x'] then (Word.ofText? text).map .literal else some (.ident text)

/-- Builds a record of a kind, the name in it, and its operands. -/
def ofParts? (kind name : String) (args : List Expr) : Option Expr :=
  match kind with
  | "const" => some (.constant name)
  | "call" => some (.call name args)
  | "op" => (Builtin.ofName? name).map fun operation => .builtin operation args
  | "fold" => operation? name args
  | _ => none

/-- Reads an expression nested at most `fuel` levels deep. -/
def readWithin? (fuel : Nat) (document : Document) : Option Expr :=
  match fuel, document with
  | 0, _ => none
  | _ + 1, .text leaf => ofText? leaf
  | _ + 1, .integer (.ofNat value) => some (.number value)
  | fuel + 1, node => do
    let kind ← ["const", "call", "op", "fold"].find? fun kind => (node.field? kind).isSome
    let name ← required? readText? (node.field? kind)
    ofParts? kind name (← defaulted? [] (readList? (readWithin? fuel)) (node.field? "args"))

/-- Reads an expression. -/
def ofDocument? (document : Document) : Option Expr := readWithin? document.depth.succ document

end Expr

namespace Stmt

/-- Reads several names. -/
def readNames? (field : Option Document) : Option (List String) :=
  required? (readList? readText?) field

mutual
/-- Reads a statement nested at most `fuel` levels deep. -/
def readWithin? (fuel : Nat) (document : Document) : Option Stmt :=
  match fuel, document with
  | 0, _ => none
  | _ + 1, .text "leave" => some .leave
  | _ + 1, .text "revert" => some .revertEmpty
  | fuel + 1, node => do
    let kind ← ["let", "assign", "expr", "if", "count", "for"].find? fun kind => (node.field? kind).isSome
    readKind? fuel kind node
/-- Reads a statement of a known kind. -/
def readKind? (fuel : Nat) (kind : String) (node : Document) : Option Stmt := do
  let block := fun name : String => defaulted? [] (readList? (readWithin? fuel)) (node.field? name)
  let expr := fun name : String => required? Expr.ofDocument? (node.field? name)
  match kind with
  | "let" =>
    return .declare (← readNames? (node.field? "let"))
      (← defaulted? none (fun value => (Expr.ofDocument? value).map some) (node.field? "value"))
  | "assign" => return .assign (← readNames? (node.field? "assign")) (← expr "value")
  | "expr" => return .eval (← expr "expr")
  | "if" => return .branch (← expr "if") (← block "body")
  | "count" =>
    return .count (← required? readText? (node.field? "count")) (← expr "len") (← block "body")
  | _ => return .loop (← block "init") (← expr "for") (← block "post") (← block "body")
end

/-- Reads a block. -/
def blockOfDocument? (document : Document) : Option Block :=
  document.readList? (readWithin? document.depth)

end Stmt

/-- Reads a parameter: a name, or a name and a type. -/
def RoutineParameter.ofDocument? : Document → Option RoutineParameter
  | .text name => some (.word name)
  | .list _ [.text name, .text type] => some ⟨name, type⟩
  | _ => none

/-- Reads a routine; without further notice it is a pure Yul function. -/
def Routine.ofDocument? (document : Document) : Option Routine := do
  let params := fun name : String =>
    required? (readList? RoutineParameter.ofDocument?) (document.field? name)
  return ⟨← required? readText? (document.field? "name"),
    ← defaulted? .yul (readChoice? [("yul", .yul), ("solidity", .solidity)]) (document.field? "kind"),
    ← params "params", ← params "returns",
    ← defaulted? .pure Mutability.ofDocument? (document.field? "mutability"),
    ← defaulted? [] Stmt.blockOfDocument? (document.field? "body")⟩

end YulAbi.Yul
