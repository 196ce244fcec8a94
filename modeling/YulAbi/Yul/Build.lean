import YulAbi.Yul.Syntax

/-!
# Building code

Short names for the expressions and statements that generated routines use. Sums,
differences, products and shifts are folded: operations that change nothing are
left out, and sums and products of literals are computed.
-/

namespace YulAbi.Yul

namespace Expr

/-- The literal of a number. -/
def number (value : Nat) : Expr := .literal (Word.ofNat value)

/-- Sum; zero is dropped and literals are added. -/
def add (left right : Expr) : Expr :=
  if right = .literal 0#256 then left
  else if left = .literal 0#256 then right
  else
    match left, right with
    | .literal x, .literal y => .literal (x + y)
    | _, _ => .builtin .add [left, right]

/-- Difference; zero is dropped. -/
def sub (left right : Expr) : Expr :=
  if right = .literal 0#256 then left else .builtin .sub [left, right]

/-- Product; one is dropped and literals are multiplied. -/
def mul (left right : Expr) : Expr :=
  if right = .literal 1#256 then left
  else if left = .literal 1#256 then right
  else
    match left, right with
    | .literal x, .literal y => .literal (x * y)
    | _, _ => .builtin .mul [left, right]

/-- Left shift; a shift by zero is dropped. -/
def shl (bits value : Expr) : Expr :=
  if bits = .literal 0#256 then value else .builtin .shl [bits, value]

/-- Right shift; a shift by zero is dropped. -/
def shr (bits value : Expr) : Expr :=
  if bits = .literal 0#256 then value else .builtin .shr [bits, value]

/-- Bitwise conjunction. -/
def and (left right : Expr) : Expr := .builtin .and [left, right]

/-- Bitwise disjunction. -/
def or (left right : Expr) : Expr := .builtin .or [left, right]

/-- Bitwise complement. -/
def not (value : Expr) : Expr := .builtin .not [value]

/-- Whether the left value is below the right one. -/
def lt (left right : Expr) : Expr := .builtin .lt [left, right]

/-- Whether the left value is above the right one. -/
def gt (left right : Expr) : Expr := .builtin .gt [left, right]

/-- Whether two values are equal. -/
def eq (left right : Expr) : Expr := .builtin .eq [left, right]

/-- Whether a value is zero. -/
def iszero (value : Expr) : Expr := .builtin .iszero [value]

/-- Sign extension from the lowest `bytes + 1` bytes. -/
def signextend (bytes value : Expr) : Expr := .builtin .signextend [bytes, value]

/-- Word of memory. -/
def mload (pointer : Expr) : Expr := .builtin .mload [pointer]

/-- Size of call data. -/
def calldatasize : Expr := .builtin .calldatasize []

/-- Word of call data. -/
def calldataload (pointer : Expr) : Expr := .builtin .calldataload [pointer]

/-- Word of storage. -/
def sload (slot : Expr) : Expr := .builtin .sload [slot]

end Expr

namespace Stmt

/-- Declares one variable with a value. -/
def declareAs (name : String) (value : Expr) : Stmt := .declare [name] (some value)

/-- Assigns to one variable. -/
def assignTo (name : String) (value : Expr) : Stmt := .assign [name] value

/-- Stores a word in memory. -/
def mstore (pointer value : Expr) : Stmt := .eval (.builtin .mstore [pointer, value])

/-- Stores one byte in memory. -/
def mstore8 (pointer value : Expr) : Stmt := .eval (.builtin .mstore8 [pointer, value])

/-- Stores a word in storage. -/
def sstore (slot value : Expr) : Stmt := .eval (.builtin .sstore [slot, value])

/-- Copies within memory. -/
def mcopy (target source length : Expr) : Stmt := .eval (.builtin .mcopy [target, source, length])

/-- Copies call data to memory. -/
def calldatacopy (target source length : Expr) : Stmt :=
  .eval (.builtin .calldatacopy [target, source, length])

/-- Reverts without data. -/
def revertEmpty : Stmt := .eval (.builtin .revert [.number 0, .number 0])

/-- Runs the body for every value of a counter from zero up to, not including, a length. -/
def count (counter : String) (length : Expr) (body : Block) : Stmt :=
  .loop [declareAs counter (.number 0)] (.lt (.ident counter) length)
    [assignTo counter (.add (.ident counter) (.number 1))] body

end Stmt

end YulAbi.Yul
