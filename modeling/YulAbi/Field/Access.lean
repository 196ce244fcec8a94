import YulAbi.Field
import YulAbi.Field.Cost
import YulAbi.Yul.Build

/-!
# Access trees

An access tree tells how a field is read or how its word is rebuilt. It can be
priced, evaluated on a window of memory, and lowered to code. A window is the word
that holds the field together with the words before and behind it.
-/

namespace YulAbi

open Yul (Expr Stmt)

/-- Three words of memory as bytes; the word that holds the field is the middle one. -/
abbrev Window := List UInt8

namespace Window

/-- The word that starts a number of bytes behind the middle word. -/
def load (window : Window) (offset : Int) : Word :=
  Word.ofBytes ((window.drop (32 + offset).toNat).take 32)

/-- The window with other bytes from a position on. -/
def put (window : Window) (start : Nat) (bytes : List UInt8) : Window :=
  window.take start ++ bytes ++ window.drop (start + bytes.length)

/-- The window with another word that starts a number of bytes behind the middle word. -/
def store (window : Window) (offset : Int) (word : Word) : Window :=
  window.put (32 + offset).toNat (Word.toBytes word)

end Window

/-- An expression over the word that holds a field and the value that is written. -/
inductive AccessExpr where
  /-- The word that holds the field. -/
  | word
  /-- The value that is written. -/
  | value
  /-- The word of memory a number of bytes behind the word. -/
  | load (offset : Int)
  /-- A literal. -/
  | literal (value : Word)
  /-- Left shift. -/
  | shl (bits : Nat) (expr : AccessExpr)
  /-- Right shift. -/
  | shr (bits : Nat) (expr : AccessExpr)
  /-- Bitwise conjunction. -/
  | and (left right : AccessExpr)
  /-- Bitwise disjunction. -/
  | or (left right : AccessExpr)
  /-- Bitwise complement. -/
  | not (expr : AccessExpr)
  /-- One byte, counted from the most significant end. -/
  | byte (index : Nat) (expr : AccessExpr)
  deriving DecidableEq, Repr

/-- How a field is written. -/
inductive WriteForm where
  /-- The whole word is replaced. -/
  | word (expr : AccessExpr)
  /-- One byte of memory is replaced. -/
  | store8 (offset : Int) (expr : AccessExpr)
  /-- The word of memory a number of bytes behind the word is replaced. -/
  | window (offset : Int) (expr : AccessExpr)
  deriving DecidableEq, Repr

/-- The cost of an address a number of bytes behind a pointer. -/
def Cost.pointer (offset : Int) : Cost :=
  if offset = 0 then operation else operation + pushNat offset.natAbs + operation

/-- The address a number of bytes behind a pointer. -/
def displaced (pointer : Expr) (offset : Int) : Expr :=
  match offset with
  | .ofNat 0 => pointer
  | .ofNat bytes => .add pointer (.number bytes)
  | .negSucc bytes => .sub pointer (.number (bytes + 1))

namespace AccessExpr

/-- The cost of evaluating an expression. -/
def cost (source : WordSource) : AccessExpr → Cost
  | .word =>
    match source with
    | .stack => .operation
    | .memory => .operation + .operation
    | .storage => .operation + .storageRead
  | .value => .operation
  | .load offset => .pointer offset + .operation
  | .literal number => .push number
  | .shl bits expr => .pushNat bits + .operation + cost source expr
  | .shr bits expr => .pushNat bits + .operation + cost source expr
  | .byte index expr => .pushNat index + .operation + cost source expr
  | .and left right => .operation + cost source left + cost source right
  | .or left right => .operation + cost source left + cost source right
  | .not expr => .operation + cost source expr

/-- The value of an expression. -/
def evaluate (window : Window) (value : Word) : AccessExpr → Word
  | .word => window.load 0
  | .value => value
  | .load offset => window.load offset
  | .literal number => number
  | .shl bits expr => if bits < wordBits then evaluate window value expr <<< bits else 0#256
  | .shr bits expr => if bits < wordBits then evaluate window value expr >>> bits else 0#256
  | .and left right => evaluate window value left &&& evaluate window value right
  | .or left right => evaluate window value left ||| evaluate window value right
  | .not expr => ~~~evaluate window value expr
  | .byte index expr => Word.ofNat (Word.byteAt (evaluate window value expr) index).toNat

/-- The code of an expression, given the word, its address and the value. -/
def toYul (word pointer value : Expr) : AccessExpr → Expr
  | .word => word
  | .value => value
  | .load offset => .mload (displaced pointer offset)
  | .literal number => .literal number
  | .shl bits expr => .shl (.number bits) (toYul word pointer value expr)
  | .shr bits expr => .shr (.number bits) (toYul word pointer value expr)
  | .and left right => .and (toYul word pointer value left) (toYul word pointer value right)
  | .or left right => .or (toYul word pointer value left) (toYul word pointer value right)
  | .not expr => .not (toYul word pointer value expr)
  | .byte index expr => .builtin .byte [.number index, toYul word pointer value expr]

end AccessExpr

namespace WriteForm

/-- The cost of a write. -/
def cost (source : WordSource) : WriteForm → Cost
  | .word expr =>
    expr.cost source +
      match source with
      | .stack => .zero
      | .memory => .operation + .operation
      | .storage => .operation + .storageWrite
  | .store8 offset expr => .pointer offset + .operation + expr.cost source
  | .window offset expr => .pointer offset + .operation + expr.cost source

/-- The window after a write. -/
def apply (window : Window) (value : Word) : WriteForm → Window
  | .word expr => window.store 0 (expr.evaluate window value)
  | .store8 offset expr =>
    window.put (32 + offset).toNat [Word.byteAt (expr.evaluate window value) 31]
  | .window offset expr => window.store offset (expr.evaluate window value)

/-- The code of a write. A word on the stack is assigned to its variable; one that is no variable
is dropped. -/
def toYul (source : WordSource) (word pointer value : Expr) : WriteForm → Stmt
  | .word expr =>
    let newWord := expr.toYul word pointer value
    match source, word with
    | .memory, _ => .mstore pointer newWord
    | .storage, _ => .sstore pointer newWord
    | .stack, .ident name => .assignTo name newWord
    | .stack, _ => .eval (.builtin .pop [newWord])
  | .store8 offset expr => .mstore8 (displaced pointer offset) (expr.toYul word pointer value)
  | .window offset expr => .mstore (displaced pointer offset) (expr.toYul word pointer value)

end WriteForm

end YulAbi
