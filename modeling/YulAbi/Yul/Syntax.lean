import YulAbi.Word

/-!
# Syntax of generated code

The part of Yul that routines are made of: expressions over words and blocks of
statements. Code is built as a tree and can be run or rendered from it. Trees are
compared structurally, which is how two routines of one name are told apart.
-/

namespace YulAbi.Yul

/-- An instruction of the machine. -/
inductive Builtin where
  /-- Sum. -/
  | add
  /-- Difference. -/
  | sub
  /-- Product. -/
  | mul
  /-- Quotient, zero for a zero divisor. -/
  | div
  /-- Left shift, the amount first. -/
  | shl
  /-- Right shift, the amount first. -/
  | shr
  /-- Bitwise conjunction. -/
  | and
  /-- Bitwise disjunction. -/
  | or
  /-- Bitwise exclusive disjunction. -/
  | xor
  /-- Bitwise complement. -/
  | not
  /-- Whether the first operand is below the second. -/
  | lt
  /-- Whether the first operand is above the second. -/
  | gt
  /-- Whether two operands are equal. -/
  | eq
  /-- Whether the operand is zero. -/
  | iszero
  /-- One byte of a word, counted from the most significant end. -/
  | byte
  /-- Sign extension from a number of bytes less one. -/
  | signextend
  /-- Word of memory. -/
  | mload
  /-- Stores a word in memory. -/
  | mstore
  /-- Stores the lowest byte of a word in memory. -/
  | mstore8
  /-- Copies within memory. -/
  | mcopy
  /-- Word of call data. -/
  | calldataload
  /-- Copies call data to memory. -/
  | calldatacopy
  /-- Size of call data. -/
  | calldatasize
  /-- Word of storage. -/
  | sload
  /-- Stores a word in storage. -/
  | sstore
  /-- Ends the run and hands out memory. -/
  | revert
  /-- Drops a value. -/
  | pop
  deriving DecidableEq, Repr

namespace Builtin

/-- All instructions with their names. -/
def table : List (Builtin × String) :=
  [(.add, "add"), (.sub, "sub"), (.mul, "mul"), (.div, "div"), (.shl, "shl"), (.shr, "shr"),
   (.and, "and"), (.or, "or"), (.xor, "xor"), (.not, "not"), (.lt, "lt"), (.gt, "gt"), (.eq, "eq"),
   (.iszero, "iszero"), (.byte, "byte"), (.signextend, "signextend"), (.mload, "mload"),
   (.mstore, "mstore"), (.mstore8, "mstore8"), (.mcopy, "mcopy"), (.calldataload, "calldataload"),
   (.calldatacopy, "calldatacopy"), (.calldatasize, "calldatasize"), (.sload, "sload"),
   (.sstore, "sstore"), (.revert, "revert"), (.pop, "pop")]

/-- The name of an instruction. -/
def name : Builtin → String
  | .add => "add"
  | .sub => "sub"
  | .mul => "mul"
  | .div => "div"
  | .shl => "shl"
  | .shr => "shr"
  | .and => "and"
  | .or => "or"
  | .xor => "xor"
  | .not => "not"
  | .lt => "lt"
  | .gt => "gt"
  | .eq => "eq"
  | .iszero => "iszero"
  | .byte => "byte"
  | .signextend => "signextend"
  | .mload => "mload"
  | .mstore => "mstore"
  | .mstore8 => "mstore8"
  | .mcopy => "mcopy"
  | .calldataload => "calldataload"
  | .calldatacopy => "calldatacopy"
  | .calldatasize => "calldatasize"
  | .sload => "sload"
  | .sstore => "sstore"
  | .revert => "revert"
  | .pop => "pop"

/-- The instruction of a name. -/
def ofName? (name : String) : Option Builtin :=
  (table.find? fun entry => entry.2 == name).map Prod.fst

/-- The number of operands. -/
def arity : Builtin → Nat
  | .calldatasize => 0
  | .not | .iszero | .mload | .calldataload | .sload | .pop => 1
  | .mcopy | .calldatacopy => 3
  | _ => 2

/-- Whether the instruction gives a value. -/
def returnsValue : Builtin → Bool
  | .mstore | .mstore8 | .mcopy | .calldatacopy | .sstore | .revert | .pop => false
  | _ => true

/-- Every instruction is found under its name. -/
theorem ofName?_name (builtin : Builtin) : ofName? builtin.name = some builtin := by
  cases builtin <;> decide

end Builtin

/-- An expression. -/
inductive Expr where
  /-- A word. -/
  | literal (value : Word)
  /-- A variable. -/
  | ident (name : String)
  /-- A named constant. -/
  | constant (name : String)
  /-- An instruction applied to operands. -/
  | builtin (operation : Builtin) (args : List Expr)
  /-- A call of another routine. -/
  | call (name : String) (args : List Expr)

/-- A statement. -/
inductive Stmt where
  /-- Declares variables; without a value they are zero. -/
  | declare (names : List String) (value : Option Expr)
  /-- Assigns to variables. -/
  | assign (names : List String) (value : Expr)
  /-- Evaluates an expression for its effects. -/
  | eval (expr : Expr)
  /-- Runs the body if the condition is not zero. -/
  | branch (condition : Expr) (body : List Stmt)
  /-- Runs the body and then the step for as long as the condition is not zero. -/
  | loop (start : List Stmt) (condition : Expr) (step body : List Stmt)
  /-- Ends the routine. -/
  | leave

/-- A sequence of statements with a scope of its own. -/
abbrev Block := List Stmt

namespace Expr

mutual
/-- Structural comparison. -/
def same : Expr → Expr → Bool
  | .literal value, .literal value' => value == value'
  | .ident name, .ident name' => name == name'
  | .constant name, .constant name' => name == name'
  | .builtin operation args, .builtin operation' args' => operation == operation' && sameAll args args'
  | .call name args, .call name' args' => name == name' && sameAll args args'
  | _, _ => false
/-- Structural comparison of lists of expressions. -/
def sameAll : List Expr → List Expr → Bool
  | [], [] => true
  | expr :: rest, expr' :: rest' => expr.same expr' && sameAll rest rest'
  | _, _ => false
end

mutual
/-- Expressions that compare alike are equal. -/
theorem eq_of_same {left right : Expr} (h : left.same right = true) : left = right := by
  cases left <;> cases right <;> simp_all [same]
  · exact eq_of_sameAll h.2
  · exact eq_of_sameAll h.2
/-- Lists of expressions that compare alike are equal. -/
theorem eq_of_sameAll {left right : List Expr} (h : sameAll left right = true) : left = right := by
  cases left <;> cases right <;> simp_all [sameAll]
  exact ⟨eq_of_same h.1, eq_of_sameAll h.2⟩
end

mutual
/-- An expression compares like itself. -/
theorem same_self (expr : Expr) : expr.same expr = true := by
  cases expr <;> simp [same]
  · exact sameAll_self _
  · exact sameAll_self _
/-- A list of expressions compares like itself. -/
theorem sameAll_self (exprs : List Expr) : sameAll exprs exprs = true := by
  cases exprs <;> simp [sameAll]
  exact ⟨same_self _, sameAll_self _⟩
end

/-- Structural comparison decides equality. -/
instance : DecidableEq Expr := fun left right =>
  decidable_of_iff (left.same right = true) ⟨eq_of_same, fun h => h ▸ same_self left⟩

/-- The word of a literal. -/
def literal? : Expr → Option Word
  | .literal value => some value
  | _ => none

end Expr

namespace Stmt

mutual
/-- Structural comparison. -/
def same : Stmt → Stmt → Bool
  | .declare names value, .declare names' value' => names == names' && value == value'
  | .assign names value, .assign names' value' => names == names' && value == value'
  | .eval expr, .eval expr' => expr == expr'
  | .branch condition body, .branch condition' body' => condition == condition' && sameAll body body'
  | .loop start condition step body, .loop start' condition' step' body' =>
    condition == condition' && sameAll start start' && sameAll step step' && sameAll body body'
  | .leave, .leave => true
  | _, _ => false
/-- Structural comparison of blocks. -/
def sameAll : List Stmt → List Stmt → Bool
  | [], [] => true
  | stmt :: rest, stmt' :: rest' => stmt.same stmt' && sameAll rest rest'
  | _, _ => false
end

mutual
/-- Statements that compare alike are equal. -/
theorem eq_of_same {left right : Stmt} (h : left.same right = true) : left = right := by
  cases left <;> cases right <;> simp_all [same]
  · exact eq_of_sameAll h.2
  · exact ⟨eq_of_sameAll h.1.1.2, eq_of_sameAll h.1.2, eq_of_sameAll h.2⟩
/-- Blocks that compare alike are equal. -/
theorem eq_of_sameAll {left right : List Stmt} (h : sameAll left right = true) : left = right := by
  cases left <;> cases right <;> simp_all [sameAll]
  exact ⟨eq_of_same h.1, eq_of_sameAll h.2⟩
end

mutual
/-- A statement compares like itself. -/
theorem same_self (stmt : Stmt) : stmt.same stmt = true := by
  cases stmt <;> simp [same]
  · exact sameAll_self _
  · exact ⟨⟨sameAll_self _, sameAll_self _⟩, sameAll_self _⟩
/-- A block compares like itself. -/
theorem sameAll_self (stmts : List Stmt) : sameAll stmts stmts = true := by
  cases stmts <;> simp [sameAll]
  exact ⟨same_self _, sameAll_self _⟩
end

/-- Structural comparison decides equality. -/
instance : DecidableEq Stmt := fun left right =>
  decidable_of_iff (left.same right = true) ⟨eq_of_same, fun h => h ▸ same_self left⟩

end Stmt

end YulAbi.Yul
