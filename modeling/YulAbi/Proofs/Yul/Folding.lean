import YulAbi.Yul.Build
import YulAbi.Yul.Interpreter

/-!
# Folding keeps evaluation

Sums, differences, products and shifts are folded while code is built: an operand that changes
nothing is left out, and sums and products of literals are computed. Where a single value is
expected, nothing tells the folded expression from the instruction it stands for, whatever its
operands do. They may call routines that change the machine, take steps, fail, or have no value
or several. An operand without a single value is refused under its own text either way, because
the instruction looks at its operands one by one and the folded expression is one of them.
-/

namespace YulAbi.Yul

/-- Whether an instruction computes a word from two words and does nothing else. -/
structure Builtin.Computes (operation : Builtin) (result : Word → Word → Word) : Prop where
  /-- It has two operands. -/
  arity : operation.arity = 2
  /-- Its effect is to answer. -/
  applied : ∀ x y, operation.apply [x, y] = pure [result x y]

/-- Whether one expression may replace another one where a single value is expected. -/
structure Expr.Replaces (unit : CodeUnit) (caller : Caller) (expr plain : Expr) : Prop where
  /-- As a condition: the value or the fault is the same, and so are the machine, the variables and the steps left. -/
  value : ∀ state, (evalOne unit caller expr).run state = (evalOne unit caller plain).run state
  /-- As the value of one variable that is declared or assigned. -/
  single : ∀ state, (evalExactly unit caller expr 1).run state = (evalExactly unit caller plain 1).run state
  /-- As an argument among others. -/
  argument : ∀ before after state, (evalArgs unit caller (before ++ expr :: after)).run state =
    (evalArgs unit caller (before ++ plain :: after)).run state

section

variable {unit : CodeUnit} {caller : Caller} {operation : Builtin} {result : Word → Word → Word}
  {left right : Expr} {neutral : Word}

/-- A literal is its value. -/
theorem evalOne_literal (value : Word) : evalOne unit caller (.literal value) = pure value := by
  simp [evalOne, evalMany, singleValue]

/-- A single value is the only one of a list of one. -/
theorem evalExactly_one (expr : Expr) :
    evalExactly unit caller expr 1 = (do
      let value ← evalOne unit caller expr
      return [value]) := by
  have same : ∀ values, requireValues expr 1 values = (do
      let value ← singleValue expr values
      return [value]) := by
    intro values
    cases values with
    | nil => rfl
    | cons value others =>
      cases others with
      | nil => rfl
      | cons other rest =>
        simp only [requireValues, singleValue, List.length_cons]
        rw [if_neg (by omega)]
        rfl
  simp [evalExactly, evalOne, same]

/-- Arguments are evaluated to single values, the last one first. -/
theorem evalArgs_cons (arg : Expr) (args : List Expr) : evalArgs unit caller (arg :: args) = (do
    let others ← evalArgs unit caller args
    let value ← evalOne unit caller arg
    return value :: others) := by
  simp [evalArgs, evalOne]

/-- Arguments are evaluated alike if they differ in one that is. -/
theorem evalArgs_congr {expr plain : Expr} (same : evalOne unit caller expr = evalOne unit caller plain)
    (before after : List Expr) : evalArgs unit caller (before ++ expr :: after) =
      evalArgs unit caller (before ++ plain :: after) := by
  induction before with
  | nil => rw [List.nil_append, List.nil_append, evalArgs_cons, evalArgs_cons, same]
  | cons first rest ih => rw [List.cons_append, List.cons_append, evalArgs_cons, evalArgs_cons, ih]

/-- Expressions that are evaluated alike may replace each other. -/
theorem Expr.Replaces.of_evalOne {expr plain : Expr} (same : evalOne unit caller expr = evalOne unit caller plain) :
    expr.Replaces unit caller plain := by
  refine ⟨fun state => ?_, fun state => ?_, fun before after state => ?_⟩
  · rw [same]
  · rw [evalExactly_one, evalExactly_one, same]
  · rw [evalArgs_congr same]

/-- An instruction that computes evaluates its second operand first. -/
theorem Builtin.Computes.evalOne (h : operation.Computes result) (left right : Expr) :
    evalOne unit caller (.builtin operation [left, right]) = (do
      let y ← evalOne unit caller right
      let x ← evalOne unit caller left
      return result x y) := by
  have none : evalArgs unit caller [] = pure [] := rfl
  have answer : ∀ x y, Run.onMachine (operation.apply [x, y]) = pure [result x y] := by
    intro x y
    rw [h.applied]
    rfl
  have operands : evalMany unit caller (.builtin operation [left, right]) = (do
      let values ← evalArgs unit caller [left, right]
      Run.onMachine (operation.apply values)) := by
    have two : [left, right].length = operation.arity := h.arity.symm
    rw [evalMany, if_pos two]
  rw [Yul.evalOne, operands, evalArgs_cons, evalArgs_cons, none]
  simp [answer, singleValue]

/-- A second operand that changes nothing may be left out. -/
theorem Builtin.Computes.evalOne_neutral_right (h : operation.Computes result)
    (same : ∀ x, result x neutral = x) (left : Expr) :
    Yul.evalOne unit caller (.builtin operation [left, .literal neutral]) = Yul.evalOne unit caller left := by
  rw [h.evalOne, evalOne_literal]
  simp [same]

/-- So may a first operand. -/
theorem Builtin.Computes.evalOne_neutral_left (h : operation.Computes result)
    (same : ∀ y, result neutral y = y) (right : Expr) :
    Yul.evalOne unit caller (.builtin operation [.literal neutral, right]) = Yul.evalOne unit caller right := by
  rw [h.evalOne, evalOne_literal]
  simp [same]

/-- What is computed from literals is a literal. -/
theorem Builtin.Computes.evalOne_literals (h : operation.Computes result) (x y : Word) :
    Yul.evalOne unit caller (.builtin operation [.literal x, .literal y]) =
      Yul.evalOne unit caller (.literal (result x y)) := by
  rw [h.evalOne, evalOne_literal, evalOne_literal, evalOne_literal]
  rfl

/-- A folded sum is evaluated like a sum. -/
theorem evalOne_add (left right : Expr) :
    evalOne unit caller (.add left right) = evalOne unit caller (.builtin .add [left, right]) := by
  have computes : Builtin.Computes .add (· + ·) := ⟨rfl, fun _ _ => rfl⟩
  unfold Expr.add
  split
  case isTrue zero => rw [zero, computes.evalOne_neutral_right BitVec.add_zero]
  case isFalse =>
    split
    case isTrue zero => rw [zero, computes.evalOne_neutral_left BitVec.zero_add]
    case isFalse =>
      split
      case h_1 x y _ _ => rw [computes.evalOne_literals]
      case h_2 => rfl

/-- A folded difference is evaluated like a difference. -/
theorem evalOne_sub (left right : Expr) :
    evalOne unit caller (.sub left right) = evalOne unit caller (.builtin .sub [left, right]) := by
  have computes : Builtin.Computes .sub (· - ·) := ⟨rfl, fun _ _ => rfl⟩
  unfold Expr.sub
  split
  case isTrue zero => rw [zero, computes.evalOne_neutral_right BitVec.sub_zero]
  case isFalse => rfl

/-- A folded product is evaluated like a product. -/
theorem evalOne_mul (left right : Expr) :
    evalOne unit caller (.mul left right) = evalOne unit caller (.builtin .mul [left, right]) := by
  have computes : Builtin.Computes .mul (· * ·) := ⟨rfl, fun _ _ => rfl⟩
  unfold Expr.mul
  split
  case isTrue one => rw [one, computes.evalOne_neutral_right BitVec.mul_one]
  case isFalse =>
    split
    case isTrue one => rw [one, computes.evalOne_neutral_left BitVec.one_mul]
    case isFalse =>
      split
      case h_1 x y _ _ => rw [computes.evalOne_literals]
      case h_2 => rfl

/-- A folded left shift is evaluated like a left shift. -/
theorem evalOne_shl (bits value : Expr) :
    evalOne unit caller (.shl bits value) = evalOne unit caller (.builtin .shl [bits, value]) := by
  have computes : Builtin.Computes .shl Word.shiftLeft := ⟨rfl, fun _ _ => rfl⟩
  unfold Expr.shl
  split
  case isTrue zero => rw [zero, computes.evalOne_neutral_left BitVec.shiftLeft_zero]
  case isFalse => rfl

/-- A folded right shift is evaluated like a right shift. -/
theorem evalOne_shr (bits value : Expr) :
    evalOne unit caller (.shr bits value) = evalOne unit caller (.builtin .shr [bits, value]) := by
  have computes : Builtin.Computes .shr Word.shiftRight := ⟨rfl, fun _ _ => rfl⟩
  unfold Expr.shr
  split
  case isTrue zero => rw [zero, computes.evalOne_neutral_left BitVec.ushiftRight_zero]
  case isFalse => rfl

end

/-- Whatever unit the code belongs to, whatever calls do and whatever the operands are, folded sums, differences,
products and shifts may replace the instructions they stand for. -/
theorem folding_keeps_evaluation (unit : CodeUnit) (caller : Caller) (left right : Expr) :
    (Expr.add left right).Replaces unit caller (.builtin .add [left, right]) ∧
      (Expr.sub left right).Replaces unit caller (.builtin .sub [left, right]) ∧
      (Expr.mul left right).Replaces unit caller (.builtin .mul [left, right]) ∧
      (Expr.shl left right).Replaces unit caller (.builtin .shl [left, right]) ∧
      (Expr.shr left right).Replaces unit caller (.builtin .shr [left, right]) :=
  ⟨.of_evalOne (evalOne_add left right), .of_evalOne (evalOne_sub left right), .of_evalOne (evalOne_mul left right),
    .of_evalOne (evalOne_shl left right), .of_evalOne (evalOne_shr left right)⟩

/-- Of a call and zero only the call is left. -/
example : Expr.add (.call "next" []) (.number 0) = .call "next" [] := by decide

end YulAbi.Yul
