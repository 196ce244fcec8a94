import YulAbi.CodeUnit
import YulAbi.Yul.Build

/-!
# Closed and well-scoped code

Whether code may be run in a unit without ever missing anything: every variable is
declared in a scope that is still open, every constant and every routine is in the unit,
and operands and results are as many as instructions and routines take and give. This is
a matter of the text alone. Reverts must hand out nothing.

A block is checked with the names that are visible where it begins; each statement adds
the names that it declares. From a routine of a unit in which everything is scoped, calls
lead to routines of the unit only.
-/

namespace YulAbi

namespace Yul

/-- The number of values that an instruction gives. -/
def Builtin.valueCount (operation : Builtin) : Nat := if operation.returnsValue then 1 else 0

mutual
/-- Whether an expression finds everything that it needs and gives a number of values. -/
@[simp]
def Expr.Scoped (unit : CodeUnit) (visible : List String) : Expr → Nat → Prop
  | .literal _, count => count = 1
  | .ident name, count => name ∈ visible ∧ count = 1
  | .constant name, count => (∃ value, unit.constant? name = some value) ∧ count = 1
  | .builtin operation args, count =>
    args.length = operation.arity ∧ Expr.ArgsScoped unit visible args ∧
      (operation = .revert → args = [.literal 0#256, .literal 0#256]) ∧ count = operation.valueCount
  | .call name args, count =>
    (∃ routine, unit.routine? name = some routine ∧ routine.params.length = args.length ∧
      routine.returns.length = count) ∧ Expr.ArgsScoped unit visible args
/-- Whether arguments find everything that they need and give one value each. -/
@[simp]
def Expr.ArgsScoped (unit : CodeUnit) (visible : List String) : List Expr → Prop
  | [] => True
  | arg :: rest => arg.Scoped unit visible 1 ∧ Expr.ArgsScoped unit visible rest
end

/-- The names that a statement declares for the statements behind it. -/
def Stmt.declared : Stmt → List String
  | .declare names _ => names
  | _ => []

/-- The names that a block declares, the latest first. -/
@[simp]
def Block.declared : List Stmt → List String
  | [] => []
  | stmt :: rest => Block.declared rest ++ stmt.declared

mutual
/-- Whether a statement finds everything that it needs. -/
@[simp]
def Stmt.Scoped (unit : CodeUnit) (visible : List String) : Stmt → Prop
  | .declare _ none => True
  | .declare names (some value) => value.Scoped unit visible names.length
  | .assign names value => value.Scoped unit visible names.length ∧ ∀ name ∈ names, name ∈ visible
  | .eval expr => ∃ count, expr.Scoped unit visible count
  | .branch condition body => condition.Scoped unit visible 1 ∧ Block.Scoped unit visible body
  | .loop start condition step body =>
    Block.Scoped unit visible start ∧
      condition.Scoped unit (Block.declared start ++ visible) 1 ∧
      Block.Scoped unit (Block.declared start ++ visible) step ∧
      Block.Scoped unit (Block.declared start ++ visible) body
  | .leave => True
/-- Whether the statements of a block find everything that they need. -/
@[simp]
def Block.Scoped (unit : CodeUnit) (visible : List String) : List Stmt → Prop
  | [] => True
  | stmt :: rest => stmt.Scoped unit visible ∧ Block.Scoped unit (stmt.declared ++ visible) rest
end

/-- Whether the body of a routine finds everything that it needs. -/
def Routine.Scoped (unit : CodeUnit) (routine : Routine) : Prop :=
  Block.Scoped unit
    (routine.returns.map RoutineParameter.name ++ routine.params.map RoutineParameter.name) routine.body

end Yul

/-- Whether every routine of a unit finds everything that it needs. -/
def CodeUnit.Scoped (unit : CodeUnit) : Prop :=
  ∀ routine ∈ unit.routines, routine.Scoped unit

namespace Yul

section

variable {unit : CodeUnit} {visible : List String}

/-- Arguments are scoped if each of them is. -/
theorem Expr.argsScoped_iff (args : List Expr) :
    Expr.ArgsScoped unit visible args ↔ ∀ arg ∈ args, arg.Scoped unit visible 1 := by
  induction args with
  | nil => simp
  | cons arg rest ih => simp [ih]

/-- Blocks in a row are scoped if the second one is behind the first. -/
@[simp]
theorem Block.scoped_append (first second : List Stmt) (visible : List String) :
    Block.Scoped unit visible (first ++ second) ↔
      Block.Scoped unit visible first ∧ Block.Scoped unit (Block.declared first ++ visible) second := by
  induction first generalizing visible with
  | nil => simp
  | cons stmt rest ih => simp [ih, and_assoc]

/-- A routine over words is scoped if its body is. -/
@[simp]
theorem Routine.scoped_ofBody (name : String) (params returns : List String) (body : Block) :
    (Routine.ofBody name params returns body).Scoped unit ↔ Block.Scoped unit (returns ++ params) body := by
  have named : ∀ names : List String, (names.map RoutineParameter.word).map RoutineParameter.name = names := by
    intro names
    induction names with
    | nil => rfl
    | cons name rest ih => simpa [RoutineParameter.word] using ih
  simp only [Routine.Scoped, Routine.ofBody, named]

/-! ### Instructions -/

/-- An instruction with one operand that gives a value. -/
theorem Expr.scoped_unary {operation : Builtin} (arity : operation.arity = 1)
    (returns : operation.returnsValue = true) (arg : Expr) :
    (Expr.builtin operation [arg]).Scoped unit visible 1 ↔ arg.Scoped unit visible 1 := by
  have harmless : operation ≠ .revert := by
    rintro rfl
    cases arity
  simp [arity, returns, harmless, Builtin.valueCount]

/-- An instruction with two operands that gives a value. -/
theorem Expr.scoped_binary {operation : Builtin} (arity : operation.arity = 2)
    (returns : operation.returnsValue = true) (left right : Expr) :
    (Expr.builtin operation [left, right]).Scoped unit visible 1 ↔
      left.Scoped unit visible 1 ∧ right.Scoped unit visible 1 := by
  have harmless : operation ≠ .revert := by
    rintro rfl
    cases returns
  simp [arity, returns, harmless, Builtin.valueCount]

/-- A statement that is an instruction needs what its operands need. -/
theorem Stmt.scoped_evalBuiltin {operation : Builtin} {args : List Expr} (arity : args.length = operation.arity)
    (harmless : operation ≠ .revert) :
    (Stmt.eval (.builtin operation args)).Scoped unit visible ↔ Expr.ArgsScoped unit visible args := by
  simp [arity, harmless]

/-- A conjunction needs what its operands need. -/
@[simp]
theorem Expr.scoped_and (left right : Expr) :
    (Expr.and left right).Scoped unit visible 1 ↔
      left.Scoped unit visible 1 ∧ right.Scoped unit visible 1 := Expr.scoped_binary rfl rfl left right

/-- A comparison needs what its operands need. -/
@[simp]
theorem Expr.scoped_lt (left right : Expr) :
    (Expr.lt left right).Scoped unit visible 1 ↔
      left.Scoped unit visible 1 ∧ right.Scoped unit visible 1 := Expr.scoped_binary rfl rfl left right

/-- A comparison needs what its operands need. -/
@[simp]
theorem Expr.scoped_gt (left right : Expr) :
    (Expr.gt left right).Scoped unit visible 1 ↔
      left.Scoped unit visible 1 ∧ right.Scoped unit visible 1 := Expr.scoped_binary rfl rfl left right

/-- An equation needs what its operands need. -/
@[simp]
theorem Expr.scoped_eq (left right : Expr) :
    (Expr.eq left right).Scoped unit visible 1 ↔
      left.Scoped unit visible 1 ∧ right.Scoped unit visible 1 := Expr.scoped_binary rfl rfl left right

/-- A comparison with zero needs what its operand needs. -/
@[simp]
theorem Expr.scoped_iszero (value : Expr) :
    (Expr.iszero value).Scoped unit visible 1 ↔ value.Scoped unit visible 1 :=
  Expr.scoped_unary rfl rfl value

/-- A word of memory needs what its address needs. -/
@[simp]
theorem Expr.scoped_mload (pointer : Expr) :
    (Expr.mload pointer).Scoped unit visible 1 ↔ pointer.Scoped unit visible 1 :=
  Expr.scoped_unary rfl rfl pointer

/-- A word of call data needs what its address needs. -/
@[simp]
theorem Expr.scoped_calldataload (pointer : Expr) :
    (Expr.calldataload pointer).Scoped unit visible 1 ↔ pointer.Scoped unit visible 1 :=
  Expr.scoped_unary rfl rfl pointer

/-- The size of call data needs nothing. -/
@[simp]
theorem Expr.scoped_calldatasize : Expr.calldatasize.Scoped unit visible 1 := by
  simp [Expr.calldatasize, Builtin.arity, Builtin.valueCount, Builtin.returnsValue]

/-! ### Folded operations

Folding leaves operands out, or computes with literals, which need nothing. -/

/-- A number needs nothing. -/
@[simp]
theorem Expr.scoped_number (value : Nat) : (Expr.number value).Scoped unit visible 1 := by
  simp [Expr.number]

/-- A sum needs what its operands need. -/
@[simp]
theorem Expr.scoped_add (left right : Expr) :
    (Expr.add left right).Scoped unit visible 1 ↔
      left.Scoped unit visible 1 ∧ right.Scoped unit visible 1 := by
  unfold Expr.add
  split
  · simp [*]
  · split
    · simp [*]
    · split
      · simp
      · exact Expr.scoped_binary rfl rfl _ _

/-- A difference needs what its operands need. -/
@[simp]
theorem Expr.scoped_sub (left right : Expr) :
    (Expr.sub left right).Scoped unit visible 1 ↔
      left.Scoped unit visible 1 ∧ right.Scoped unit visible 1 := by
  unfold Expr.sub
  split
  · simp [*]
  · exact Expr.scoped_binary rfl rfl _ _

/-- A product needs what its operands need. -/
@[simp]
theorem Expr.scoped_mul (left right : Expr) :
    (Expr.mul left right).Scoped unit visible 1 ↔
      left.Scoped unit visible 1 ∧ right.Scoped unit visible 1 := by
  unfold Expr.mul
  split
  · simp [*]
  · split
    · simp [*]
    · split
      · simp
      · exact Expr.scoped_binary rfl rfl _ _

/-- A shift needs what its operands need. -/
@[simp]
theorem Expr.scoped_shl (bits value : Expr) :
    (Expr.shl bits value).Scoped unit visible 1 ↔
      bits.Scoped unit visible 1 ∧ value.Scoped unit visible 1 := by
  unfold Expr.shl
  split
  · simp [*]
  · exact Expr.scoped_binary rfl rfl _ _

/-! ### Statements -/

/-- A declaration of one variable needs what its value needs. -/
@[simp]
theorem Stmt.scoped_declareAs (name : String) (value : Expr) :
    (Stmt.declareAs name value).Scoped unit visible ↔ value.Scoped unit visible 1 := by
  simp [Stmt.declareAs]

/-- A declaration of one variable declares it. -/
@[simp]
theorem Stmt.declared_declareAs (name : String) (value : Expr) :
    (Stmt.declareAs name value).declared = [name] := rfl

/-- An assignment to one variable needs it and what the value needs. -/
@[simp]
theorem Stmt.scoped_assignTo (name : String) (value : Expr) :
    (Stmt.assignTo name value).Scoped unit visible ↔ value.Scoped unit visible 1 ∧ name ∈ visible := by
  simp [Stmt.assignTo]

/-- An assignment declares nothing. -/
@[simp]
theorem Stmt.declared_assignTo (name : String) (value : Expr) :
    (Stmt.assignTo name value).declared = [] := rfl

/-- A store needs what its operands need. -/
@[simp]
theorem Stmt.scoped_mstore (pointer value : Expr) :
    (Stmt.mstore pointer value).Scoped unit visible ↔
      pointer.Scoped unit visible 1 ∧ value.Scoped unit visible 1 := by
  have operands : (Stmt.mstore pointer value).Scoped unit visible ↔ Expr.ArgsScoped unit visible [pointer, value] :=
    Stmt.scoped_evalBuiltin rfl nofun
  rw [operands]
  simp

/-- A store declares nothing. -/
@[simp]
theorem Stmt.declared_mstore (pointer value : Expr) : (Stmt.mstore pointer value).declared = [] := rfl

/-- A copy within memory needs what its operands need. -/
@[simp]
theorem Stmt.scoped_mcopy (target source length : Expr) :
    (Stmt.mcopy target source length).Scoped unit visible ↔
      target.Scoped unit visible 1 ∧ source.Scoped unit visible 1 ∧ length.Scoped unit visible 1 := by
  have operands : (Stmt.mcopy target source length).Scoped unit visible ↔ Expr.ArgsScoped unit visible [target, source, length] :=
    Stmt.scoped_evalBuiltin rfl nofun
  rw [operands]
  simp

/-- A copy within memory declares nothing. -/
@[simp]
theorem Stmt.declared_mcopy (target source length : Expr) :
    (Stmt.mcopy target source length).declared = [] := rfl

/-- A copy of call data needs what its operands need. -/
@[simp]
theorem Stmt.scoped_calldatacopy (target source length : Expr) :
    (Stmt.calldatacopy target source length).Scoped unit visible ↔
      target.Scoped unit visible 1 ∧ source.Scoped unit visible 1 ∧ length.Scoped unit visible 1 := by
  have operands : (Stmt.calldatacopy target source length).Scoped unit visible ↔ Expr.ArgsScoped unit visible [target, source, length] :=
    Stmt.scoped_evalBuiltin rfl nofun
  rw [operands]
  simp

/-- A copy of call data declares nothing. -/
@[simp]
theorem Stmt.declared_calldatacopy (target source length : Expr) :
    (Stmt.calldatacopy target source length).declared = [] := rfl

/-- A revert without data needs nothing. -/
@[simp]
theorem Stmt.scoped_revertEmpty : Stmt.revertEmpty.Scoped unit visible := by
  simp [Stmt.revertEmpty, Expr.number, Builtin.arity, Builtin.valueCount, Word.ofNat]

/-- A counted loop needs its length, where the counter is visible, and what its body needs there. -/
@[simp]
theorem Stmt.scoped_count (counter : String) (length : Expr) (body : Block) :
    (Stmt.count counter length body).Scoped unit visible ↔
      length.Scoped unit (counter :: visible) 1 ∧ Block.Scoped unit (counter :: visible) body := by
  simp [Stmt.count]

/-- A branch declares nothing. -/
@[simp]
theorem Stmt.declared_branch (condition : Expr) (body : Block) :
    (Stmt.branch condition body).declared = [] := rfl

/-- An evaluation declares nothing. -/
@[simp]
theorem Stmt.declared_eval (expr : Expr) : (Stmt.eval expr).declared = [] := rfl

end

/-! ### Calls -/

mutual
/-- The routines that an expression calls. -/
def Expr.callees : Expr → List String
  | .builtin _ args => Expr.calleesOfAll args
  | .call name args => name :: Expr.calleesOfAll args
  | _ => []
/-- The routines that several expressions call. -/
def Expr.calleesOfAll : List Expr → List String
  | [] => []
  | expr :: rest => expr.callees ++ Expr.calleesOfAll rest
end

mutual
/-- The routines that a statement calls. -/
def Stmt.callees : Stmt → List String
  | .declare _ (some value) => value.callees
  | .assign _ value => value.callees
  | .eval expr => expr.callees
  | .branch condition body => condition.callees ++ Block.callees body
  | .loop start condition step body => Block.callees start ++ condition.callees ++ Block.callees step ++ Block.callees body
  | _ => []
/-- The routines that the statements of a block call. -/
def Block.callees : List Stmt → List String
  | [] => []
  | stmt :: rest => stmt.callees ++ Block.callees rest
end

section

variable {unit : CodeUnit} {visible : List String}

/-- Whether all of some routines are in a unit. -/
abbrev Backed (unit : CodeUnit) (names : List String) : Prop :=
  ∀ name ∈ names, ∃ routine, unit.routine? name = some routine

mutual
/-- A scoped expression calls routines of the unit. -/
theorem Expr.Scoped.backed {expr : Expr} {count : Nat} (h : expr.Scoped unit visible count) :
    Backed unit expr.callees := by
  cases expr with
  | builtin operation args => exact Expr.ArgsScoped.backed h.2.1
  | call name args =>
    obtain ⟨⟨routine, found, -⟩, inner⟩ := h
    exact List.forall_mem_cons.mpr ⟨⟨routine, found⟩, Expr.ArgsScoped.backed inner⟩
  | _ => exact nofun
/-- Scoped arguments call routines of the unit. -/
theorem Expr.ArgsScoped.backed {args : List Expr} (h : Expr.ArgsScoped unit visible args) :
    Backed unit (Expr.calleesOfAll args) := by
  cases args with
  | nil => exact nofun
  | cons arg rest => exact List.forall_mem_append.mpr ⟨Expr.Scoped.backed h.1, Expr.ArgsScoped.backed h.2⟩
end

mutual
/-- A scoped statement calls routines of the unit. -/
theorem Stmt.Scoped.backed {stmt : Stmt} {visible : List String} (h : stmt.Scoped unit visible) :
    Backed unit stmt.callees := by
  cases stmt with
  | declare names value =>
    cases value with
    | none => exact nofun
    | some value => exact Expr.Scoped.backed h
  | assign names value => exact Expr.Scoped.backed h.1
  | eval expr => exact Expr.Scoped.backed h.choose_spec
  | branch condition body => exact List.forall_mem_append.mpr ⟨Expr.Scoped.backed h.1, Block.Scoped.backed h.2⟩
  | loop start condition step body =>
    obtain ⟨first, tested, again, inner⟩ := h
    have fronts := List.forall_mem_append.mpr ⟨Block.Scoped.backed first, Expr.Scoped.backed tested⟩
    have rounds := List.forall_mem_append.mpr ⟨fronts, Block.Scoped.backed again⟩
    exact List.forall_mem_append.mpr ⟨rounds, Block.Scoped.backed inner⟩
  | leave => exact nofun
/-- A scoped block calls routines of the unit. -/
theorem Block.Scoped.backed {block : List Stmt} {visible : List String} (h : Block.Scoped unit visible block) :
    Backed unit (Block.callees block) := by
  cases block with
  | nil => exact nofun
  | cons stmt rest => exact List.forall_mem_append.mpr ⟨Stmt.Scoped.backed h.1, Block.Scoped.backed h.2⟩
end

end

end Yul

namespace CodeUnit

open Yul (Block)

/-- Whether a call of one routine may lead to a call of another one, by the text. -/
inductive Reaches (unit : CodeUnit) (name : String) : String → Prop where
  /-- The routine that is called. -/
  | self : Reaches unit name name
  /-- One that a routine on the way calls. -/
  | call {caller callee : String} {routine : Yul.Routine} (earlier : Reaches unit name caller)
      (found : unit.routine? caller = some routine) (called : callee ∈ Block.callees routine.body) :
      Reaches unit name callee

/-- From a routine of a scoped unit only routines of the unit are reached, also when more has been added. -/
theorem Scoped.reaches {unit later : CodeUnit} (complete : unit.Scoped)
    (kept : ∀ name routine, unit.routine? name = some routine → later.routine? name = some routine) {name other : String}
    {routine : Yul.Routine} (found : unit.routine? name = some routine) (reached : later.Reaches name other) :
    ∃ routine, unit.routine? other = some routine := by
  induction reached with
  | self => exact ⟨routine, found⟩
  | call _ present called ih =>
    obtain ⟨own, found'⟩ := ih
    -- what was added later does not change the routine on the way
    obtain rfl := Option.some.inj (present.symm.trans (kept _ _ found'))
    exact Block.Scoped.backed (complete _ (List.mem_of_find?_eq_some found')) _ called

end CodeUnit

end YulAbi
