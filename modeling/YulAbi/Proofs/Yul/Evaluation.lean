import Mathlib.Data.List.Forall2
import YulAbi.Proofs.Yul.Effect
import YulAbi.Proofs.Yul.Folding

/-!
# Effects of expressions

The effect of an expression is a step of the machine that answers with a word; the
variables stay as they are. Operands act from right to left. An expression that acts
like a plain answer has a value. The folded sums, products and shifts of `Build` have
the effects of what they stand for.
-/

namespace YulAbi

/-- The word of call data at an address, as a step. -/
def Machine.calldataload (address : Word) : MachineStep Word := do
  return (← get).calldataWord address

/-- The size of call data as a word, as a step. -/
def Machine.calldatasize : MachineStep Word := do
  return Word.ofNat (← get).calldata.size

namespace Yul

/-- Calling a routine, for every limit and depth. -/
def calling (unit : CodeUnit) (name : String) (args : List Word) : Process (List Word) :=
  fun limit depth => callWith unit (execute unit limit depth) name args

/-- Evaluating an expression to a single value, for every limit and depth. -/
def evaluating (unit : CodeUnit) (expr : Expr) : Process Word :=
  fun limit depth => evalOne unit (callWith unit (execute unit limit depth)) expr

/-- Evaluating arguments, for every limit and depth. -/
def evaluatingArgs (unit : CodeUnit) (args : List Expr) : Process (List Word) :=
  fun limit depth => evalArgs unit (callWith unit (execute unit limit depth)) args

end Yul

/-- Whether a call acts as a step does, whatever variables the caller has. -/
def CodeUnit.CallActs (unit : CodeUnit) (name : String) (args : List Word)
    (effect : MachineStep (List Word)) : Prop :=
  ∀ frame, (Yul.calling unit name args).Acts frame effect

namespace Yul

section

variable {unit : CodeUnit} {frame : Frame}

/-- Whether an expression acts as a step does that answers with its value. -/
def Expr.Acts (unit : CodeUnit) (frame : Frame) (expr : Expr) (effect : MachineStep Word) : Prop :=
  (evaluating unit expr).Acts frame effect

/-- Whether arguments act as a step does that answers with their values. -/
def Expr.ArgsAct (unit : CodeUnit) (frame : Frame) (args : List Expr)
    (effect : MachineStep (List Word)) : Prop :=
  (evaluatingArgs unit args).Acts frame effect

/-- A literal is its value. -/
theorem Expr.Acts.literal (value : Word) : Expr.Acts unit frame (.literal value) (pure value) := by
  refine Process.HasEffect.congr (Process.Acts.pure value frame) 0 fun limit depth _ => ?_
  simp [evaluating, evalOne, evalMany, singleValue]

/-- A number is the word of it. -/
theorem Expr.Acts.number (value : Nat) :
    Expr.Acts unit frame (.number value) (pure (Word.ofNat value)) := Expr.Acts.literal _

/-- A variable in scope is looked up without any change. -/
theorem Run.run_lookup {name : String} {value : Word} {state : RunState}
    (found : state.frame.find? name = some value) :
    (Run.lookup name).run state = .ok value state := by
  unfold Run.lookup
  rw [Step.bind_of_ok (show Run.frame.run state = .ok state.frame state from rfl), found]
  rfl

/-- A variable in scope is its value. -/
theorem Expr.Acts.ident {name : String} {value : Word} (found : frame.find? name = some value) :
    Expr.Acts unit frame (.ident name) (pure value) := by
  intro machine
  refine ⟨0, 0, fun limit depth budget _ => ?_⟩
  change (evaluating unit (.ident name) limit depth).run ⟨machine, frame, budget⟩ =
    .ok value ⟨machine, frame, budget⟩
  simp only [evaluating, evalOne, evalMany, bind_assoc, pure_bind, singleValue, bind_pure]
  exact Run.run_lookup found

/-- A named constant of the unit is its value. -/
theorem Expr.Acts.constant {name : String} {value : Word} (bound : unit.constant? name = some value) :
    Expr.Acts unit frame (.constant name) (pure value) := by
  refine Process.HasEffect.congr (Process.Acts.pure value frame) 0 fun limit depth _ => ?_
  simp [evaluating, evalOne, evalMany, singleValue, bound]

/-- No arguments have no values. -/
theorem Expr.ArgsAct.nil : Expr.ArgsAct unit frame [] (pure []) := by
  refine Process.HasEffect.congr (Process.Acts.pure [] frame) 0 fun limit depth _ => ?_
  simp [evaluatingArgs, evalArgs]

/-- Arguments act from right to left. -/
theorem Expr.ArgsAct.cons {arg : Expr} {args : List Expr} {effect : MachineStep Word}
    {others : MachineStep (List Word)} (first : Expr.Acts unit frame arg effect)
    (rest : Expr.ArgsAct unit frame args others) :
    Expr.ArgsAct unit frame (arg :: args) (do
      let values ← others
      let value ← effect
      return value :: values) := by
  have composed := Process.Acts.bind rest fun values =>
    Process.Acts.bind first fun value => Process.Acts.pure (value :: values) frame
  refine composed.congr 0 fun limit depth _ => ?_
  simp [evaluatingArgs, evaluating, evalArgs, evalOne]

/-- A single argument acts alone. -/
theorem Expr.ArgsAct.one {arg : Expr} {effect : MachineStep Word}
    (first : Expr.Acts unit frame arg effect) :
    Expr.ArgsAct unit frame [arg] (do
      let value ← effect
      return [value]) := by
  simpa using Expr.ArgsAct.cons first Expr.ArgsAct.nil

/-- Of two arguments the second one acts first. -/
theorem Expr.ArgsAct.two {left right : Expr} {effect effect' : MachineStep Word}
    (first : Expr.Acts unit frame left effect) (second : Expr.Acts unit frame right effect') :
    Expr.ArgsAct unit frame [left, right] (do
      let value' ← effect'
      let value ← effect
      return [value, value']) := by
  simpa using Expr.ArgsAct.cons first (Expr.ArgsAct.one second)

/-- Three arguments that have values. -/
theorem Expr.ArgsAct.three {left middle right : Expr} {x y z : Word}
    (first : Expr.Acts unit frame left (pure x)) (second : Expr.Acts unit frame middle (pure y))
    (third : Expr.Acts unit frame right (pure z)) :
    Expr.ArgsAct unit frame [left, middle, right] (pure [x, y, z]) := by
  simpa using Expr.ArgsAct.cons first (Expr.ArgsAct.two second third)

/-- Any number of arguments that have values. -/
theorem Expr.ArgsAct.values {args : List Expr} {values : List Word}
    (each : List.Forall₂ (fun arg value => Expr.Acts unit frame arg (pure value)) args values) :
    Expr.ArgsAct unit frame args (pure values) := by
  induction each with
  | nil => exact .nil
  | cons first rest ih => simpa using Expr.ArgsAct.cons first ih

/-- A single value is taken for the value of an expression. -/
theorem Process.Acts.single {process : Process (List Word)} (effect : MachineStep Word) (expr : Expr)
    (h : process.Acts frame (do
      let value ← effect
      return [value])) :
    Process.Acts (fun limit depth => process limit depth >>= singleValue expr) frame effect := by
  intro machine
  obtain ⟨cost, needed, run⟩ := h machine
  refine ⟨cost, needed, fun limit depth budget enough => ?_⟩
  have ends := run limit depth budget enough
  cases ended : effect.run machine with
  | ok value reached =>
    have listed : (effect >>= fun value => Pure.pure [value]).run machine = .ok [value] reached :=
      Step.bind_of_ok ended
    rw [Step.bind_of_ok listed] at ends
    rw [Step.bind_of_ok ended]
    exact Step.bind_of_ok ends
  | error fault reached =>
    have listed : (effect >>= fun value => Pure.pure [value]).run machine = .error fault reached :=
      Step.bind_of_error ended
    rw [Step.bind_of_error listed] at ends
    rw [Step.bind_of_error ended]
    obtain ⟨left, rest, failed⟩ := ends
    exact ⟨left, rest, Step.bind_of_error failed⟩

/-- A call with one result acts behind its arguments. -/
theorem Expr.Acts.call {name : String} {args : List Expr} {τ : Type} {operands : MachineStep τ}
    {values : τ → List Word} {effect : τ → MachineStep Word}
    (h : Expr.ArgsAct unit frame args (operands >>= fun operand => pure (values operand)))
    (called : ∀ operand, unit.CallActs name (values operand) (do
      let value ← effect operand
      return [value])) :
    Expr.Acts unit frame (.call name args) (operands >>= effect) := by
  have single : ∀ operand, Process.HasEffect (fun limit depth =>
      calling unit name (values operand) limit depth >>= singleValue (.call name args)) frame
      (effect operand >>= fun value => pure (value, frame)) :=
    fun operand => Process.Acts.single _ (.call name args) (called operand frame)
  have evaluated : (evaluatingArgs unit args).HasEffect frame
      (operands >>= fun operand => pure (values operand, frame)) := by
    simpa [Expr.ArgsAct, Process.Acts] using h
  have composed := Process.HasEffect.bind (fun results limit depth =>
      calling unit name results limit depth >>= singleValue (.call name args)) evaluated single
  unfold Expr.Acts Process.Acts
  rw [bind_assoc]
  refine composed.congr 0 fun limit depth _ => ?_
  simp [evaluating, evaluatingArgs, calling, evalOne, evalMany]

/-- An instruction with one operand. -/
theorem Expr.Acts.unary {operation : Builtin} {arg : Expr} {effect : MachineStep Word}
    (step : Word → MachineStep Word) (h : Expr.Acts unit frame arg effect)
    (arity : operation.arity = 1)
    (applied : ∀ value, operation.apply [value] = (do
      let result ← step value
      return [result])) :
    Expr.Acts unit frame (.builtin operation [arg]) (effect >>= step) := by
  have composed := Process.Acts.bind (Expr.ArgsAct.one h) fun values =>
    Process.HasEffect.onMachine (operation.apply values) frame
  have folded := Process.Acts.single (effect >>= step) (.builtin operation [arg]) (by
    refine Eq.mp (congrArg _ ?_) composed
    simp [applied])
  refine folded.congr 0 fun limit depth _ => ?_
  simp [evaluating, evaluatingArgs, evalOne, evalMany, arity]

/-- An instruction with two operands; the second one acts first. -/
theorem Expr.Acts.binary {operation : Builtin} {left right : Expr} {effect effect' : MachineStep Word}
    (step : Word → Word → MachineStep Word) (first : Expr.Acts unit frame left effect)
    (second : Expr.Acts unit frame right effect') (arity : operation.arity = 2)
    (applied : ∀ value value', operation.apply [value, value'] = (do
      let result ← step value value'
      return [result])) :
    Expr.Acts unit frame (.builtin operation [left, right]) (do
      let value' ← effect'
      let value ← effect
      step value value') := by
  have composed := Process.Acts.bind (Expr.ArgsAct.two first second) fun values =>
    Process.HasEffect.onMachine (operation.apply values) frame
  have folded := Process.Acts.single (do
      let value' ← effect'
      let value ← effect
      step value value') (.builtin operation [left, right]) (by
    refine Eq.mp (congrArg _ ?_) composed
    simp [applied])
  refine folded.congr 0 fun limit depth _ => ?_
  simp [evaluating, evaluatingArgs, evalOne, evalMany, arity]

/-- An instruction that computes a word from two words. -/
theorem Expr.Acts.compute {operation : Builtin} {left right : Expr} {x y : Word}
    (result : Word → Word → Word) (first : Expr.Acts unit frame left (pure x))
    (second : Expr.Acts unit frame right (pure y)) (arity : operation.arity = 2)
    (applied : ∀ value value', operation.apply [value, value'] = pure [result value value']) :
    Expr.Acts unit frame (.builtin operation [left, right]) (pure (result x y)) := by
  simpa using Expr.Acts.binary (fun value value' => pure (result value value')) first second arity
    (by simp [applied])

/-- The word of memory at an address. -/
theorem Expr.Acts.mload {pointer : Expr} {effect : MachineStep Word}
    (h : Expr.Acts unit frame pointer effect) :
    Expr.Acts unit frame (.mload pointer) (effect >>= Machine.mload) :=
  Expr.Acts.unary Machine.mload h rfl fun _ => rfl

/-- The word of call data at an address. -/
theorem Expr.Acts.calldataload {pointer : Expr} {effect : MachineStep Word}
    (h : Expr.Acts unit frame pointer effect) :
    Expr.Acts unit frame (.calldataload pointer) (effect >>= Machine.calldataload) :=
  Expr.Acts.unary Machine.calldataload h rfl fun _ => rfl

/-- The size of call data. -/
theorem Expr.Acts.calldatasize : Expr.Acts unit frame .calldatasize Machine.calldatasize := by
  have composed := Process.Acts.single Machine.calldatasize .calldatasize
    (Process.HasEffect.onMachine (Builtin.apply .calldatasize []) frame)
  refine composed.congr 0 fun limit depth _ => ?_
  simp [evaluating, evalOne, evalMany, Expr.calldatasize, evalArgs, Builtin.arity]

/-- An expression acts like one that is evaluated alike. -/
theorem Expr.Acts.of_evalOne {expr other : Expr} {effect : MachineStep Word} (h : Expr.Acts unit frame other effect)
    (same : ∀ caller, evalOne unit caller expr = evalOne unit caller other) : Expr.Acts unit frame expr effect :=
  Process.HasEffect.congr h 0 fun _ _ _ => same _

/-- A folded sum acts like a sum. -/
theorem Expr.Acts.add {left right : Expr} {effect effect' : MachineStep Word}
    (first : Expr.Acts unit frame left effect) (second : Expr.Acts unit frame right effect') :
    Expr.Acts unit frame (.add left right) (do
      let value' ← effect'
      let value ← effect
      return value + value') :=
  (Expr.Acts.binary (fun value value' => pure (value + value')) first second rfl fun _ _ => rfl).of_evalOne
    fun _ => evalOne_add left right

/-- A folded difference acts like a difference. -/
theorem Expr.Acts.sub {left right : Expr} {effect effect' : MachineStep Word}
    (first : Expr.Acts unit frame left effect) (second : Expr.Acts unit frame right effect') :
    Expr.Acts unit frame (.sub left right) (do
      let value' ← effect'
      let value ← effect
      return value - value') :=
  (Expr.Acts.binary (fun value value' => pure (value - value')) first second rfl fun _ _ => rfl).of_evalOne
    fun _ => evalOne_sub left right

/-- A folded product acts like a product. -/
theorem Expr.Acts.mul {left right : Expr} {effect effect' : MachineStep Word}
    (first : Expr.Acts unit frame left effect) (second : Expr.Acts unit frame right effect') :
    Expr.Acts unit frame (.mul left right) (do
      let value' ← effect'
      let value ← effect
      return value * value') :=
  (Expr.Acts.binary (fun value value' => pure (value * value')) first second rfl fun _ _ => rfl).of_evalOne
    fun _ => evalOne_mul left right

/-- A shift by five bits multiplies by the size of a word. -/
theorem Expr.Acts.words {count : Expr} {effect : MachineStep Word}
    (h : Expr.Acts unit frame count effect) :
    Expr.Acts unit frame (.shl (.number 5) count) (do
      let value ← effect
      return value * 32#256) := by
  have shifted : ∀ value : Word, Word.shiftLeft 5#256 value = value * 32#256 := by
    intro value
    change value <<< 5 = value * 32#256
    rw [BitVec.shiftLeft_eq_mul_twoPow]
    rfl
  have acts : Expr.Acts unit frame (.builtin .shl [.number 5, count]) (do
      let value ← effect
      return Word.shiftLeft 5#256 value) := by
    simpa using Expr.Acts.binary (fun value value' => pure (Word.shiftLeft value value'))
      (Expr.Acts.number 5) h rfl fun _ _ => rfl
  simpa [shifted] using acts.of_evalOne fun _ => evalOne_shl (.number 5) count

/-- The sum of two values. -/
theorem Expr.Acts.sum {left right : Expr} {x y : Word} (first : Expr.Acts unit frame left (pure x))
    (second : Expr.Acts unit frame right (pure y)) :
    Expr.Acts unit frame (.add left right) (pure (x + y)) := by
  simpa using Expr.Acts.add first second

/-- The difference of two values. -/
theorem Expr.Acts.difference {left right : Expr} {x y : Word}
    (first : Expr.Acts unit frame left (pure x)) (second : Expr.Acts unit frame right (pure y)) :
    Expr.Acts unit frame (.sub left right) (pure (x - y)) := by
  simpa using Expr.Acts.sub first second

/-- The product of two values. -/
theorem Expr.Acts.product {left right : Expr} {x y : Word}
    (first : Expr.Acts unit frame left (pure x)) (second : Expr.Acts unit frame right (pure y)) :
    Expr.Acts unit frame (.mul left right) (pure (x * y)) := by
  simpa using Expr.Acts.mul first second

/-- The size of a number of words. -/
theorem Expr.Acts.wordsOf {count : Expr} {x : Word} (h : Expr.Acts unit frame count (pure x)) :
    Expr.Acts unit frame (.shl (.number 5) count) (pure (x * 32#256)) := by
  simpa using Expr.Acts.words h

/-- The word of memory at the address that an expression has for its value. -/
theorem Expr.Acts.mloadAt {pointer : Expr} {x : Word} (h : Expr.Acts unit frame pointer (pure x)) :
    Expr.Acts unit frame (.mload pointer) (Machine.mload x) := by
  simpa using Expr.Acts.mload h

/-- The word of call data at the address that an expression has for its value. -/
theorem Expr.Acts.calldataloadAt {pointer : Expr} {x : Word}
    (h : Expr.Acts unit frame pointer (pure x)) :
    Expr.Acts unit frame (.calldataload pointer) (Machine.calldataload x) := by
  simpa using Expr.Acts.calldataload h

/-- Whether one value is below another. -/
theorem Expr.Acts.less {left right : Expr} {x y : Word} (first : Expr.Acts unit frame left (pure x))
    (second : Expr.Acts unit frame right (pure y)) :
    Expr.Acts unit frame (.lt left right) (pure (Word.ofBool (x < y))) :=
  Expr.Acts.compute (fun x y => Word.ofBool (x < y)) first second rfl fun _ _ => rfl

/-- Whether one value is above another; the second operand acts first. -/
theorem Expr.Acts.greater {left right : Expr} {effect effect' : MachineStep Word}
    (first : Expr.Acts unit frame left effect) (second : Expr.Acts unit frame right effect') :
    Expr.Acts unit frame (.gt left right) (do
      let value' ← effect'
      let value ← effect
      return Word.ofBool (value' < value)) :=
  Expr.Acts.binary (fun x y => pure (Word.ofBool (y < x))) first second rfl
    fun _ _ => rfl

/-- Whether one value is above another. -/
theorem Expr.Acts.above {left right : Expr} {x y : Word} (first : Expr.Acts unit frame left (pure x))
    (second : Expr.Acts unit frame right (pure y)) :
    Expr.Acts unit frame (.gt left right) (pure (Word.ofBool (y < x))) := by
  simpa using Expr.Acts.greater first second

/-- Whether two values differ. -/
theorem Expr.Acts.differ {left right : Expr} {x y : Word} (first : Expr.Acts unit frame left (pure x))
    (second : Expr.Acts unit frame right (pure y)) :
    Expr.Acts unit frame (.iszero (.eq left right)) (pure (Word.ofBool (x != y))) := by
  have equal : Expr.Acts unit frame (.eq left right) (pure (Word.ofBool (x == y))) :=
    Expr.Acts.compute (fun x y => Word.ofBool (x == y)) first second rfl
      fun _ _ => rfl
  have negated : Expr.Acts unit frame (.iszero (.eq left right))
      (pure (Word.ofBool (x == y)) >>= fun value => pure (Word.ofBool (value == 0#256))) :=
    Expr.Acts.unary (fun value => pure (Word.ofBool (value == 0#256))) equal rfl fun _ => rfl
  have same : Word.ofBool (Word.ofBool (x == y) == 0#256) = Word.ofBool (x != y) := by
    by_cases h : x = y <;> simp [h, Word.ofBool]
  rw [pure_bind, same] at negated
  exact negated

/-- The common bits of two values; the second operand acts first. -/
theorem Expr.Acts.common {left right : Expr} {effect effect' : MachineStep Word}
    (first : Expr.Acts unit frame left effect) (second : Expr.Acts unit frame right effect') :
    Expr.Acts unit frame (.and left right) (do
      let value' ← effect'
      let value ← effect
      return value &&& value') :=
  Expr.Acts.binary (fun x y => pure (x &&& y)) first second rfl fun _ _ => rfl

end

end Yul

end YulAbi
