import YulAbi.Proofs.Field.Lowered

/-!
# Trees and their code

The code of an access tree has the value of the tree, and the code of a write does what the write
says, whatever the tree: its shifts and indices may be larger than a word, and what it loads may
overlap. The word, its address and the value may be any code that has these values.
-/

namespace YulAbi

namespace Yul

section

variable {unit : CodeUnit} {caller : Caller} {state : RunState} {expr left right : Expr} {x y : Word}

/-- Whether an expression has a value, and evaluating it leaves the run as it is. -/
def Expr.HasValue (unit : CodeUnit) (caller : Caller) (state : RunState) (expr : Expr) (value : Word) : Prop :=
  (evalMany unit caller expr).run state = .ok [value] state

/-- A literal is its value. -/
theorem Expr.HasValue.literal (value : Word) : Expr.HasValue unit caller state (.literal value) value := by
  unfold HasValue
  rw [evalMany]
  rfl

/-- A variable in scope is its value. -/
theorem Expr.HasValue.ident {name : String} (found : state.frame.find? name = some x) :
    Expr.HasValue unit caller state (.ident name) x := by
  unfold HasValue
  rw [evalMany, Step.bind_of_ok (Run.run_lookup found)]
  rfl

/-- A value is the only value where a single one is expected. -/
theorem Expr.HasValue.iff_evalOne :
    Expr.HasValue unit caller state expr x ↔ (evalOne unit caller expr).run state = .ok x state := by
  refine ⟨fun h => Step.bind_of_ok h, fun h => ?_⟩
  obtain ⟨values, reached, many, single⟩ := Step.bind_eq_ok.mp h
  unfold HasValue
  cases values with
  | nil => cases single
  | cons value others =>
    cases others with
    | nil =>
      cases single
      exact many
    | cons other rest => cases single

/-- What is evaluated alike has the same value. -/
theorem Expr.HasValue.of_evalOne {other : Expr} (h : Expr.HasValue unit caller state other x)
    (same : evalOne unit caller expr = evalOne unit caller other) : Expr.HasValue unit caller state expr x := by
  rw [iff_evalOne, same, ← iff_evalOne]
  exact h

/-- Arguments that have values are evaluated to these. -/
theorem Expr.HasValue.args {args : List Expr} {values : List Word}
    (each : List.Forall₂ (Expr.HasValue unit caller state) args values) :
    (evalArgs unit caller args).run state = .ok values state := by
  induction each with
  | nil =>
    rw [evalArgs]
    rfl
  | cons first rest ih =>
    rw [evalArgs, Step.bind_of_ok ih, Step.bind_of_ok first]
    rfl

/-- An operation of the machine leaves variables and budget alone. -/
theorem Run.run_onMachine {α : Type} {step : MachineStep α} {answer : α} {after : Machine}
    (ran : step.run state.machine = .ok answer after) :
    (Run.onMachine step).run state = .ok answer ⟨after, state.frame, state.budget⟩ := by
  change Run.onMachine step state = _
  simp only [Run.onMachine, show step state.machine = .ok answer after from ran]

/-- An instruction is applied to the values of its operands. -/
theorem Expr.HasValue.run_builtin {operation : Builtin} {args : List Expr} {values answers : List Word} {after : Machine}
    (each : List.Forall₂ (Expr.HasValue unit caller state) args values) (arity : args.length = operation.arity)
    (applied : (operation.apply values).run state.machine = .ok answers after) :
    (evalMany unit caller (.builtin operation args)).run state = .ok answers ⟨after, state.frame, state.budget⟩ := by
  rw [evalMany, if_pos arity, Step.bind_of_ok (Expr.HasValue.args each)]
  exact Run.run_onMachine applied

/-- An instruction with one operand. -/
theorem Expr.HasValue.unary {operation : Builtin} {value : Word} (h : Expr.HasValue unit caller state expr x)
    (arity : operation.arity = 1) (applied : (operation.apply [x]).run state.machine = .ok [value] state.machine) :
    Expr.HasValue unit caller state (.builtin operation [expr]) value :=
  run_builtin (.cons h .nil) arity.symm applied

/-- An instruction with two operands. -/
theorem Expr.HasValue.binary {operation : Builtin} {value : Word} (h : Expr.HasValue unit caller state left x)
    (h' : Expr.HasValue unit caller state right y) (arity : operation.arity = 2)
    (applied : (operation.apply [x, y]).run state.machine = .ok [value] state.machine) :
    Expr.HasValue unit caller state (.builtin operation [left, right]) value :=
  run_builtin (.cons h (.cons h' .nil)) arity.symm applied

/-- A folded sum has the value of a sum. -/
theorem Expr.HasValue.add (h : Expr.HasValue unit caller state left x) (h' : Expr.HasValue unit caller state right y) :
    Expr.HasValue unit caller state (.add left right) (x + y) :=
  Expr.HasValue.of_evalOne (.binary h h' rfl rfl) (evalOne_add left right)

/-- A folded difference has the value of a difference. -/
theorem Expr.HasValue.sub (h : Expr.HasValue unit caller state left x) (h' : Expr.HasValue unit caller state right y) :
    Expr.HasValue unit caller state (.sub left right) (x - y) :=
  Expr.HasValue.of_evalOne (.binary h h' rfl rfl) (evalOne_sub left right)

/-- A folded left shift has the value of a shift. -/
theorem Expr.HasValue.shl (h : Expr.HasValue unit caller state left x) (h' : Expr.HasValue unit caller state right y) :
    Expr.HasValue unit caller state (.shl left right) (Word.shiftLeft x y) :=
  Expr.HasValue.of_evalOne (.binary h h' rfl rfl) (evalOne_shl left right)

/-- A folded right shift has the value of a shift. -/
theorem Expr.HasValue.shr (h : Expr.HasValue unit caller state left x) (h' : Expr.HasValue unit caller state right y) :
    Expr.HasValue unit caller state (.shr left right) (Word.shiftRight x y) :=
  Expr.HasValue.of_evalOne (.binary h h' rfl rfl) (evalOne_shr left right)

/-- A load has the value of the memory it reads. -/
theorem Expr.HasValue.mload (h : Expr.HasValue unit caller state expr x)
    (read : (Machine.mload x).run state.machine = .ok y state.machine) :
    Expr.HasValue unit caller state (.mload expr) y := by
  refine .unary h rfl ?_
  change ((Machine.mload x) >>= fun word => pure [word]).run state.machine = _
  rw [Step.bind_of_ok read]
  rfl

/-- An address a number of bytes behind another one. -/
theorem Expr.HasValue.displaced (h : Expr.HasValue unit caller state expr x) (offset : Int) :
    Expr.HasValue unit caller state (displaced expr offset) (displacedWord x offset) := by
  unfold YulAbi.displaced
  split
  · rw [displacedWord, BitVec.add_zero]
    exact h
  · exact h.add (.literal _)
  · exact h.sub (.literal _)

end

section

variable {unit : CodeUnit} {limit depth budget : Nat} {frame : Frame} {machine after : Machine} {address stored : Expr}
  {x y : Word}

/-- A statement that stores takes one step and leaves the variables as they are. -/
theorem Stmt.run_store {operation : Builtin} (arity : operation.arity = 2)
    (place : Expr.HasValue unit (callWith unit (execute unit limit depth)) ⟨machine, frame, budget⟩ address x)
    (word : Expr.HasValue unit (callWith unit (execute unit limit depth)) ⟨machine, frame, budget⟩ stored y)
    (applied : (operation.apply [x, y]).run machine = .ok [] after) :
    (execute unit limit (depth + 1) (.eval (.builtin operation [address, stored]))).run ⟨machine, frame, budget + 1⟩ =
      .ok .normal ⟨after, frame, budget⟩ := by
  have evaluated : (evalMany unit (callWith unit (execute unit limit depth)) (.builtin operation [address, stored])).run
      ⟨machine, frame, budget⟩ = .ok [] ⟨after, frame, budget⟩ :=
    Expr.HasValue.run_builtin (.cons place (.cons word .nil)) arity.symm applied
  have ticked : (Run.tick limit).run ⟨machine, frame, budget + 1⟩ = .ok () ⟨machine, frame, budget⟩ := rfl
  rw [execute, runStmt, Step.bind_of_ok ticked]
  dsimp only
  rw [Step.bind_of_ok evaluated]
  rfl

end

end Yul

open Yul (Caller Expr Frame RunState)

/-- Whether a tree loads words only that are at most a word away, and its shifts and indices are words. -/
def AccessExpr.isNear : AccessExpr → Bool
  | .word | .value | .literal _ => true
  | .load offset => decide (-32 ≤ offset) && decide (offset ≤ 32)
  | .shl count expr | .shr count expr | .byte count expr => decide (count < 2 ^ 256) && expr.isNear
  | .and left right | .or left right => left.isNear && right.isNear
  | .not expr => expr.isNear

/-- Whether a write stores a near tree inside the three words around its word. -/
def WriteForm.isNear : WriteForm → Bool
  | .word expr => expr.isNear
  | .store8 offset expr => decide (-32 ≤ offset) && decide (offset ≤ 63) && expr.isNear
  | .window offset expr => decide (-32 ≤ offset) && decide (offset ≤ 32) && expr.isNear

section

variable {unit : CodeUnit} {wordExpr pointerExpr valueExpr : Expr} {pointer value : Word}

/-- The code of a near tree has the value of the tree for the three words around the word. -/
theorem AccessExpr.toYul_hasValue {caller : Caller} {state : RunState} (above : 32 ≤ pointer.toNat)
    (room : pointer.toNat + 64 ≤ memoryLimit)
    (word : Expr.HasValue unit caller state wordExpr (state.machine.wordAt pointer.toNat))
    (place : Expr.HasValue unit caller state pointerExpr pointer)
    (given : Expr.HasValue unit caller state valueExpr value) (tree : AccessExpr) (near : tree.isNear = true) :
    Expr.HasValue unit caller state (tree.toYul wordExpr pointerExpr valueExpr)
      (tree.evaluate (windowAt state.machine pointer) value) := by
  induction tree with
  | word =>
    rw [evaluate, load_zero_windowAt above]
    exact word
  | value => exact given
  | load offset =>
    simp only [isNear, Bool.and_eq_true, decide_eq_true_eq] at near
    exact (place.displaced offset).mload (run_mload_near above room near.1 near.2)
  | literal number => exact .literal number
  | shl count expr ih =>
    simp only [isNear, Bool.and_eq_true, decide_eq_true_eq] at near
    have shifted := Expr.HasValue.shl (Expr.HasValue.literal (Word.ofNat count)) (ih near.2)
    rwa [Word.shiftLeft, Word.toNat_ofNat near.1] at shifted
  | shr count expr ih =>
    simp only [isNear, Bool.and_eq_true, decide_eq_true_eq] at near
    have shifted := Expr.HasValue.shr (Expr.HasValue.literal (Word.ofNat count)) (ih near.2)
    rwa [Word.shiftRight, Word.toNat_ofNat near.1] at shifted
  | and left right ih ih' =>
    simp only [isNear, Bool.and_eq_true] at near
    exact .binary (ih near.1) (ih' near.2) rfl rfl
  | or left right ih ih' =>
    simp only [isNear, Bool.and_eq_true] at near
    exact .binary (ih near.1) (ih' near.2) rfl rfl
  | not expr ih => exact .unary (ih near) rfl rfl
  | byte index expr ih =>
    simp only [isNear, Bool.and_eq_true, decide_eq_true_eq] at near
    have selected : Word.selectByte (Word.ofNat index) (expr.evaluate (windowAt state.machine pointer) value) =
        Word.ofNat (Word.byteAt (expr.evaluate (windowAt state.machine pointer) value) index).toNat := by
      rw [Word.selectByte, Word.toNat_ofNat near.1]
      split
      · rfl
      · rename_i beyond
        rw [Word.byteAt, if_neg beyond]
        rfl
    rw [evaluate, ← selected]
    exact .binary (.literal _) (ih near.2) rfl rfl

variable {limit depth budget : Nat} {frame : Frame} {machine : Machine}

/-- The code of a near write takes one step, applies the write to the three words around the word and changes no
other byte. -/
theorem WriteForm.run_toYul (above : 32 ≤ pointer.toNat) (room : pointer.toNat + 64 ≤ memoryLimit)
    (place : Expr.HasValue unit (Yul.callWith unit (Yul.execute unit limit depth)) ⟨machine, frame, budget⟩ pointerExpr pointer)
    (trees : ∀ tree : AccessExpr, tree.isNear = true →
      Expr.HasValue unit (Yul.callWith unit (Yul.execute unit limit depth)) ⟨machine, frame, budget⟩
        (tree.toYul wordExpr pointerExpr valueExpr) (tree.evaluate (windowAt machine pointer) value))
    (form : WriteForm) (near : form.isNear = true) : ∃ after,
      (Yul.execute unit limit (depth + 1) (form.toYul .memory wordExpr pointerExpr valueExpr)).run
        ⟨machine, frame, budget + 1⟩ = .ok .normal ⟨after, frame, budget⟩ ∧
      windowAt after pointer = form.apply (windowAt machine pointer) value ∧
      machine.ChangesOnly (fun index => pointer.toNat - 32 ≤ index ∧ index < pointer.toNat + 64) after := by
  cases form with
  | word expr =>
    obtain ⟨after, ran, applied, changes⟩ := mstore_near machine above room (show (-32 : Int) ≤ 0 by decide)
      (by decide) (expr.evaluate (windowAt machine pointer) value)
    rw [displacedWord_zero] at ran
    exact ⟨after, Yul.Stmt.run_store rfl place (trees expr near) (Step.bind_of_ok ran), applied, changes⟩
  | store8 offset expr =>
    simp only [isNear, Bool.and_eq_true, decide_eq_true_eq] at near
    obtain ⟨after, ran, applied, changes⟩ := mstore8_near machine above room near.1.1 near.1.2
      (expr.evaluate (windowAt machine pointer) value)
    exact ⟨after, Yul.Stmt.run_store rfl (place.displaced offset) (trees expr near.2) (Step.bind_of_ok ran), applied, changes⟩
  | window offset expr =>
    simp only [isNear, Bool.and_eq_true, decide_eq_true_eq] at near
    obtain ⟨after, ran, applied, changes⟩ := mstore_near machine above room near.1.1 near.1.2
      (expr.evaluate (windowAt machine pointer) value)
    exact ⟨after, Yul.Stmt.run_store rfl (place.displaced offset) (trees expr near.2) (Step.bind_of_ok ran), applied, changes⟩

/-- If the word, its address and the value are code that has these values, the code of every near tree has the value
of the tree for the three words around the word, and the code of every near write turns these into what the write makes
of them and changes no other byte. -/
theorem lowering_keeps_trees (above : 32 ≤ pointer.toNat) (room : pointer.toNat + 64 ≤ memoryLimit)
    (word : Expr.HasValue unit (Yul.callWith unit (Yul.execute unit limit depth)) ⟨machine, frame, budget⟩ wordExpr
      (machine.wordAt pointer.toNat))
    (place : Expr.HasValue unit (Yul.callWith unit (Yul.execute unit limit depth)) ⟨machine, frame, budget⟩ pointerExpr pointer)
    (given : Expr.HasValue unit (Yul.callWith unit (Yul.execute unit limit depth)) ⟨machine, frame, budget⟩ valueExpr value) :
    (∀ tree : AccessExpr, tree.isNear = true →
      (Yul.evalMany unit (Yul.callWith unit (Yul.execute unit limit depth))
        (tree.toYul wordExpr pointerExpr valueExpr)).run ⟨machine, frame, budget⟩ =
          .ok [tree.evaluate (windowAt machine pointer) value] ⟨machine, frame, budget⟩) ∧
    ∀ form : WriteForm, form.isNear = true → ∃ after,
      (Yul.execute unit limit (depth + 1) (form.toYul .memory wordExpr pointerExpr valueExpr)).run
        ⟨machine, frame, budget + 1⟩ = .ok .normal ⟨after, frame, budget⟩ ∧
      windowAt after pointer = form.apply (windowAt machine pointer) value ∧
      machine.ChangesOnly (fun index => pointer.toNat - 32 ≤ index ∧ index < pointer.toNat + 64) after := by
  have trees := AccessExpr.toYul_hasValue above room word place given
  exact ⟨trees, WriteForm.run_toYul above room place trees⟩

/-- A tree with a shift and an index that are larger than a word, and a load that overlaps the word behind. -/
def overlapTree : AccessExpr :=
  .and (.or (.shl 300 .value) (.load 1)) (.not (.byte 40 .word))

/-- The variables `word`, `ptr` and `value` for the word that holds the free memory pointer of a new machine. -/
def freePointerFrame : Frame := ⟨"field", [[("word", 128#256), ("ptr", 64#256), ("value", 255#256)]]⟩

/-- One byte behind the free memory pointer of a new machine there is 256 times the pointer, and its low byte can be
written to the last of the three words. -/
theorem overlapTree_is_kept :
    (Yul.evalMany .empty (Yul.callWith .empty (Yul.execute .empty 1 0))
      (overlapTree.toYul (.ident "word") (.ident "ptr") (.ident "value"))).run ⟨.start .empty, freePointerFrame, 0⟩ =
        .ok [32768#256] ⟨.start .empty, freePointerFrame, 0⟩ ∧
    ∃ after, (Yul.execute .empty 1 1 ((WriteForm.store8 63 (.shr 8 overlapTree)).toYul .memory (.ident "word")
        (.ident "ptr") (.ident "value"))).run ⟨.start .empty, freePointerFrame, 1⟩ =
          .ok .normal ⟨after, freePointerFrame, 0⟩ ∧
      windowAt after 64#256 = (windowAt (.start .empty) 64#256).put 95 [128] := by
  have stored : (Machine.start .empty).wordAt (64#256).toNat = 128#256 := by decide +kernel
  have word : Expr.HasValue .empty (Yul.callWith .empty (Yul.execute .empty 1 0)) ⟨.start .empty, freePointerFrame, 0⟩
      (.ident "word") ((Machine.start .empty).wordAt (64#256).toNat) := by
    rw [stored]
    exact .ident (by decide)
  have place : Expr.HasValue .empty (Yul.callWith .empty (Yul.execute .empty 1 0)) ⟨.start .empty, freePointerFrame, 0⟩
      (.ident "ptr") 64#256 := .ident (by decide)
  have given : Expr.HasValue .empty (Yul.callWith .empty (Yul.execute .empty 1 0)) ⟨.start .empty, freePointerFrame, 0⟩
      (.ident "value") 255#256 := .ident (by decide)
  obtain ⟨trees, writes⟩ := lowering_keeps_trees (by decide) (by decide) word place given
  have evaluated : overlapTree.evaluate (windowAt (.start .empty) 64#256) 255#256 = 32768#256 := by decide +kernel
  have applied : (WriteForm.store8 63 (.shr 8 overlapTree)).apply (windowAt (.start .empty) 64#256) 255#256 =
      (windowAt (.start .empty) 64#256).put 95 [128] := by decide +kernel
  obtain ⟨after, ran, window, -⟩ := writes (.store8 63 (.shr 8 overlapTree)) (by decide)
  exact ⟨(trees overlapTree (by decide)).trans (by rw [evaluated]), after, ran, window.trans applied⟩

end

end YulAbi
