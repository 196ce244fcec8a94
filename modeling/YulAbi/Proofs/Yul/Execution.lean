import YulAbi.Codec.Decoder
import YulAbi.Proofs.Yul.Evaluation
import YulAbi.Proofs.Yul.Variables

/-!
# Effects of statements

The effect of a statement tells the variables afterwards, that of a block those behind
its end, where its own scope is closed. A loop over a counter acts as often as its
length says. A routine that runs to its end acts as its body does and answers with
the result variable. Statements that end a routine early are not covered, as no
generated routine has any.
-/

namespace YulAbi

/-- Acts once for each index from a first one on, and hands on what a round leaves to the next. -/
def Machine.rounds {σ : Type} (body : Word → σ → MachineStep σ) : (count : Nat) → Word → σ → MachineStep σ
  | 0, _, state => return state
  | count + 1, index, state => do
    let next ← body index state
    rounds body count (index + 1#256) next

/-- Reverts without data unless a word is zero. -/
def Machine.refuseIf (condition : Word) : MachineStep Unit :=
  if condition = 0#256 then pure () else throw (.reverted [])

namespace Yul

section

variable {unit : CodeUnit} {frame : Frame} {σ τ : Type}

/-- Running a statement, for every limit and depth. -/
def executing (unit : CodeUnit) (stmt : Stmt) : Process Flow :=
  fun limit depth => execute unit limit depth stmt

/-- Running statements to the end of their block, for every limit and depth. -/
def finishing (unit : CodeUnit) (stmts : List Stmt) : Process Flow := fun limit depth => do
  let flow ← runAll (execute unit limit depth) stmts
  Run.closeScope
  return flow

/-- What follows a statement: the rest of its block, unless the statement ends the routine. -/
def continuing (unit : CodeUnit) (rest : List Stmt) : Flow → Process Flow
  | .normal => finishing unit rest
  | .leave => fun _ _ => do
    Run.closeScope
    return Flow.leave

/-- Whether a statement goes on and acts as a step does, with the variables that belong to its
answer. -/
def Stmt.Acts (unit : CodeUnit) (frame : Frame) (stmt : Stmt) (effect : MachineStep σ)
    (next : σ → Frame) : Prop :=
  (executing unit stmt).HasEffect frame (effect >>= fun state => pure (Flow.normal, next state))

/-- Whether the rest of a block goes on and acts as a step does, with the variables that belong to
its answer once the scope of the block is closed. -/
def Block.Runs (unit : CodeUnit) (frame : Frame) (stmts : List Stmt) (effect : MachineStep σ)
    (after : σ → Frame) : Prop :=
  (finishing unit stmts).HasEffect frame (effect >>= fun state => pure (Flow.normal, after state))

/-- What a statement does behind the step that it takes. -/
theorem Stmt.Acts.intro {stmt : Stmt} {effect : MachineStep σ} {next : σ → Frame}
    (h : Process.HasEffect
      (fun limit depth => runStmt unit limit (execute unit limit depth) depth stmt) frame
      (effect >>= fun state => pure (Flow.normal, next state))) :
    Stmt.Acts unit frame stmt effect next := by
  refine h.nested.congr 1 fun limit depth positive => ?_
  obtain ⟨deeper, rfl⟩ : ∃ deeper, depth = deeper + 1 := ⟨depth - 1, by omega⟩
  rfl

/-- A step of the budget leaves the variables alone. -/
theorem Process.Acts.tick (frame : Frame) :
    Process.Acts (fun limit _ => Run.tick limit) frame (Pure.pure ()) := by
  simpa [Process.Acts] using Process.HasEffect.tick frame

/-- An action followed by a change of the variables that depends on its answer. -/
theorem Process.Acts.thenChange {α : Type} {process : Process α} {effect : MachineStep α}
    {change : α → Process Unit} {next : α → Frame} (h : process.Acts frame effect)
    (changed : ∀ value, (change value).HasEffect frame (Pure.pure ((), next value))) :
    Process.HasEffect (fun limit depth => do
      let value ← process limit depth
      change value limit depth
      return Flow.normal) frame (effect >>= fun value => Pure.pure (Flow.normal, next value)) := by
  refine Process.Acts.andThen h fun value => ?_
  exact Process.HasEffect.behind (fun _ _ _ => Pure.pure Flow.normal) (changed value)
    (Process.HasEffect.pure Flow.normal (next value))

/-- The declaration of one variable. -/
theorem Stmt.Acts.declareAs {name : String} {value : Expr} {effect : MachineStep Word}
    (h : Expr.Acts unit frame value effect) :
    Stmt.Acts unit frame (.declareAs name value) effect (frame.declare name) := by
  refine Stmt.Acts.intro ?_
  have declared := Process.Acts.thenChange h fun word =>
    Process.HasEffect.onFrame (fun current => current.declare name word) frame
  have composed := Process.Acts.andThen (Process.Acts.tick frame) fun _ => declared
  refine Eq.mp (congrArg _ (by simp)) (composed.congr 0 fun limit depth _ => ?_)
  simp [runStmt, Stmt.declareAs, evalExactly_one, evaluating, Run.declareAll, Run.declare]

/-- An assignment to a variable in scope. -/
theorem Process.HasEffect.assign {name : String} {value : Word} {scopes : List Scope}
    (found : Frame.assignIn name value frame.scopes = some scopes) :
    Process.HasEffect (fun _ _ => Run.assign name value) frame
      (Pure.pure ((), ⟨frame.routine, scopes⟩)) := by
  intro machine
  refine ⟨0, 0, fun limit depth budget _ => ?_⟩
  change (Run.assign name value).run ⟨machine, frame, budget⟩ = _
  unfold Run.assign
  rw [Step.bind_of_ok (show Run.frame.run ⟨machine, frame, budget⟩ = .ok frame _ from rfl), found]
  rfl

/-- The assignment to one variable. -/
theorem Stmt.Acts.assignTo {name : String} {value : Expr} {effect : MachineStep Word}
    {scopes : Word → List Scope} (h : Expr.Acts unit frame value effect)
    (found : ∀ word, Frame.assignIn name word frame.scopes = some (scopes word)) :
    Stmt.Acts unit frame (.assignTo name value) effect fun word => ⟨frame.routine, scopes word⟩ := by
  refine Stmt.Acts.intro ?_
  have assigned := Process.Acts.thenChange h fun word => Process.HasEffect.assign (found word)
  have composed := Process.Acts.andThen (Process.Acts.tick frame) fun _ => assigned
  refine Eq.mp (congrArg _ (by simp)) (composed.congr 0 fun limit depth _ => ?_)
  simp [runStmt, Stmt.assignTo, evalExactly_one, evaluating, Run.assignAll]

/-- An instruction without a value. -/
theorem Stmt.Acts.eval (operation : Builtin) {args : List Expr} {operands : MachineStep (List Word)}
    (h : Expr.ArgsAct unit frame args operands) (arity : args.length = operation.arity) :
    Stmt.Acts unit frame (.eval (.builtin operation args)) (operands >>= operation.apply)
      fun _ => frame := by
  refine Stmt.Acts.intro ?_
  have acted := Process.Acts.bind h fun values =>
    Process.HasEffect.onMachine (operation.apply values) frame
  have ended := Process.Acts.bind acted fun _ => Process.Acts.pure Flow.normal frame
  have composed := Process.Acts.andThen (Process.Acts.tick frame) fun _ => ended
  refine Eq.mp (congrArg _ (by simp)) (composed.congr 0 fun limit depth _ => ?_)
  simp [runStmt, evalMany, arity, evaluatingArgs]

/-- Nothing is left of a block. -/
theorem Block.Runs.nil (state : σ) {after : σ → Frame} (closed : frame.closed = after state) :
    Block.Runs unit frame [] (pure state) after := by
  intro machine
  refine ⟨0, 0, fun limit depth budget _ => ?_⟩
  change _ = EStateM.Result.ok _ _
  rw [← closed]
  rfl

/-- A statement and then the rest of the block. -/
theorem Block.Runs.cons {stmt : Stmt} {rest : List Stmt} {effect : MachineStep τ} {next : τ → Frame}
    {others : τ → MachineStep σ} {after : σ → Frame} (first : Stmt.Acts unit frame stmt effect next)
    (second : ∀ value, Block.Runs unit (next value) rest (others value) after) :
    Block.Runs unit frame (stmt :: rest) (effect >>= others) after := by
  have composed := Process.HasEffect.bind (continuing unit rest) first second
  unfold Block.Runs
  rw [bind_assoc]
  refine composed.congr 0 fun limit depth _ => ?_
  simp only [finishing, runAll, executing, bind_assoc]
  congr 1
  funext flow
  cases flow <;> simp [continuing, finishing]

/-- The last statement of a block. -/
theorem Block.Runs.last {stmt : Stmt} {effect : MachineStep σ} {next after : σ → Frame}
    (h : Stmt.Acts unit frame stmt effect next) (closed : ∀ value, (next value).closed = after value) :
    Block.Runs unit frame [stmt] effect after := by
  have runs := Block.Runs.cons h fun value => Block.Runs.nil value (closed value)
  rwa [bind_pure] at runs

/-- A statement that only has a value and then the rest of the block. -/
theorem Block.Runs.consValue {stmt : Stmt} {rest : List Stmt} {value : τ} {next : τ → Frame}
    {effect : MachineStep σ} {after : σ → Frame} (first : Stmt.Acts unit frame stmt (pure value) next)
    (second : Block.Runs unit (next value) rest effect after) :
    Block.Runs unit frame (stmt :: rest) effect after := by
  have moves : (executing unit stmt).HasEffect frame (Pure.pure (Flow.normal, next value)) := by
    simpa [Stmt.Acts] using first
  have composed := Process.HasEffect.behind (continuing unit rest) moves second
  refine composed.congr 0 fun limit depth _ => ?_
  simp only [finishing, runAll, executing, bind_assoc]
  congr 1
  funext flow
  cases flow <;> simp [continuing, finishing]

/-- Whether statements act as a step does, whatever follows them, and leave the variables alone. -/
def Block.Does (unit : CodeUnit) (frame : Frame) (stmts : List Stmt) (effect : MachineStep Unit) : Prop :=
  ∀ (σ : Type) (rest : List Stmt) (others : MachineStep σ) (after : σ → Frame),
    Block.Runs unit frame rest others after →
    Block.Runs unit frame (stmts ++ rest) (effect >>= fun _ => others) after

/-- No statements do nothing. -/
theorem Block.Does.nil : Block.Does unit frame [] (pure ()) := by
  intro σ rest others after runs
  simpa using runs

/-- A statement and others do one after the other. -/
theorem Block.Does.cons {stmt : Stmt} {stmts : List Stmt} {effect others : MachineStep Unit}
    (first : Stmt.Acts unit frame stmt effect fun _ => frame) (second : Block.Does unit frame stmts others) :
    Block.Does unit frame (stmt :: stmts) (effect >>= fun _ => others) := by
  intro σ rest last after runs
  rw [bind_assoc]
  exact Block.Runs.cons first fun _ => second _ _ _ _ runs

/-- Stores a word; the value acts before the address. -/
theorem Stmt.Acts.mstore {pointer value : Expr} {effect effect' : MachineStep Word}
    (first : Expr.Acts unit frame pointer effect) (second : Expr.Acts unit frame value effect') :
    Stmt.Acts unit frame (.mstore pointer value) (do
      let word ← effect'
      let address ← effect
      Machine.mstore address word) fun _ => frame := by
  have acts := Stmt.Acts.eval .mstore (Expr.ArgsAct.two first second) rfl
  refine Eq.mp (congrArg (fun step => Process.HasEffect _ _ step) ?_) acts
  simp [Builtin.apply]

/-- Stores a word at an address. -/
theorem Stmt.Acts.mstoreAt {pointer value : Expr} {address : Word} {effect : MachineStep Word}
    (first : Expr.Acts unit frame pointer (pure address)) (second : Expr.Acts unit frame value effect) :
    Stmt.Acts unit frame (.mstore pointer value) (effect >>= Machine.mstore address)
      fun _ => frame := by
  simpa using Stmt.Acts.mstore first second

/-- Stores a value at an address. -/
theorem Stmt.Acts.store {pointer value : Expr} {x y : Word}
    (first : Expr.Acts unit frame pointer (pure x)) (second : Expr.Acts unit frame value (pure y)) :
    Stmt.Acts unit frame (.mstore pointer value) (Machine.mstore x y) fun _ => frame := by
  simpa using Stmt.Acts.mstoreAt first second

/-- Copies within memory. -/
theorem Stmt.Acts.mcopy {target source length : Expr} {x y z : Word}
    (first : Expr.Acts unit frame target (pure x)) (second : Expr.Acts unit frame source (pure y))
    (third : Expr.Acts unit frame length (pure z)) :
    Stmt.Acts unit frame (.mcopy target source length) (Machine.mcopy x y z) fun _ => frame := by
  have acts := Stmt.Acts.eval .mcopy (Expr.ArgsAct.three first second third) rfl
  refine Eq.mp (congrArg (fun step => Process.HasEffect _ _ step) ?_) acts
  simp [Builtin.apply]

/-- Copies within memory from an address that acts behind the length. -/
theorem Stmt.Acts.mcopyFrom {target source length : Expr} {x z : Word} {effect : MachineStep Word}
    (first : Expr.Acts unit frame target (pure x)) (second : Expr.Acts unit frame source effect)
    (third : Expr.Acts unit frame length (pure z)) :
    Stmt.Acts unit frame (.mcopy target source length) (effect >>= fun y => Machine.mcopy x y z)
      fun _ => frame := by
  have acts := Stmt.Acts.eval .mcopy
    (Expr.ArgsAct.cons first (Expr.ArgsAct.two second third)) rfl
  refine Eq.mp (congrArg (fun step => Process.HasEffect _ _ step) ?_) acts
  simp [Builtin.apply]

/-- Copies call data to memory. -/
theorem Stmt.Acts.calldatacopy {target source length : Expr} {x y z : Word}
    (first : Expr.Acts unit frame target (pure x)) (second : Expr.Acts unit frame source (pure y))
    (third : Expr.Acts unit frame length (pure z)) :
    Stmt.Acts unit frame (.calldatacopy target source length) (Machine.calldatacopy x y z)
      fun _ => frame := by
  have acts := Stmt.Acts.eval .calldatacopy
    (Expr.ArgsAct.three first second third) rfl
  refine Eq.mp (congrArg (fun step => Process.HasEffect _ _ step) ?_) acts
  simp [Builtin.apply]

/-- Drops the value of an expression. -/
theorem Stmt.Acts.drop {value : Expr} {effect : MachineStep Word}
    (h : Expr.Acts unit frame value effect) :
    Stmt.Acts unit frame (.eval (.builtin .pop [value])) effect fun _ => frame := by
  have acts := Stmt.Acts.eval .pop (Expr.ArgsAct.one h) rfl
  refine Eq.mp (congrArg (fun step => Process.HasEffect _ _ step) ?_) acts
  simp [Builtin.apply]

/-- A block in a scope of its own. -/
theorem Block.Runs.block {body : Block} {effect : MachineStep σ} {after : σ → Frame}
    (h : Block.Runs unit frame.opened body effect after) :
    Process.HasEffect (fun limit depth => runBlock (execute unit limit depth) body) frame
      (effect >>= fun state => pure (Flow.normal, after state)) := by
  exact Process.HasEffect.behind (fun _ => finishing unit body) (Process.HasEffect.onFrame Frame.opened frame) h

/-- A revert without data ends the run. -/
theorem Stmt.Acts.revertEmpty (next : σ → Frame) :
    Stmt.Acts unit frame .revertEmpty (throw (.reverted [])) next := by
  have zero : Expr.Acts unit frame (.number 0) (pure 0#256) := Expr.Acts.number 0
  exact Stmt.Acts.eval .revert (Expr.ArgsAct.two zero zero) rfl

/-- A revert under a condition. -/
theorem Stmt.Acts.revertIf {condition : Expr} {effect : MachineStep Word}
    (h : Expr.Acts unit frame condition effect) :
    Stmt.Acts unit frame (Codec.revertIf condition) (effect >>= Machine.refuseIf) fun _ => frame := by
  refine Stmt.Acts.intro ?_
  have body : ∀ word, Process.HasEffect
      (fun limit depth => if word = 0#256 then Pure.pure Flow.normal
        else runBlock (execute unit limit depth) [.revertEmpty]) frame
      (Machine.refuseIf word >>= fun _ => Pure.pure (Flow.normal, frame)) := by
    intro word
    unfold Machine.refuseIf
    by_cases zero : word = 0#256
    · simpa [zero] using Process.HasEffect.pure Flow.normal frame
    · have refused : Block.Runs unit frame.opened [.revertEmpty]
          (throw (.reverted []) >>= fun _ : Unit => Pure.pure ()) fun _ => frame :=
        Block.Runs.cons (Stmt.Acts.revertEmpty fun _ => frame.opened) fun _ => Block.Runs.nil () rfl
      simpa [zero] using refused.block
  have composed := Process.Acts.andThen (Process.Acts.tick frame) fun _ =>
    Process.Acts.andThen h body
  refine Eq.mp (congrArg _ (by simp)) (composed.congr 0 fun limit depth _ => ?_)
  simp [runStmt, Codec.revertIf, evaluating]

/-- The rounds of a loop over a counter below a length, of which a number may be left out of the depth. -/
def counting (unit : CodeUnit) (counter : String) (length : Expr) (body : Block) (skipped : Nat) :
    Process Flow := fun limit depth =>
  runRounds unit limit (callWith unit (execute unit limit depth)) (execute unit limit depth)
    (.lt (.ident counter) length) [.assignTo counter (.add (.ident counter) (.number 1))] body
    (depth - skipped)

/-- What follows the body of a loop: the step and the other rounds, unless the body ends the routine. -/
def advancing (unit : CodeUnit) (counter : String) (length : Expr) (body : Block) (skipped : Nat) :
    Flow → Process Flow
  | .leave => fun _ _ => return Flow.leave
  | .normal => fun limit depth => do
    let _ ← runBlock (execute unit limit depth)
      [.assignTo counter (.add (.ident counter) (.number 1))]
    counting unit counter length body skipped limit depth

/-- What follows the start of a loop: all rounds and the end of its scope. -/
def looping (unit : CodeUnit) (counter : String) (length : Expr) (body : Block) : Flow → Process Flow
  | .leave => fun _ _ => do
    Run.closeScope
    return Flow.leave
  | .normal => fun limit depth => do
    let flow ← counting unit counter length body 0 limit depth
    Run.closeScope
    return flow

/-- A round of a loop behind its condition: nothing more for zero, else the body and what follows. -/
def deciding (unit : CodeUnit) (counter : String) (length : Expr) (body : Block) (skipped : Nat)
    (value : Word) : Process Flow := fun limit depth =>
  if value = 0#256 then return Flow.normal
  else do
    let flow ← runBlock (execute unit limit depth) body
    advancing unit counter length body skipped flow limit depth

/-- A loop begins with a step of the budget and its condition. -/
theorem counting_eq {counter : String} {length : Expr} {body : Block} {skipped limit depth : Nat}
    (enough : skipped + 1 ≤ depth) :
    counting unit counter length body skipped limit depth = (do
      Run.tick limit
      let value ← evaluating unit (.lt (.ident counter) length) limit depth
      deciding unit counter length body (skipped + 1) value limit depth) := by
  have rounds : depth - skipped = (depth - (skipped + 1)) + 1 := by omega
  rw [counting, rounds, runRounds]
  simp only [evaluating]
  congr 1
  funext _
  congr 1
  funext value
  unfold deciding
  split
  · rfl
  · congr 1
    funext flow
    cases flow <;> rfl

/-- The step of a loop moves its counter. -/
theorem Block.Runs.advance (counter : String) (index : Word) :
    Block.Runs unit (frame.counting counter index).opened
      [.assignTo counter (.add (.ident counter) (.number 1))] (pure (index + 1#256))
      (frame.counting counter) := by
  have found : (frame.counting counter index).opened.find? counter = some index := by
    simp [Frame.counting, Frame.opened, Frame.find?, Scope.find?, List.findSome?_cons]
  have sum : Expr.Acts unit (frame.counting counter index).opened
      (.add (.ident counter) (.number 1)) (pure (index + 1#256)) :=
    Expr.Acts.sum (Expr.Acts.ident found) (Expr.Acts.number 1)
  have assigned : ∀ word, Frame.assignIn counter word (frame.counting counter index).opened.scopes =
      some ([[], [(counter, word)]] ++ frame.scopes) := by
    simp [Frame.counting, Frame.opened, Frame.assignIn, Scope.assign?, Scope.find?, Scope.declare]
  exact Block.Runs.last (Stmt.Acts.assignTo sum assigned) fun _ => rfl

/-- A revert under a condition that has a value. -/
theorem Stmt.Acts.refuse {condition : Expr} {x : Word} (h : Expr.Acts unit frame condition (pure x)) :
    Stmt.Acts unit frame (Codec.revertIf condition) (Machine.refuseIf x) fun _ => frame := by
  simpa using Stmt.Acts.revertIf h

/-- A round of a loop acts as its decision does once the condition has a value. -/
theorem Process.HasEffect.decide {counter : String} {length : Expr} {body : Block} {skipped : Nat}
    {value : Word} {effect : MachineStep (Flow × Frame)}
    (compared : Expr.Acts unit frame (.lt (.ident counter) length) (Pure.pure value))
    (decided : (deciding unit counter length body (skipped + 1) value).HasEffect frame effect) :
    Process.HasEffect (counting unit counter length body skipped) frame effect := by
  have composed := Process.Acts.andThen (Process.Acts.tick frame) fun _ =>
    Process.HasEffect.behind (deciding unit counter length body (skipped + 1))
      (by simpa [Process.Acts, Expr.Acts] using compared) decided
  refine Process.HasEffect.congr (Eq.mp (congrArg _ (by simp)) composed) (skipped + 1)
    fun limit depth enough => counting_eq enough

/-- The rounds of a loop from an index on. The induction is on the number of rounds that are left. -/
theorem Process.HasEffect.rounds {counter : String} {length : Expr} {body : Block} {bound : Word}
    {outer : σ → Frame} {step : Word → σ → MachineStep σ}
    (measured : ∀ state index, Expr.Acts unit ((outer state).counting counter index) length (Pure.pure bound))
    (round : ∀ state index, Block.Runs unit ((outer state).counting counter index).opened body
      (step index state) fun next => (outer next).counting counter index)
    (left skipped : Nat) (index : Word) (state : σ) (reach : index.toNat + left = bound.toNat) :
    Process.HasEffect (counting unit counter length body skipped) ((outer state).counting counter index)
      (Machine.rounds step left index state >>= fun last =>
        Pure.pure (Flow.normal, (outer last).counting counter bound)) := by
  induction left generalizing skipped index state with
  | zero =>
    have same : index = bound := BitVec.eq_of_toNat_eq (by omega)
    subst same
    have compared : Expr.Acts unit ((outer state).counting counter index) (.lt (.ident counter) length)
        (Pure.pure 0#256) := by
      have acts := Expr.Acts.less (Expr.Acts.ident (Frame.find?_counting _ _ _)) (measured state index)
      rwa [decide_eq_false (BitVec.lt_irrefl index)] at acts
    have decided : Process.HasEffect (deciding unit counter length body (skipped + 1) 0#256)
        ((outer state).counting counter index)
        (Pure.pure (Flow.normal, (outer state).counting counter index)) :=
      Process.HasEffect.pure _ _
    exact Process.HasEffect.decide compared decided
  | succ left ih =>
    have below : index < bound := BitVec.lt_def.mpr (by omega)
    have moved : (index + 1#256).toNat = index.toNat + 1 := by
      have := bound.isLt
      rw [BitVec.toNat_add]
      simp
      omega
    have compared : Expr.Acts unit ((outer state).counting counter index) (.lt (.ident counter) length)
        (Pure.pure 1#256) := by
      have acts := Expr.Acts.less (Expr.Acts.ident (Frame.find?_counting _ _ _)) (measured state index)
      rwa [decide_eq_true below] at acts
    have advanced : ∀ next, Process.HasEffect
        (advancing unit counter length body (skipped + 1) .normal) ((outer next).counting counter index)
        (Machine.rounds step left (index + 1#256) next >>= fun last =>
          Pure.pure (Flow.normal, (outer last).counting counter bound)) := by
      intro next
      have moving : Process.HasEffect (fun limit depth => runBlock (execute unit limit depth)
          [.assignTo counter (.add (.ident counter) (.number 1))]) ((outer next).counting counter index)
          (Pure.pure (index + 1#256) >>= fun word => Pure.pure (Flow.normal, (outer next).counting counter word)) :=
        (Block.Runs.advance counter index).block
      rw [pure_bind] at moving
      have rest := ih (skipped + 1) (index + 1#256) next (by omega)
      exact Process.HasEffect.behind (fun _ => counting unit counter length body (skipped + 1)) moving rest
    have decided : Process.HasEffect (deciding unit counter length body (skipped + 1) 1#256)
        ((outer state).counting counter index) (step index state >>= fun next =>
          Machine.rounds step left (index + 1#256) next >>= fun last =>
            Pure.pure (Flow.normal, (outer last).counting counter bound)) :=
      Process.HasEffect.bind (advancing unit counter length body (skipped + 1)) (round state index).block advanced
    have continued := Process.HasEffect.decide compared decided
    rwa [← bind_assoc] at continued

/-- A loop over a counter, which acts once for each index below its length. -/
theorem Stmt.Acts.count {counter : String} {length : Expr} {body : Block} {bound : Word}
    (outer : σ → Frame) (step : Word → σ → MachineStep σ)
    (measured : ∀ state index, Expr.Acts unit ((outer state).counting counter index) length (pure bound))
    (round : ∀ state index, Block.Runs unit ((outer state).counting counter index).opened body
      (step index state) fun next => (outer next).counting counter index) (state : σ) :
    Stmt.Acts unit (outer state) (.count counter length body)
      (Machine.rounds step bound.toNat 0#256 state) outer := by
  refine Stmt.Acts.intro ?_
  have declared : (executing unit (.declareAs counter (.number 0))).HasEffect (outer state).opened
      (Pure.pure 0#256 >>= fun _ => Pure.pure (Flow.normal, (outer state).counting counter 0#256)) :=
    Stmt.Acts.declareAs (Expr.Acts.number 0)
  have closing : ∀ last, Process.HasEffect (fun _ _ => do
      Run.closeScope
      return Flow.normal) ((outer last).counting counter bound) (Pure.pure (Flow.normal, outer last)) :=
    fun last machine => ⟨0, 0, fun limit depth budget _ => rfl⟩
  have looped : Process.HasEffect (looping unit counter length body .normal)
      ((outer state).counting counter 0#256)
      (Machine.rounds step bound.toNat 0#256 state >>= fun last => Pure.pure (Flow.normal, outer last)) :=
    Process.HasEffect.bind _
      (Process.HasEffect.rounds measured round bound.toNat 0 0#256 state (by simp)) closing
  have entered := Process.HasEffect.bind (looping unit counter length body) declared fun _ => looped
  have opened := Process.HasEffect.behind (fun _ limit depth => do
      let flow ← executing unit (.declareAs counter (.number 0)) limit depth
      looping unit counter length body flow limit depth)
    (Process.HasEffect.onFrame Frame.opened (outer state)) entered
  have composed := Process.Acts.andThen (Process.Acts.tick (outer state)) fun _ => opened
  refine Eq.mp (congrArg _ (by simp)) (composed.congr 0 fun limit depth _ => ?_)
  simp only [runStmt, Stmt.count]
  congr 1
  funext _
  congr 1
  funext _
  simp only [runAll, executing, bind_assoc]
  congr 1
  funext flow
  cases flow <;> simp [looping, counting]

/-- Several declarations. -/
theorem Run.run_declareAll (entries : List (String × Word)) (machine : Machine) (frame : Frame)
    (budget : Nat) : (Run.declareAll entries).run ⟨machine, frame, budget⟩ =
      .ok () ⟨machine, frame.declareAll entries, budget⟩ := by
  induction entries generalizing frame with
  | nil => rfl
  | cons entry rest ih =>
    obtain ⟨name, value⟩ := entry
    have first : (Run.declare name value).run ⟨machine, frame, budget⟩ =
        .ok () ⟨machine, frame.declare name value, budget⟩ := rfl
    rw [Run.declareAll, Step.bind_of_ok first]
    exact ih (frame.declare name value)

/-- The values of variables in scope. -/
theorem Run.run_lookupAll {results : List RoutineParameter} {values : List Word} {state : RunState}
    (found : results.map (fun result => state.frame.find? result.name) = values.map some) :
    (results.mapM fun result => Run.lookup result.name).run state = .ok values state := by
  induction results generalizing values with
  | nil =>
    cases values with
    | nil => rfl
    | cons value others => simp at found
  | cons result rest ih =>
    cases values with
    | nil => simp at found
    | cons value others =>
      simp only [List.map_cons, List.cons.injEq] at found
      rw [List.mapM_cons, Step.bind_of_ok (Run.run_lookup found.1), Step.bind_of_ok (ih found.2)]
      rfl

end

end Yul

open Yul

/-- A routine answers with its results and leaves the variables of the caller alone. -/
theorem CodeUnit.CallActs.of_routine {unit : CodeUnit} {name : String} {args : List Word}
    {routine : Routine} {σ : Type} {effect : MachineStep σ} {after : σ → Frame} {values : σ → List Word}
    (found : unit.routine? name = some routine) (arity : routine.params.length = args.length)
    (runs : Block.Runs unit (routine.entry args).opened routine.body effect after)
    (answers : ∀ state, routine.returns.map (fun result => (after state).find? result.name) =
      (values state).map some) :
    unit.CallActs name args (effect >>= fun state => pure (values state)) := by
  intro frame
  let answering : Flow → Process (List Word) := fun _ _ _ => do
    let results ← routine.returns.mapM fun result => Run.lookup result.name
    Run.onFrame fun _ => frame
    return results
  have left : ∀ state, (answering .normal).HasEffect (after state) (pure (values state, frame)) := by
    intro state machine
    refine ⟨0, 0, fun limit depth budget _ => ?_⟩
    exact Step.bind_of_ok (Run.run_lookupAll (answers state))
  have ran := Process.HasEffect.bind answering runs.block left
  have called : (calling unit name args).HasEffect frame
      (effect >>= fun state => pure (values state, frame)) := by
    refine ran.enter fun limit depth machine budget => ?_
    have framed : Run.frame.run ⟨machine, frame, budget⟩ = .ok frame ⟨machine, frame, budget⟩ := rfl
    have emptied : (Run.onFrame fun _ => ⟨routine.name, [[]]⟩).run ⟨machine, frame, budget⟩ =
        .ok () ⟨machine, ⟨routine.name, [[]]⟩, budget⟩ := rfl
    simp only [calling, callWith, found, arity, ne_eq, not_true_eq_false, if_false]
    rw [Step.bind_of_ok framed, Step.bind_of_ok emptied, Step.bind_of_ok (Run.run_declareAll _ _ _ _),
      Step.bind_of_ok (Run.run_declareAll _ _ _ _)]
    rfl
  simpa [Process.Acts] using called

end YulAbi
