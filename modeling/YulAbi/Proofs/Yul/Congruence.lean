import YulAbi.Proofs.Step
import YulAbi.Yul.Interpreter

/-!
# Runs that are related part by part

Two runs of the same code, with different limits or nested to different depths, are made of the
same parts. A relation that holds between the parts, and is kept when they are put together,
holds between the runs. It may speak of budgets up to a bound: every step that is taken lowers
the bound by one, and code that may be nested no deeper has no budget left.
-/

namespace YulAbi.Yul

/-- A relation between two runs with budgets up to a bound. -/
abbrev RunRelation := (α : Type) → (bound : Nat) → Run α → Run α → Prop

/-- Whether a relation between runs with two limits holds of the parts of code and is kept when they are put together. -/
structure RunRelation.Congruent (related : RunRelation) (limit limit' : Nat) : Prop where
  /-- It holds of smaller budgets if it does of larger ones. -/
  fewer : ∀ {α bound bound'} {run run' : Run α}, bound' ≤ bound → related α bound run run' →
    related α bound' run run'
  /-- It holds of an answer. -/
  pure : ∀ {α bound} (value : α), related α bound (pure value) (pure value)
  /-- It holds of a fault that does not come from the budget. -/
  fault : ∀ {α bound fault}, (∀ other, fault ≠ .stepLimit other) → related α bound (throw fault) (throw fault)
  /-- It is kept by sequences. -/
  bind : ∀ {α β bound} {first first' : Run α} {next next' : α → Run β}, related α bound first first' →
    (∀ value, related β bound (next value) (next' value)) → related β bound (first >>= next) (first' >>= next')
  /-- It holds of an instruction. -/
  apply : ∀ {bound} (operation : Builtin) (values : List Word),
    related _ bound (Run.onMachine (operation.apply values)) (Run.onMachine (operation.apply values))
  /-- It holds of a change of the variables. -/
  onFrame : ∀ {bound} (change : Frame → Frame), related _ bound (Run.onFrame change) (Run.onFrame change)
  /-- It holds of a look at the variables. -/
  frame : ∀ {bound}, related _ bound Run.frame Run.frame
  /-- It holds behind a step with a budget that has one step more. -/
  tick : ∀ {α bound} {next next' : Run α}, related α bound next next' →
    related α (bound + 1) (Run.tick limit >>= fun _ => next) (Run.tick limit' >>= fun _ => next')
  /-- Without a budget it holds of runs that may be nested no deeper, -/
  stopped : ∀ {α}, related α 0 (throw (.stepLimit limit)) (throw (.stepLimit limit'))
  /-- also if only the first one may not. -/
  exhausted : ∀ {α} {next : Run α}, related α 0 (throw (.stepLimit limit)) (Run.tick limit' >>= fun _ => next)

namespace RunRelation.Congruent

section

variable {related : RunRelation} {limit limit' bound : Nat} {unit : CodeUnit} {caller caller' : Caller}

/-- Variables are looked up alike. -/
theorem lookup (congruent : related.Congruent limit limit') (name : String) :
    related _ bound (Run.lookup name) (Run.lookup name) := by
  refine congruent.bind congruent.frame fun frame => ?_
  cases frame.find? name with
  | some value => exact congruent.pure value
  | none => exact congruent.fault fun _ same => nomatch same

/-- Several variables are looked up alike. -/
theorem lookupAll (congruent : related.Congruent limit limit') (results : List RoutineParameter) :
    related _ bound (results.mapM fun result => Run.lookup result.name)
      (results.mapM fun result => Run.lookup result.name) := by
  induction results with
  | nil => exact congruent.pure []
  | cons result rest ih =>
    rw [List.mapM_cons]
    exact congruent.bind (congruent.lookup _) fun value => congruent.bind ih fun values =>
      congruent.pure (value :: values)

/-- Variables are declared alike. -/
theorem declareAll (congruent : related.Congruent limit limit') (entries : List (String × Word)) :
    related _ bound (Run.declareAll entries) (Run.declareAll entries) := by
  induction entries with
  | nil => exact congruent.pure ()
  | cons entry rest ih => exact congruent.bind (congruent.onFrame _) fun _ => ih

/-- Variables are assigned to alike. -/
theorem assignAll (congruent : related.Congruent limit limit') (entries : List (String × Word)) :
    related _ bound (Run.assignAll entries) (Run.assignAll entries) := by
  induction entries with
  | nil => exact congruent.pure ()
  | cons entry rest ih =>
    refine congruent.bind (congruent.bind congruent.frame fun frame => ?_) fun _ => ih
    split
    · exact congruent.onFrame _
    · exact congruent.fault fun _ same => nomatch same

/-- A single value is taken alike. -/
theorem singleValue (congruent : related.Congruent limit limit') (expr : Expr) (values : List Word) :
    related _ bound (singleValue expr values) (singleValue expr values) := by
  unfold Yul.singleValue
  split
  · exact congruent.pure _
  · exact congruent.fault fun _ same => nomatch same

/-- A number of values is required alike. -/
theorem requireValues (congruent : related.Congruent limit limit') (expr : Expr) (count : Nat) (values : List Word) :
    related _ bound (requireValues expr count values) (requireValues expr count values) := by
  unfold Yul.requireValues
  split
  · exact congruent.pure _
  · exact congruent.fault fun _ same => nomatch same

mutual
/-- Expressions are related if calls are. -/
theorem evalMany (congruent : related.Congruent limit limit')
    (calls : ∀ name args, related _ bound (caller name args) (caller' name args)) (expr : Expr) :
    related _ bound (evalMany unit caller expr) (evalMany unit caller' expr) := by
  cases expr with
  | literal value =>
    simp only [Yul.evalMany]
    exact congruent.pure _
  | ident name =>
    simp only [Yul.evalMany]
    exact congruent.bind (congruent.lookup name) fun value => congruent.pure _
  | constant name =>
    simp only [Yul.evalMany]
    cases unit.constant? name with
    | some value => exact congruent.pure _
    | none => exact congruent.fault fun _ same => nomatch same
  | builtin operation args =>
    simp only [Yul.evalMany]
    split
    · exact congruent.bind (congruent.evalArgs calls args) fun values => congruent.apply operation values
    · exact congruent.fault fun _ same => nomatch same
  | call name args =>
    simp only [Yul.evalMany]
    exact congruent.bind (congruent.evalArgs calls args) fun values => calls name values
/-- Arguments are related if calls are. -/
theorem evalArgs (congruent : related.Congruent limit limit')
    (calls : ∀ name args, related _ bound (caller name args) (caller' name args)) (args : List Expr) :
    related _ bound (evalArgs unit caller args) (evalArgs unit caller' args) := by
  cases args with
  | nil =>
    simp only [Yul.evalArgs]
    exact congruent.pure _
  | cons arg rest =>
    simp only [Yul.evalArgs]
    exact congruent.bind (congruent.evalArgs calls rest) fun others =>
      congruent.bind (congruent.evalMany calls arg) fun values =>
        congruent.bind (congruent.singleValue arg values) fun value => congruent.pure _
end

/-- Expressions with one value are related if calls are. -/
theorem evalOne (congruent : related.Congruent limit limit')
    (calls : ∀ name args, related _ bound (caller name args) (caller' name args)) (expr : Expr) :
    related _ bound (evalOne unit caller expr) (evalOne unit caller' expr) :=
  congruent.bind (congruent.evalMany calls expr) fun values => congruent.singleValue expr values

/-- Expressions with a number of values are related if calls are. -/
theorem evalExactly (congruent : related.Congruent limit limit')
    (calls : ∀ name args, related _ bound (caller name args) (caller' name args)) (expr : Expr) (count : Nat) :
    related _ bound (evalExactly unit caller expr count) (evalExactly unit caller' expr count) :=
  congruent.bind (congruent.evalMany calls expr) fun values => congruent.requireValues expr count values

end

section

variable {related : RunRelation} {limit limit' bound : Nat} {unit : CodeUnit} {execute execute' : Stmt → Run Flow}

/-- Sequences of statements are related if statements are. -/
theorem runAll (congruent : related.Congruent limit limit')
    (nested : ∀ stmt, related _ bound (execute stmt) (execute' stmt)) (stmts : List Stmt) :
    related _ bound (runAll execute stmts) (runAll execute' stmts) := by
  induction stmts with
  | nil => exact congruent.pure _
  | cons stmt rest ih =>
    refine congruent.bind (nested stmt) fun flow => ?_
    cases flow with
    | normal => exact ih
    | leave => exact congruent.pure _

/-- Blocks are related if statements are. -/
theorem runBlock (congruent : related.Congruent limit limit')
    (nested : ∀ stmt, related _ bound (execute stmt) (execute' stmt)) (block : Block) :
    related _ bound (runBlock execute block) (runBlock execute' block) :=
  congruent.bind (congruent.onFrame _) fun _ => congruent.bind (congruent.runAll nested block) fun flow =>
    congruent.bind (congruent.onFrame _) fun _ => congruent.pure flow

/-- Loops are related if statements and calls are, with as many rounds as steps or more. The induction is on the
rounds, each of which takes a step. -/
theorem runRounds {caller caller' : Caller} (congruent : related.Congruent limit limit')
    (calls : ∀ name args, related _ bound (caller name args) (caller' name args))
    (nested : ∀ stmt, related _ bound (execute stmt) (execute' stmt)) (condition : Expr) (step body : Block)
    (rounds more : Nat) (few : rounds ≤ bound) :
    related _ rounds (runRounds unit limit caller execute condition step body rounds)
      (runRounds unit limit' caller' execute' condition step body (rounds + more)) := by
  induction rounds with
  | zero =>
    cases more with
    | zero => exact congruent.stopped
    | succ more =>
      rw [Nat.zero_add]
      exact congruent.exhausted
  | succ rounds ih =>
    have below : rounds ≤ bound := by omega
    have calls' := fun name args => congruent.fewer below (calls name args)
    have nested' := fun stmt => congruent.fewer below (nested stmt)
    rw [show rounds + 1 + more = (rounds + more) + 1 by omega]
    refine congruent.tick (congruent.bind (congruent.evalOne calls' condition) fun value => ?_)
    split
    · exact congruent.pure _
    · refine congruent.bind (congruent.runBlock nested' body) fun flow => ?_
      cases flow with
      | normal => exact congruent.bind (congruent.runBlock nested' step) fun _ => ih below
      | leave => exact congruent.pure _

/-- Calls are related if statements are. -/
theorem callWith (congruent : related.Congruent limit limit')
    (nested : ∀ stmt, related _ bound (execute stmt) (execute' stmt)) (name : String) (args : List Word) :
    related _ bound (callWith unit execute name args) (callWith unit execute' name args) := by
  unfold Yul.callWith
  cases unit.routine? name with
  | none => exact congruent.fault fun _ same => nomatch same
  | some routine =>
    have body : related _ bound (do
        let outer ← Run.frame
        Run.onFrame fun _ => ⟨routine.name, [[]]⟩
        Run.declareAll ((routine.params.map RoutineParameter.name).zip args)
        Run.declareAll (routine.returns.map fun result => (result.name, 0#256))
        let _ ← Yul.runBlock execute routine.body
        let results ← routine.returns.mapM fun result => Run.lookup result.name
        Run.onFrame fun _ => outer
        return results) (do
        let outer ← Run.frame
        Run.onFrame fun _ => ⟨routine.name, [[]]⟩
        Run.declareAll ((routine.params.map RoutineParameter.name).zip args)
        Run.declareAll (routine.returns.map fun result => (result.name, 0#256))
        let _ ← Yul.runBlock execute' routine.body
        let results ← routine.returns.mapM fun result => Run.lookup result.name
        Run.onFrame fun _ => outer
        return results) :=
      congruent.bind congruent.frame fun outer => congruent.bind (congruent.onFrame _) fun _ =>
        congruent.bind (congruent.declareAll _) fun _ => congruent.bind (congruent.declareAll _) fun _ =>
          congruent.bind (congruent.runBlock nested routine.body) fun _ =>
            congruent.bind (congruent.lookupAll _) fun results =>
              congruent.bind (congruent.onFrame _) fun _ => congruent.pure results
    dsimp only
    split
    · exact congruent.bind (congruent.fault fun _ same => nomatch same) fun _ => body
    · exact body

/-- Statements are related if nested ones are, with one step more. -/
theorem runStmt (congruent : related.Congruent limit limit')
    (nested : ∀ stmt, related _ bound (execute stmt) (execute' stmt)) (more : Nat) (stmt : Stmt) :
    related _ (bound + 1) (runStmt unit limit execute bound stmt)
      (runStmt unit limit' execute' (bound + more) stmt) := by
  have calls : ∀ name args, related _ bound (Yul.callWith unit execute name args)
      (Yul.callWith unit execute' name args) := congruent.callWith nested
  refine congruent.tick ?_
  cases stmt with
  | declare names value =>
    cases value with
    | none => exact congruent.bind (congruent.declareAll _) fun _ => congruent.pure _
    | some value =>
      exact congruent.bind (congruent.evalExactly calls value _) fun values =>
        congruent.bind (congruent.declareAll _) fun _ => congruent.pure _
  | assign names value =>
    exact congruent.bind (congruent.evalExactly calls value _) fun values =>
      congruent.bind (congruent.assignAll _) fun _ => congruent.pure _
  | eval expr => exact congruent.bind (congruent.evalMany calls expr) fun _ => congruent.pure _
  | branch condition body =>
    refine congruent.bind (congruent.evalOne calls condition) fun value => ?_
    split
    · exact congruent.pure _
    · exact congruent.runBlock nested body
  | loop start condition step body =>
    refine congruent.bind (congruent.onFrame _) fun _ => congruent.bind (congruent.runAll nested start) fun flow => ?_
    cases flow with
    | normal =>
      exact congruent.bind (congruent.runRounds calls nested condition step body bound more (Nat.le_refl _)) fun flow =>
        congruent.bind (congruent.onFrame _) fun _ => congruent.pure flow
    | leave =>
      exact congruent.bind (congruent.pure _) fun flow => congruent.bind (congruent.onFrame _) fun _ =>
        congruent.pure flow
  | leave => exact congruent.pure _

end

/-- Statements are related when they may be nested as deep as there are steps, or deeper. The induction is on the
depth: a statement takes a step, and those nested in it have one step less. -/
theorem execute {related : RunRelation} {limit limit' : Nat} (congruent : related.Congruent limit limit')
    (unit : CodeUnit) (depth more : Nat) (stmt : Stmt) :
    related _ depth (Yul.execute unit limit depth stmt) (Yul.execute unit limit' (depth + more) stmt) := by
  induction depth generalizing stmt with
  | zero =>
    cases more with
    | zero => exact congruent.stopped
    | succ more =>
      rw [Nat.zero_add]
      exact congruent.exhausted
  | succ depth ih =>
    rw [show depth + 1 + more = (depth + more) + 1 by omega]
    exact congruent.runStmt ih more stmt

/-- So are calls. -/
theorem call {related : RunRelation} {limit limit' : Nat} (congruent : related.Congruent limit limit')
    (unit : CodeUnit) (depth more : Nat) (name : String) (args : List Word) :
    related _ depth (Yul.callWith unit (Yul.execute unit limit depth) name args)
      (Yul.callWith unit (Yul.execute unit limit' (depth + more)) name args) :=
  congruent.callWith (congruent.execute unit depth more) name args

end RunRelation.Congruent

end YulAbi.Yul
