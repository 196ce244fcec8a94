import YulAbi.Offsets
import YulAbi.Proofs.Emission
import YulAbi.Proofs.Yul.Evaluation

/-!
# Values of emitted offsets

An offset or size is emitted as an expression that has its value wherever it stands,
whether it is a literal or a named constant.
-/

namespace YulAbi

open Yul (Expr)

/-- Whether an expression has a value whatever variables there are. -/
def Yul.Expr.IsNumber (unit : CodeUnit) (expr : Expr) (value : Word) : Prop :=
  ∀ frame, Expr.Acts unit frame expr (pure value)

namespace Offsets

variable {promise : Promise} {pending : List RequestKey}

/-- A word has its value, named or not. -/
theorem named_gives (useNames : Bool) (name : String) (value : Word) :
    Emission.Gives promise pending (named useNames name value) fun unit expr =>
      expr.IsNumber unit value := by
  unfold named
  cases useNames with
  | false => exact .pure fun unit frame => Expr.Acts.literal value
  | true =>
    refine (Emission.Gives.addConstant name value).weaken fun unit expr given frame => ?_
    obtain ⟨rfl, bound⟩ := given
    exact Expr.Acts.constant bound

/-- A fixed constant has its value. -/
theorem fixed_gives (useNames : Bool) (constant : FixedConstant) :
    Emission.Gives promise pending (fixed useNames constant) fun unit expr =>
      expr.IsNumber unit constant.value :=
  named_gives useNames constant.name constant.value

/-- A fixed constant changes no constant with another name, and is refused only if its own name stands for another
value. -/
theorem fixed_outcome (useNames : Bool) (constant : FixedConstant) (before : Workspace) :
    (∃ expr after, (fixed useNames constant).runOn before = (.ok expr, after) ∧
      ∀ other ≠ constant.name, after.unit.constant? other = before.unit.constant? other) ∨
    useNames = true ∧ ∃ bound, before.unit.constant? constant.name = some bound ∧ bound ≠ constant.value ∧
      (fixed useNames constant).runOn before =
        (.error (.constantConflict constant.name bound constant.value), before) := by
  cases useNames with
  | false => exact .inl ⟨_, before, rfl, fun _ _ => rfl⟩
  | true =>
    simp only [fixed, named, if_true, Emission.runOn_addConstant]
    cases added : before.unit.addConstant constant.name constant.value with
    | ok unit =>
      exact .inl ⟨_, _, rfl, fun other apart => CodeUnit.constant?_addConstant_of_ne apart added⟩
    | error cause =>
      unfold CodeUnit.addConstant at added
      split at added
      · cases added
      · rename_i bound found
        split at added <;> cases added
        exact .inr ⟨trivial, bound, found, ‹_›, rfl⟩

/-- A number of bytes has its value. -/
theorem words_gives (useNames : Bool) (bytes : Nat) :
    Emission.Gives promise pending (words useNames bytes) fun unit expr =>
      expr.IsNumber unit (Word.ofNat bytes) := by
  unfold words
  split
  · exact named_gives useNames _ _
  · exact named_gives useNames _ _
  · exact named_gives useNames _ _
  · exact named_gives useNames _ _
  · exact .pure fun unit frame => Expr.Acts.number bytes

/-- The offset of a part has its value. -/
theorem member_gives (useNames : Bool) (type : SolType) (index : Nat) (regime : Regime) :
    Emission.Gives promise pending (member useNames type index regime) fun unit expr =>
      ∃ offset, type.shape.memberOffset index regime = .ok offset ∧
        expr.IsNumber unit (Word.ofNat offset) := by
  refine (Emission.Gives.lift (type.shape.memberOffset index regime)).andThen fun offset => ?_
  have given : Emission.Gives promise pending (do
      if offset = 0 || !useNames then return .number offset
      let owner ← Emission.owner type.shape
      named useNames (owner ++ "_" ++ memberName type index ++ "_" ++ regime.suffix) (Word.ofNat offset))
      fun unit expr => expr.IsNumber unit (Word.ofNat offset) := by
    split
    · exact .pure fun unit frame => Expr.Acts.number offset
    · exact (Emission.Gives.owner type.shape).andThen fun owner =>
        (named_gives useNames _ _).weaken fun unit expr given _ => given
  exact given.weaken fun unit expr given measured => ⟨offset, measured, given⟩

/-- A size that belongs to a type has its value. -/
theorem ownedSize_gives (useNames : Bool) (shape : Shape) (suffix : String) (size : Nat) :
    Emission.Gives promise pending (ownedSize useNames shape suffix size) fun unit expr =>
      expr.IsNumber unit (Word.ofNat size) := by
  unfold ownedSize
  split
  · exact words_gives useNames size
  · exact (Emission.Gives.owner shape).andThen fun owner =>
      (named_gives useNames _ _).weaken fun unit expr given _ => given

/-- The size of the memory that a composite owns directly has its value. -/
theorem memoryHead_gives (useNames : Bool) (shape : Shape) :
    Emission.Gives promise pending (memoryHead useNames shape) fun unit expr =>
      ∃ size, shape.memorySize = .ok size ∧ expr.IsNumber unit (Word.ofNat size) :=
  (Emission.Gives.lift shape.memorySize).andThen fun size =>
    (ownedSize_gives useNames shape _ size).weaken fun _ _ given measured => ⟨size, measured, given⟩

/-- The size of the region of encoded heads has its value. -/
theorem callHead_gives (useNames : Bool) (shape : Shape) :
    Emission.Gives promise pending (callHead useNames shape) fun unit expr =>
      ∃ size, shape.headRegion = .ok size ∧ expr.IsNumber unit (Word.ofNat size) :=
  (Emission.Gives.lift shape.headRegion).andThen fun size =>
    (ownedSize_gives useNames shape _ size).weaken fun _ _ given measured => ⟨size, measured, given⟩

end Offsets

end YulAbi
