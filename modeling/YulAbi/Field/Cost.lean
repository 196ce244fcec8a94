import YulAbi.Settings
import YulAbi.Word

/-!
# Cost of code

The cost of a piece of code is the gas that it takes to run and the bytes that it
takes to store. Costs are compared by a score, gas plus bytes times a ratio; between
equal scores the preferred quantity decides, then the other one.
-/

namespace YulAbi

/-- Gas and bytes of a piece of code. -/
structure Cost where
  /-- Gas. -/
  gas : Nat
  /-- Bytes. -/
  bytes : Nat
  deriving DecidableEq, Repr

namespace Cost

/-- No cost. -/
def zero : Cost := ⟨0, 0⟩

/-- The cost of two pieces of code together. -/
def add (left right : Cost) : Cost := ⟨left.gas + right.gas, left.bytes + right.bytes⟩

/-- Costs are added side by side. -/
instance : Add Cost := ⟨add⟩

/-- An instruction of the cheapest tier, also a copy of a stack word. -/
def operation : Cost := ⟨3, 1⟩

/-- A read of storage that was read before. -/
def storageRead : Cost := ⟨100, 1⟩

/-- A write to storage that was read before and is not zero. -/
def storageWrite : Cost := ⟨2900, 1⟩

/-- A literal: the shortest instruction that holds it. -/
def push (value : Word) : Cost :=
  if value = 0#256 then ⟨2, 1⟩ else ⟨3, 1 + Word.byteLength value⟩

/-- A literal number. -/
def pushNat (value : Nat) : Cost := push (Word.ofNat value)

/-- The double nearest to a number below two to the power 64. -/
def asDouble (value : Nat) : Float := (UInt64.ofNat value).toFloat

/-- The score of a cost. -/
def score (cost : Cost) (model : CostModel) : Float :=
  asDouble cost.gas + asDouble cost.bytes * model.ratio

/-- The rank of a double in the total order of doubles, in which negative zero comes before zero. -/
def rank (value : Float) : Int :=
  let bits := value.toBits.toNat
  if bits < 0x8000000000000000 then Int.ofNat bits else -(Int.ofNat (bits - 0x8000000000000000)) - 1

/-- Orders costs by score; between equal scores the preferred quantity decides, then the other one. -/
def compare (left right : Cost) (model : CostModel) : Ordering :=
  let byScore := Ord.compare (rank (left.score model)) (rank (right.score model))
  let byGas := Ord.compare left.gas right.gas
  let byBytes := Ord.compare left.bytes right.bytes
  match model.preferred with
  | .gas => byScore.then (byGas.then byBytes)
  | .size => byScore.then (byBytes.then byGas)

end Cost

end YulAbi
