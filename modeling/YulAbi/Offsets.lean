import YulAbi.Emission
import YulAbi.Shape.Geometry
import YulAbi.SolType
import YulAbi.Text

/-!
# Offsets and sizes in generated code

Numbers that generated code needs become named constants, or literals when named
constants are not wanted. Zero is always the literal, so that adding it leaves
nothing behind.
-/

namespace YulAbi

open Yul (Expr)

/-- A constant with a fixed name and value. -/
inductive FixedConstant where
  /-- One word less one byte. -/
  | almostOneWord
  /-- Two words less one byte. -/
  | almostTwoWords
  /-- All bits but those that count bytes within a word. -/
  | fullWordMask
  /-- Where memory holds the free memory pointer. -/
  | freePointerSlot
  /-- The greatest length that is accepted. -/
  | maxLength
  deriving DecidableEq, Repr

namespace FixedConstant

/-- The name of the constant. -/
def name : FixedConstant → String
  | .almostOneWord => "AlmostOneWord"
  | .almostTwoWords => "AlmostTwoWords"
  | .fullWordMask => "OnlyFullWordMask"
  | .freePointerSlot => "FreeMemoryPointerSlot"
  | .maxLength => "MaxLength"

/-- The value of the constant. -/
def value : FixedConstant → Word
  | .almostOneWord => 31#256
  | .almostTwoWords => 63#256
  | .fullWordMask => ~~~31#256
  | .freePointerSlot => 0x40#256
  | .maxLength => 0xffffffffffffffff#256

/-- All of them. -/
def all : List FixedConstant :=
  [.almostOneWord, .almostTwoWords, .fullWordMask, .freePointerSlot, .maxLength]

end FixedConstant

/-- The suffix of constants that hold offsets of a layout. -/
def Regime.suffix : Regime → String
  | .calldata => "cd_offset"
  | .memory => "mem_offset"
  | .packed => "bit_offset"

namespace Offsets

/-- A word under a name, or the word itself when constants are not named. -/
def named (useNames : Bool) (name : String) (value : Word) : Emission Expr :=
  if useNames then Emission.addConstant name value else return .literal value

/-- A fixed constant. -/
def fixed (useNames : Bool) (constant : FixedConstant) : Emission Expr :=
  named useNames constant.name constant.value

/-- A number of bytes; one to four words have a name. -/
def words (useNames : Bool) (bytes : Nat) : Emission Expr :=
  match bytes with
  | 32 => named useNames "OneWord" (Word.ofNat 32)
  | 64 => named useNames "TwoWords" (Word.ofNat 64)
  | 96 => named useNames "ThreeWords" (Word.ofNat 96)
  | 128 => named useNames "FourWords" (Word.ofNat 128)
  | _ => return .number bytes

/-- The name of a part: its label, or its index if it has none. -/
def memberName (type : SolType) (index : Nat) : String :=
  match type.members[index]?.bind Labelled.label with
  | some label => Identifier.sanitize label
  | none => s!"e{index}"

/-- The offset of a part relative to the first one. -/
def member (useNames : Bool) (type : SolType) (index : Nat) (regime : Regime) : Emission Expr := do
  let offset ← type.shape.memberOffset index regime
  if offset = 0 || !useNames then return .number offset
  let owner ← Emission.owner type.shape
  named useNames (owner ++ "_" ++ memberName type index ++ "_" ++ regime.suffix) (Word.ofNat offset)

/-- A size that belongs to a type; nothing and one word have no name of their own. -/
def ownedSize (useNames : Bool) (shape : Shape) (suffix : String) (size : Nat) : Emission Expr := do
  if size = 0 || size = wordBytes || !useNames then words useNames size
  else
    let owner ← Emission.owner shape
    named useNames (owner ++ "_" ++ suffix) (Word.ofNat size)

/-- The size of the memory that a composite owns directly. -/
def memoryHead (useNames : Bool) (shape : Shape) : Emission Expr := do
  ownedSize useNames shape "head_size" (← shape.memorySize)

/-- The size of the region of encoded heads. -/
def callHead (useNames : Bool) (shape : Shape) : Emission Expr := do
  ownedSize useNames shape "cd_head_size" (← shape.headRegion)

end Offsets

end YulAbi
