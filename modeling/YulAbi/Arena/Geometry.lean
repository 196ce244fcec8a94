import YulAbi.Arena
import YulAbi.Shape.Segments
import YulAbi.Value.Encoding

/-!
# Queries about nodes

Sizes, offsets and encodings are asked of nodes. A query looks at what the node is and may be put
again to the nodes it is made of, which come before it. What it cannot answer is an error that
names the identifier of the node.
-/

namespace YulAbi

/-- The total of sizes, or the first error. -/
def total {α : Type} (size : α → Generated Nat) : List α → Generated Nat
  | [] => .ok 0
  | part :: rest => do
    let own ← size part
    let others ← total size rest
    return own + others

/-- Where fields of some widths start from `cursor` on, and where the last one ends. -/
def packedStarts (cursor : Nat) : List Nat → List Nat × Nat
  | [] => ([], cursor)
  | width :: rest =>
    let start := Shape.nextFieldStart cursor width
    let (starts, stop) := packedStarts (start + width) rest
    (start :: starts, stop)

namespace Arena

/-- The answer to a query that may be put again to earlier nodes. -/
def descend {α : Type} (outside : α) (query : (NodeId → α) → NodeId → α) (id : NodeId) : α :=
  query (fun child => if child < id then descend outside query child else outside) id
  termination_by id

section

variable (arena : Arena)

/-- Whether values of a node are a single word. -/
def isValueType (id : NodeId) : Bool :=
  match arena.kind id with
  | .bool | .address | .integer .. | .enumeration .. | .fixedBytes _ | .userDefined .. | .function .. => true
  | _ => false

/-- Whether values of a node live in memory behind a pointer. -/
def isReferenceType (id : NodeId) : Bool :=
  match arena.kind id with
  | .bytes | .string | .array .. | .struct .. | .tuple _ => true
  | _ => false

/-- Whether values of a node are raw bytes behind a length word. -/
def isBytesLike (id : NodeId) : Bool :=
  match arena.kind id with
  | .bytes | .string => true
  | _ => false

/-- Whether the number of parts of a node varies. -/
def isDynamicallySized (id : NodeId) : Bool :=
  match arena.kind id with
  | .bytes | .string | .array _ none => true
  | _ => false

/-- Whether the significant bits are at the high end of the word. -/
def isLeftAligned : NodeId → Bool :=
  descend false fun again id =>
    match arena.kind id with
    | .fixedBytes _ | .function .. => true
    | .userDefined _ underlying => again underlying
    | _ => false

/-- Whether values are sign-extended. -/
def isSigned : NodeId → Bool :=
  descend false fun again id =>
    match arena.kind id with
    | .integer signed _ => signed
    | .userDefined _ underlying => again underlying
    | _ => false

/-- Whether the encoding has a tail behind an offset. -/
def isDynamicallyEncoded : NodeId → Bool :=
  descend false fun again id =>
    arena.isDynamicallySized id ||
      match arena.kind id with
      | .array base _ => again base
      | .struct _ members | .tuple members => members.any again
      | .error _ parameters | .event _ parameters _ _ _ => again parameters
      | _ => false

/-- The size of a static encoding. -/
def encodedSize : NodeId → Generated Nat :=
  descend (.ok 0) fun again id =>
    if arena.isDynamicallyEncoded id then (arena.shape id).undefinedSize .encodedSize
    else
      match arena.kind id with
      | .array base (some length) => do (arena.shape id).checkedProduct length (← again base)
      | .struct _ members | .tuple members => total again members
      | .error _ parameters | .event _ parameters _ _ _ => again parameters
      | _ => .ok wordBytes

/-- The size of the head: one word for a dynamic encoding, the whole encoding otherwise. -/
def headSize : NodeId → Generated Nat :=
  descend (.ok 0) fun again id =>
    match arena.kind id with
    | .error _ parameters | .event _ parameters _ _ _ => again parameters
    | _ => if arena.isDynamicallyEncoded id then .ok wordBytes else arena.encodedSize id

/-- The size of the fixed part of a dynamic encoding. -/
def tailSize : NodeId → Generated Nat :=
  descend (.ok 0) fun again id =>
    if arena.isDynamicallyEncoded id then
      match arena.kind id with
      | .bytes | .string | .array _ none => .ok wordBytes
      | .array base (some length) => do (arena.shape id).checkedProduct length (← arena.headSize base)
      | .struct _ members | .tuple members => total arena.headSize members
      | .error _ parameters | .event _ parameters _ _ _ => again parameters
      | _ => (arena.shape id).undefinedSize .encodedTailSize
    else (arena.shape id).undefinedSize .encodedTailSize

/-- The size of a node in the memory of its owner, always one word. -/
def memoryHeadSize (_ : NodeId) : Nat := wordBytes

/-- The size of the memory that a value owns directly. -/
def memorySize : NodeId → Generated Nat :=
  descend (.ok 0) fun again id =>
    match arena.kind id with
    | .bytes | .string | .array _ none => (arena.shape id).undefinedSize .memorySize
    | .array _ (some length) => (arena.shape id).checkedProduct length wordBytes
    | .struct _ members | .tuple members => .ok (members.length * wordBytes)
    | .error _ parameters | .event _ parameters _ _ _ => again parameters
    | _ => .ok wordBytes

/-- The memory that a value owns together with all its parts. -/
def extendedMemorySize : NodeId → Generated Nat :=
  descend (.ok 0) fun again id => do
    let own ← arena.memorySize id
    match arena.kind id with
    | .array base (some length) =>
      if arena.isReferenceType base then
        let nested ← (arena.shape id).checkedProduct length (← again base)
        return own + nested
      else return own
    | .struct _ members | .tuple members =>
      let nested ← total again (members.filter arena.isReferenceType)
      return own + nested
    | .error _ parameters | .event _ parameters _ _ _ => again parameters
    | _ => return own

/-- The distance between the heads of two elements. -/
def callStride (id : NodeId) : Generated Nat :=
  match arena.kind id with
  | .array base _ => arena.headSize base
  | _ => (arena.shape id).undefinedSize .callStride

/-- The distance between two elements in memory. -/
def memoryStride (id : NodeId) : Generated Nat :=
  match arena.kind id with
  | .array base _ => .ok (memoryHeadSize base)
  | _ => (arena.shape id).undefinedSize .memoryStride

/-- Where the elements or members of a node start in the packed layout, and where the last one ends. The width of a
part is asked of `width`. -/
def packedLayout (width : NodeId → Generated Nat) (id : NodeId) : Generated (List Nat × Nat) := do
  let widths ← match arena.kind id with
    | .array base (some length) => do pure (List.replicate length (← width base))
    | .struct _ members | .tuple members => members.mapM width
    | _ => (arena.shape id).undefinedSize .packedLayout
  return packedStarts 0 widths

/-- The width in bits without padding. -/
def exactBits : NodeId → Generated Nat :=
  descend (.ok 0) fun again id =>
    match arena.kind id with
    | .bool => .ok 8
    | .address => .ok 160
    | .integer _ bits => .ok bits
    | .enumeration _ memberCount => .ok (enumerationBits memberCount)
    | .fixedBytes size => .ok (size * 8)
    | .userDefined _ underlying => again underlying
    | .function .. => .ok 192
    | .array .. | .struct .. | .tuple _ =>
      if arena.isDynamicallyEncoded id then (arena.shape id).undefinedSize .exactBits
      else do return (← arena.packedLayout again id).2
    | _ => (arena.shape id).undefinedSize .exactBits

/-- The number of reference levels, the node itself included. -/
def nestedReferences : NodeId → Nat :=
  descend 0 fun again id =>
    match arena.kind id with
    | .bytes | .string => 1
    | .array base _ => 1 + again base
    | .struct _ members | .tuple members => 1 + (members.map again).foldr (· + ·) 0
    | .error _ parameters | .event _ parameters _ _ _ => ((arena.members parameters).map again).foldr (· + ·) 0
    | _ => 0

/-- The number of levels that vary in size, the node itself included. -/
def nestedDynamics : NodeId → Nat :=
  descend 0 fun again id =>
    match arena.kind id with
    | .bytes | .string => 1
    | .array base length => (if length.isNone then 1 else 0) + again base
    | .struct _ members | .tuple members => (members.map again).foldr (· + ·) 0
    | .error _ parameters | .event _ parameters _ _ _ => again parameters
    | _ => 0

/-- The packed offset of a part. -/
def packedOffset (id : NodeId) (index : Nat) : Generated Nat := do
  let (starts, _) ← arena.packedLayout arena.exactBits id
  return starts[index]?.getD 0

/-- The offset of a part relative to the first one. -/
def memberOffset (id : NodeId) (index : Nat) (regime : Regime) : Generated Nat :=
  descend (.ok 0) (fun again id =>
    match arena.kind id with
    | .struct _ members | .tuple members =>
      if index < members.length then
        match regime with
        | .calldata => total arena.headSize (members.take index)
        | .memory => .ok (index * wordBytes)
        | .packed => arena.packedOffset id index
      else (arena.shape id).unknownPart index
    | .array _ length =>
      if length.any (· ≤ index) then (arena.shape id).unknownPart index
      else
        match regime with
        | .calldata => do (arena.shape id).checkedProduct index (← arena.callStride id)
        | .memory => do (arena.shape id).checkedProduct index (← arena.memoryStride id)
        | .packed => arena.packedOffset id index
    | .userDefined .. => if index = 0 then .ok 0 else (arena.shape id).undefinedSize .memberOffset
    | .error _ parameters | .event _ parameters _ _ _ => again parameters
    | _ => (arena.shape id).undefinedSize .memberOffset) id

/-- The strategy of an array; other nodes have none. -/
def arrayStrategy (id : NodeId) : Generated ArrayStrategy :=
  match arena.kind id with
  | .array base _ =>
    if arena.isValueType base then .ok .valueInline
    else if arena.nestedReferences base < 2 ∧ arena.nestedDynamics base < 2 then
      .ok (if arena.isDynamicallyEncoded base then .combinedDynamicTail else .combinedStaticTail)
    else .ok .separateTail
  | _ => .error (.unsupportedShape (arena.identifier id) .arrayStrategy)

/-- How many of the following members a segment reaches when `cap` references may be bridged in a row and `bridged` of
them were just seen. -/
def segmentReach (cap bridged : Nat) : List NodeId → Generated Nat
  | [] => .ok 0
  | member :: rest => do
    let size ← arena.headSize member
    if size ≠ wordBytes then return 0
    else if arena.isValueType member then return (← segmentReach cap 0 rest) + 1
    else if cap < bridged + 1 then return 0
    else return (← segmentReach cap (bridged + 1) rest) + 1

/-- How many members are left without the references at the end. -/
def valueExtent (members : List NodeId) : Nat :=
  (members.reverse.dropWhile fun member => !arena.isValueType member).length

/-- How many of the following members a segment takes: those that it reaches, without the references at the end. -/
def segmentExtent (cap : Nat) (members : List NodeId) : Generated Nat := do
  return arena.valueExtent (members.take (← arena.segmentReach cap 0 members))

/-- Checks that the members from `index` on advance by one word each on both sides, `step` words behind the start of
their segment. -/
def checkSteps (owner : NodeId) (callStart memoryStart : Nat) (index step : Nat) : (count : Nat) → Generated Unit
  | 0 => .ok ()
  | count + 1 => do
    let callOffset := (← arena.memberOffset owner index .calldata) - callStart
    let memoryOffset := (← arena.memberOffset owner index .memory) - memoryStart
    if callOffset = step * wordBytes ∧ memoryOffset = step * wordBytes then
      checkSteps owner callStart memoryStart (index + 1) (step + 1) count
    else .error (.segmentMismatch (arena.identifier owner) index callOffset memoryOffset)

/-- The segment of the members from `start` up to `stop`, after checking their offsets. -/
def segmentAt (owner : NodeId) (start stop : Nat) : Generated Segment := do
  let callOffset ← arena.memberOffset owner start .calldata
  let memoryOffset ← arena.memberOffset owner start .memory
  arena.checkSteps owner callOffset memoryOffset start 0 (stop - start)
  return ⟨start, stop, callOffset, memoryOffset⟩

/-- Splits the members from `index` on. -/
def segmentsFrom (owner : NodeId) (cap index : Nat) (members : List NodeId) : Generated Segmentation :=
  match members with
  | [] => .ok ⟨[], []⟩
  | member :: rest => do
    if arena.isValueType member then
      let extent ← arena.segmentExtent cap rest
      let segment ← arena.segmentAt owner index (index + 1 + extent)
      let others ← segmentsFrom owner cap (index + 1 + extent) (rest.drop extent)
      return ⟨segment :: others.segments, others.standalone⟩
    else
      let others ← segmentsFrom owner cap (index + 1) rest
      return ⟨others.segments, index :: others.standalone⟩
  termination_by members.length
  decreasing_by all_goals simp_all; try omega

/-- Splits the members of a struct or tuple; at most `cap` references in a row are bridged. -/
def segmentation (id : NodeId) (cap : Nat) : Generated Segmentation :=
  match arena.kind id with
  | .struct _ members | .tuple members => arena.segmentsFrom id cap 0 members
  | _ => .error (.unsupportedShape (arena.identifier id) .segmentation)

/-- The canonical type string. -/
def abiType : NodeId → String :=
  descend "" fun again id =>
    match arena.kind id with
    | .bool => "bool"
    | .address => "address"
    | .integer signed bits => Shape.integerText signed bits
    | .enumeration .. => "uint8"
    | .fixedBytes size => s!"bytes{size}"
    | .userDefined _ underlying => again underlying
    | .bytes => "bytes"
    | .string => "string"
    | .array base length => again base ++ Shape.arraySuffix length
    | .struct _ members | .tuple members => "(" ++ ",".intercalate (members.map again) ++ ")"
    | .function .. => "function"
    | .error name parameters | .event name parameters _ _ _ => name ++ again parameters

/-- The encoding of parts with their values: heads in order, then the tails of the dynamic ones. -/
def encodeParts (encode : NodeId → Value → Except Fault (List UInt8)) (members : List NodeId)
    (values : List Value) : Except Fault (List UInt8) := do
  let headSize ← Value.requireSize (total
    (fun member => if arena.isDynamicallyEncoded member then .ok wordBytes else arena.encodedSize member) members)
  let parts ← (members.zip values).mapM fun part => do
    return (arena.isDynamicallyEncoded part.1, ← encode part.1 part.2)
  return Value.assemble headSize parts

/-- The encoding of a value as a value of a node. -/
def encodeAs : NodeId → Value → Except Fault (List UInt8) :=
  descend (fun _ => .ok []) fun again id value =>
    if arena.isValueType id then do return Word.toBytes (← Value.requireWord (arena.shape id) value)
    else
      match arena.kind id, value with
      | .bytes, .bytes content | .string, .bytes content => .ok (Value.encodeBytes content)
      | .array base length, .array elements => do
        Value.requireElements (arena.shape id) length elements
        let parts ← arena.encodeParts again (List.replicate elements.length base) elements
        return Value.lengthWord length elements.length ++ parts
      | .struct _ members, .tuple values | .tuple members, .tuple values => do
        Value.requireMembers (arena.shape id) members.length values
        arena.encodeParts again members values
      | _, value => Value.mismatch (arena.shape id) (.wrongKind value.kind)

end

end Arena

end YulAbi
