import YulAbi.Shape.Geometry

/-!
# How composites are copied

Arrays are moved by one of several strategies, and the members of structs in runs that are
copied in bulk.
-/

/-! ### How arrays are copied

An array whose elements are words, or hold at most one level of references and
one level that varies in size, is copied between call data and memory in bulk.
All other arrays are handled element by element. -/

namespace YulAbi

/-- How the elements of an array are moved. -/
inductive ArrayStrategy where
  /-- Elements are words: the whole array is one copy. -/
  | valueInline
  /-- Elements are static and laid out alike on both sides: one copy of all elements, then a loop
  that writes the pointers to them. -/
  | combinedStaticTail
  /-- Elements hold one level of dynamic data: the offsets must be the canonical ones, then all
  tails are one copy. -/
  | combinedDynamicTail
  /-- A nested routine is called for each element. -/
  | separateTail
  deriving DecidableEq, Repr

/-- The wording of a strategy. -/
def ArrayStrategy.text : ArrayStrategy → String
  | .valueInline => "value-inline"
  | .combinedStaticTail => "combined-static-tail"
  | .combinedDynamicTail => "combined-dynamic-tail"
  | .separateTail => "separate-tail"

namespace Shape

/-- The strategy for arrays with the given elements. -/
def elementStrategy (base : Shape) : ArrayStrategy :=
  if base.isValueType then .valueInline
  else if base.nestedReferences < 2 ∧ base.nestedDynamics < 2 then
    if base.isDynamicallyEncoded then .combinedDynamicTail else .combinedStaticTail
  else .separateTail

/-- The strategy of an array; other shapes have none. -/
def arrayStrategy : Shape → Generated ArrayStrategy
  | .array base _ => .ok base.elementStrategy
  | shape => .error (.unsupportedShape shape.identifier .arrayStrategy)

end Shape

end YulAbi

/-! ### Runs of members that are copied in bulk

The members of a struct are split into segments, each copied by one instruction,
and standalone references. A segment starts and ends with a value, all its heads
are one word, and it bridges at most a given number of references in a row, whose
heads are overwritten later. -/

namespace YulAbi

/-- A run of members that is copied in bulk. -/
structure Segment where
  /-- Index of the first member. -/
  start : Nat
  /-- Index behind the last member. -/
  stop : Nat
  /-- Offset of the first member among the encoded heads. -/
  callOffset : Nat
  /-- Offset of the first member in memory. -/
  memoryOffset : Nat
  deriving DecidableEq, Repr

namespace Segment

/-- The number of members. -/
def length (segment : Segment) : Nat := segment.stop - segment.start

/-- The number of bytes that are copied. -/
def byteLength (segment : Segment) : Nat := segment.length * wordBytes

/-- Whether a member lies in the segment. -/
def contains (segment : Segment) (index : Nat) : Bool := segment.start ≤ index && index < segment.stop

/-- The indices of the members in order. -/
def indices (segment : Segment) : List Nat := List.range' segment.start segment.length

end Segment

/-- How the members of a struct are copied. -/
structure Segmentation where
  /-- Runs that are copied in bulk, in order. -/
  segments : List Segment
  /-- References outside every run, in order. -/
  standalone : List Nat
  deriving DecidableEq, Repr

namespace Segmentation

/-- The first segment that holds a member. -/
def segmentOf? (segmentation : Segmentation) (index : Nat) : Option Segment :=
  segmentation.segments.find? (·.contains index)

/-- All indices that segments and standalone members cover, with repetitions. -/
def coveredIndices (segmentation : Segmentation) : List Nat :=
  segmentation.segments.flatMap Segment.indices ++ segmentation.standalone

/-- Whether every index below `memberCount` is covered once and no other index is. -/
def coversEachMemberOnce (segmentation : Segmentation) (memberCount : Nat) : Bool :=
  let covered := segmentation.coveredIndices
  covered.all (· < memberCount) && (List.range memberCount).all fun index => covered.count index == 1

end Segmentation

namespace Shape

/-- How many of the following members a segment takes when `cap` references may be bridged in a
row. `bridged` counts the references just seen, `taken` the members seen, and `kept` the members up
to the last value among them, where the segment ends. -/
def segmentExtent (cap bridged taken kept : Nat) : List Shape → Generated Nat
  | [] => .ok kept
  | member :: rest => do
    let size ← member.headSize
    if size ≠ wordBytes then return kept
    else if member.isValueType then segmentExtent cap 0 (taken + 1) (taken + 1) rest
    else if cap < bridged + 1 then return kept
    else segmentExtent cap (bridged + 1) (taken + 1) kept rest

/-- Checks that the members from `index` on advance by one word each on both sides, `step` words
behind the start of their segment. -/
def checkSteps (owner : Shape) (callStart memoryStart : Nat) (index step : Nat) :
    (count : Nat) → Generated Unit
  | 0 => .ok ()
  | count + 1 => do
    let callOffset := (← owner.memberOffset index .calldata) - callStart
    let memoryOffset := (← owner.memberOffset index .memory) - memoryStart
    if callOffset = step * wordBytes ∧ memoryOffset = step * wordBytes then
      owner.checkSteps callStart memoryStart (index + 1) (step + 1) count
    else .error (.segmentMismatch owner.identifier index callOffset memoryOffset)

/-- The segment of the members from `start` up to `stop`, after checking their offsets. -/
def segmentAt (owner : Shape) (start stop : Nat) : Generated Segment := do
  let callOffset ← owner.memberOffset start .calldata
  let memoryOffset ← owner.memberOffset start .memory
  owner.checkSteps callOffset memoryOffset start 0 (stop - start)
  return ⟨start, stop, callOffset, memoryOffset⟩

/-- Splits the members from `index` on. -/
def segmentsFrom (owner : Shape) (cap index : Nat) (members : List Shape) : Generated Segmentation :=
  match members with
  | [] => .ok ⟨[], []⟩
  | member :: rest => do
    if member.isValueType then
      let extent ← segmentExtent cap 0 0 0 rest
      let segment ← owner.segmentAt index (index + 1 + extent)
      let others ← owner.segmentsFrom cap (index + 1 + extent) (rest.drop extent)
      return ⟨segment :: others.segments, others.standalone⟩
    else
      let others ← owner.segmentsFrom cap (index + 1) rest
      return ⟨others.segments, index :: others.standalone⟩
  termination_by members.length
  decreasing_by all_goals simp_all; try omega

/-- Splits the members of a struct or tuple; at most `cap` references in a row are bridged. -/
def segmentation (shape : Shape) (cap : Nat) : Generated Segmentation :=
  match shape with
  | .struct _ members => shape.segmentsFrom cap 0 members
  | .tuple members => shape.segmentsFrom cap 0 members
  | _ => .error (.unsupportedShape shape.identifier .segmentation)

end Shape

end YulAbi
