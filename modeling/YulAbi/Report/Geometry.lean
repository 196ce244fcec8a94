import YulAbi.Arena.Build
import YulAbi.Arena.Geometry
import YulAbi.Description.Document
import YulAbi.Report.Outcome

/-!
# Reports on types

Everything that is known about a node of an arena and about the runs in which a
struct is copied.
-/

namespace YulAbi.Report

/-- The fields that only nodes of some kinds have. -/
def kindFields : Kind → List (String × Document)
  | .enumeration _ count => [("member_count", numbers [count, enumerationBits count])]
  | .event _ _ _ indexed anonymous =>
    [("event", .array [.array (indexed.map .bool), .bool anonymous])]
  | .function _ _ _ mutability => [("mutability", mutability.toDocument)]
  | _ => []

/-- The fields of a node that do not follow from its shape. -/
def placeFields (arena : Arena) (id : NodeId) : List (String × Document) :=
  [("node", number id), ("kind", .text (arena.kind id).word),
    ("label", optional .text (arena.label id)), ("parent", optional number (arena.parent id)),
    ("shape", number (arena.shapeId id)), ("children", numbers (arena.kind id).children),
    ("members", numbers (arena.members id)), ("signature", query .text (arena.signature id))]

/-- The fields that classify a node. -/
def classFields (arena : Arena) (id : NodeId) : List (String × Document) :=
  [("identifier", .text (arena.identifier id)), ("fragment", .text (arena.shape id).fragment),
    ("abi", .text (arena.abiType id)), ("value", .bool (arena.isValueType id)),
    ("reference", .bool (arena.isReferenceType id)), ("bytes_like", .bool (arena.isBytesLike id)),
    ("left", .bool (arena.isLeftAligned id)), ("signed", .bool (arena.isSigned id)),
    ("dyn_sized", .bool (arena.isDynamicallySized id)),
    ("dyn_encoded", .bool (arena.isDynamicallyEncoded id)),
    ("array_class", query (fun strategy => .text strategy.text) (arena.arrayStrategy id))]

/-- The fields that measure a node. -/
def sizeFields (arena : Arena) (id : NodeId) : List (String × Document) :=
  [("nested_refs", number (arena.nestedReferences id)), ("nested_dyns", number (arena.nestedDynamics id)),
    ("mem_head", number (Arena.memoryHeadSize id)), ("cd_size", query number (arena.encodedSize id)),
    ("cd_head", query number (arena.headSize id)), ("cd_tail", query number (arena.tailSize id)),
    ("mem_data", query number (arena.memorySize id)),
    ("mem_ext", query number (arena.extendedMemorySize id)),
    ("cd_stride", query number (arena.callStride id)),
    ("mem_stride", query number (arena.memoryStride id))]

/-- Everything about a node; the width without padding is left out unless it is wanted. -/
def node (arena : Arena) (id : NodeId) (withBits : Bool) : Document :=
  let bits := if withBits then [("bits", query number (arena.exactBits id))] else []
  .record (placeFields arena id ++ classFields arena id ++ sizeFields arena id ++ bits ++
    kindFields (arena.kind id))

/-- What a construction answers with: the new node and the number of nodes. -/
def newNode (arena : Arena) (id : NodeId) : Document :=
  .record [
    ("node", number id), ("identifier", .text (arena.identifier id)),
    ("shape", number (arena.shapeId id)), ("label", optional .text (arena.label id)),
    ("children", numbers (arena.kind id).children), ("len", number arena.size)]

/-- One run of members. -/
def segment (run : Segment) : Document :=
  .array [number run.start, number run.stop, number run.callOffset, number run.memoryOffset,
    number run.byteLength, .bool (run.length == 0), number run.length]

/-- The runs of some members. -/
def runs (count : Nat) (segmentation : Generated Segmentation) : Outcome Document := do
  let runs ← Outcome.ofGenerated segmentation
  return .record [
    ("segments", .array (runs.segments.map segment)), ("standalone", numbers runs.standalone),
    ("segment_of", .array ((List.range count).map fun index =>
      optional (fun run => number run.start) (runs.segmentOf? index))),
    ("covers", .bool (runs.coversEachMemberOnce count)),
    ("covers_short", .bool (runs.coversEachMemberOnce (count - 1)))]

/-- The runs of a shape under a cap. -/
def segments (shape : Shape) (cap : Nat) : Outcome Document := runs shape.members.length (shape.segmentation cap)

/-- The offsets of a part in all regimes. -/
def partOffsets (arena : Arena) (owner : NodeId) (withBits : Bool) (index : Nat) : Document :=
  .array [query number (arena.memberOffset owner index .calldata),
    query number (arena.memberOffset owner index .memory),
    if withBits then query number (arena.memberOffset owner index .packed) else .null]

/-- How many parts are listed: all members, or the first elements. -/
def listedParts (arena : Arena) (owner : NodeId) : Nat :=
  match arena.kind owner with
  | .array _ length => min (length.getD 4) 4
  | _ => (arena.members owner).length

/-- A type with everything below it, the offsets of its parts up to the first one behind them, and
its runs. -/
def geometry (arena : Arena) (root : NodeId) (withBits : Bool) (cap : Nat) : Document :=
  .record [
    ("root", number root),
    ("nodes", .array ((arena.reachable root).map fun id => node arena id withBits)),
    ("offsets", .array ((List.range (listedParts arena root + 1)).map (partOffsets arena root withBits))),
    ("segments", inPlace (runs (arena.members root).length (arena.segmentation root cap)))]

end YulAbi.Report
