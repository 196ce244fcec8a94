import YulAbi.Codec.Decoder

/-!
# Encoders

An encoder takes a pointer to a value in memory and the address to write to, writes
the encoding there and returns its size. Padding is always zeroed. Heads that hold
offsets are written while the running size is known; heads that a segment filled
with raw pointers are overwritten later.
-/

namespace YulAbi.Codec

open Yul (Expr Stmt Block Routine)

/-- Drops the value of an expression. -/
def drop (value : Expr) : Stmt := .eval (.builtin .pop [value])

/-- The encoder of bytes and text. The last padding word is zeroed before the content is copied. -/
def bytesEncoder (settings : Settings) (name : String) : Emission Routine := do
  let oneWord ← Offsets.words settings.namedConstants wordBytes
  let size ← paddedBytesSize settings (.ident "length")
  return .ofBody name ["mPtrLength", "dst"] ["size"]
    [.declareAs "length" (.mload (.ident "mPtrLength")),
     .assignTo "size" size,
     .mstore (.add (.ident "dst") (.sub (.ident "size") oneWord)) (.number 0),
     .mcopy (.ident "dst") (.ident "mPtrLength") (.add (.ident "length") oneWord)]

/-- The encoder of arrays of words: all of it is one copy. -/
def wordArrayEncoder (settings : Settings) (length : Option Nat) (name : String) : Emission Routine := do
  let copyAll := fun (param : String) (size : Expr) => Routine.ofBody name [param, "dst"] ["size"]
    [.assignTo "size" size, .mcopy (.ident "dst") (.ident param) (.ident "size")]
  match length with
  | none =>
    return copyAll "mPtrLength" (.shl (.number 5) (.add (.mload (.ident "mPtrLength")) (.number 1)))
  | some count =>
    return copyAll "mPtr" (← Offsets.words settings.namedConstants (count * wordBytes))

/-- Where the pieces of an array lie while it is encoded. -/
structure EncodeFrame where
  /-- The first parameter: address of the value. -/
  param : String
  /-- Number of elements. -/
  length : Expr
  /-- Address of the element words in memory. -/
  memoryHead : Expr
  /-- Address of the encoded heads. -/
  targetHead : Expr
  /-- Size of either when each element takes one word. -/
  headSize : Expr
  /-- Size of the length word in front, zero where there is none. -/
  lengthSize : Expr
  /-- Statements that begin the routine. -/
  opening : Block

/-- The frame of an array of a given length. -/
def encodeFrame (settings : Settings) (oneWord : Expr) (length : Option Nat) : Emission EncodeFrame := do
  match length with
  | none =>
    return ⟨"mPtrLength", .ident "length", .ident "mPtrHead", .ident "dstHead",
      .shl (.number 5) (.ident "length"), oneWord,
      [.declareAs "length" (.mload (.ident "mPtrLength")),
       .declareAs "mPtrHead" (.add (.ident "mPtrLength") oneWord),
       .mstore (.ident "dst") (.ident "length"),
       .declareAs "dstHead" (.add (.ident "dst") oneWord)]⟩
  | some count =>
    let headSize ← Offsets.words settings.namedConstants (count * wordBytes)
    return ⟨"mPtr", .number count, .ident "mPtr", .ident "dst", headSize, .number 0, []⟩

namespace EncodeFrame

/-- The routine of a frame whose statements are given. -/
def routine (frame : EncodeFrame) (name : String) (body : Block) : Routine :=
  .ofBody name [frame.param, "dst"] ["size"] (frame.opening ++ body)

/-- Assigns the result: the size of everything behind the length word, and that word. -/
def assignSize (frame : EncodeFrame) (size : Expr) : Stmt :=
  .assignTo "size" (.add size frame.lengthSize)

/-- The pointer to the element with index `i`. -/
def elementPointer (frame : EncodeFrame) : Expr := .mload (headSlot frame.memoryHead)

end EncodeFrame

/-- The encoder of arrays of static elements: one copy for each element. -/
def staticTailEncoder (settings : Settings) (frame : EncodeFrame) (base : Shape) (name : String) :
    Emission Routine := do
  let element ← Offsets.words settings.namedConstants (← base.encodedSize)
  return frame.routine name
    [.count "i" frame.length
      [.mcopy (.add frame.targetHead (.mul (.ident "i") element)) frame.elementPointer element],
     frame.assignSize (.mul frame.length element)]

/-- The encoder of arrays of one dynamic level: one copy for each tail. -/
def dynamicTailEncoder (settings : Settings) (oneWord : Expr) (frame : EncodeFrame) (base : Shape)
    (name : String) : Emission Routine := do
  let elementSize ← elementTailSize settings base (.ident "elemLength")
  let tail := Expr.add frame.targetHead (.ident "tailOffset")
  let copy := if base.isBytesLike then
      [Stmt.mstore (.add tail (.sub (.ident "elemSize") oneWord)) (.number 0),
       Stmt.mcopy tail (.ident "mPtrElem") (.add (.ident "elemLength") oneWord)]
    else [Stmt.mcopy tail (.ident "mPtrElem") (.ident "elemSize")]
  let each : Block :=
    [.declareAs "mPtrElem" frame.elementPointer,
     .mstore (headSlot frame.targetHead) (.ident "tailOffset"),
     .declareAs "elemLength" (.mload (.ident "mPtrElem")),
     .declareAs "elemSize" elementSize] ++ copy ++
    [.assignTo "tailOffset" (.add (.ident "tailOffset") (.ident "elemSize"))]
  return frame.routine name
    [.declareAs "tailOffset" frame.headSize,
     .count "i" frame.length each,
     frame.assignSize (.ident "tailOffset")]

/-- The encoder of arrays whose elements are encoded one by one. -/
def separateTailEncoder (settings : Settings) (frame : EncodeFrame) (base : Shape)
    (encodeElement : Emission Handling) (name : String) : Emission Routine := do
  let encoder ← match ← encodeElement with
    | .routine encoder => pure encoder
    | .inline => unsupported base .encode
  if base.isDynamicallyEncoded then
    let written := Expr.call encoder
      [frame.elementPointer, .add frame.targetHead (.ident "tailOffset")]
    return frame.routine name
      [.declareAs "tailOffset" frame.headSize,
       .count "i" frame.length
        [.mstore (headSlot frame.targetHead) (.ident "tailOffset"),
         .assignTo "tailOffset" (.add (.ident "tailOffset") written)],
       frame.assignSize (.ident "tailOffset")]
  else
    let stride ← Offsets.words settings.namedConstants (← base.headSize)
    let written := Expr.call encoder
      [frame.elementPointer, .add frame.targetHead (.mul (.ident "i") stride)]
    return frame.routine name
      [.count "i" frame.length [drop written], frame.assignSize (.mul frame.length stride)]

/-- The encoder of an array. -/
def arrayEncoder (settings : Settings) (base : Shape) (length : Option Nat)
    (encodeElement : Emission Handling) (name : String) : Emission Routine := do
  let oneWord ← Offsets.words settings.namedConstants wordBytes
  match base.elementStrategy with
  | .valueInline => wordArrayEncoder settings length name
  | .combinedStaticTail =>
    staticTailEncoder settings (← encodeFrame settings oneWord length) base name
  | .combinedDynamicTail =>
    dynamicTailEncoder settings oneWord (← encodeFrame settings oneWord length) base name
  | .separateTail =>
    separateTailEncoder settings (← encodeFrame settings oneWord length) base encodeElement name

/-- Copies the segments of a struct. -/
def writeSegments (settings : Settings) (type : SolType) : List Segment → Emission Block
  | [] => return []
  | segment :: rest => do
    let callOffset ← Offsets.member settings.namedConstants type segment.start .calldata
    let memoryOffset ← Offsets.member settings.namedConstants type segment.start .memory
    let target := Expr.add (.ident "dst") callOffset
    let source := Expr.add (.ident "mPtr") memoryOffset
    let copy ← if segment.length = 1 then pure (Stmt.mstore target (.mload source))
      else do
        let size ← Offsets.words settings.namedConstants segment.byteLength
        pure (Stmt.mcopy target source size)
    return copy :: (← writeSegments settings type rest)

/-- Writes a part into its head: a word as it is, static data in place, and for dynamic data its
offset, with the data behind everything written so far. -/
def writePart (settings : Settings) (owner : SolType) (index : Nat) (part : Shape)
    (encodePart : Emission Handling) (value : Expr) : Emission Block := do
  let head := Expr.add (.ident "dst")
    (← Offsets.member settings.namedConstants owner index .calldata)
  match ← encodePart with
  | .inline => return [.mstore head value]
  | .routine encoder =>
    if part.isDynamicallyEncoded then
      let written := Expr.call encoder [value, .add (.ident "dst") (.ident "size")]
      return [.mstore head (.ident "size"), .assignTo "size" (.add (.ident "size") written)]
    else return [drop (.call encoder [value, head])]

/-- Writes the references among the members from `index` on. -/
def writeReferences (settings : Settings) (type : SolType) (index : Nat) :
    List (Shape × Emission Handling) → Emission Block
  | [] => return []
  | (member, encodeMember) :: rest => do
    if member.isReferenceType then
      let memoryOffset ← Offsets.member settings.namedConstants type index .memory
      let value := Expr.mload (.add (.ident "mPtr") memoryOffset)
      let statements ← writePart settings type index member encodeMember value
      return statements ++ (← writeReferences settings type (index + 1) rest)
    else writeReferences settings type (index + 1) rest

/-- The encoder of a struct or tuple: segments first, then the references. -/
def structEncoder (settings : Settings) (type : SolType) (encodeMembers : List (Emission Handling))
    (name : String) : Emission Routine := do
  let headSize ← Offsets.callHead settings.namedConstants type.shape
  let segmentation ← type.shape.segmentation settings.bridgedReferences
  let segments ← writeSegments settings type segmentation.segments
  let references ← writeReferences settings type 0 (type.shape.members.zip encodeMembers)
  return .ofBody name ["mPtr", "dst"] ["size"]
    ([.assignTo "size" headSize] ++ segments ++ references)

mutual
/-- The encoder of a type, generated if it is not there yet. -/
def encode (settings : Settings) : SolType → Emission Handling
  | .bytes => handlingOf .encode .encode .bytes (bytesEncoder settings)
  | .string => handlingOf .encode .encode .string (bytesEncoder settings)
  | .array base length =>
    handlingOf .encode .encode (SolType.array base length).shape
      (arrayEncoder settings base.shape length (encode settings base))
  | .struct name members =>
    handlingOf .encode .encode (SolType.struct name members).shape
      (structEncoder settings (.struct name members) (encodeEach settings members))
  | .tuple members =>
    handlingOf .encode .encode (SolType.tuple members).shape
      (structEncoder settings (.tuple members) (encodeEach settings members))
  | type => handlingOf .encode .encode type.shape fun _ => unsupported type.shape .encode
/-- The requests for the encoders of several parts. -/
def encodeEach (settings : Settings) : List (Labelled SolType) → List (Emission Handling)
  | [] => []
  | part :: rest => encode settings part.type :: encodeEach settings rest
end

/-- Writes the parameters from `index` on, which are given as words. -/
def writeParameters (settings : Settings) (tuple : SolType) (index : Nat) :
    List (Shape × Emission Handling) → Emission Block
  | [] => return []
  | (member, encodeMember) :: rest => do
    let statements ← writePart settings tuple index member encodeMember (.ident s!"v{index}")
    return statements ++ (← writeParameters settings tuple (index + 1) rest)

/-- The encoder of a parameter list, which takes one word for each parameter. -/
def parameterEncoder (settings : Settings) (members : List (Labelled SolType)) (name : String) :
    Emission Routine := do
  let headSize ← Offsets.callHead settings.namedConstants (SolType.tuple members).shape
  let parts := (SolType.shapes members).zip (encodeEach settings members)
  let body ← writeParameters settings (.tuple members) 0 parts
  return .ofBody name (wordNames members.length ++ ["dst"]) ["size"]
    (.assignTo "size" headSize :: body)

end YulAbi.Codec
