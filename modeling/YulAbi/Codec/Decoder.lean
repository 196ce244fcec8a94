import YulAbi.Codec.Request

/-!
# Decoders

A decoder takes the address of an encoding in call data, allocates memory for the
value and returns a pointer to it. Bytes and arrays of words are copied as they
are. Arrays of static elements are copied in one go and then get their pointers;
arrays of one dynamic level are first checked to be laid out canonically. Other
arrays, and the references in structs, are decoded part by part.
-/

namespace YulAbi.Codec

open Yul (Expr Stmt Block Routine)

/-- Reverts if a condition holds. -/
def revertIf (condition : Expr) : Stmt := .branch condition [.revertEmpty]

/-- The decoder of bytes and text: length word and padded content are one copy. -/
def bytesDecoder (settings : Settings) (name : String) : Emission Routine := do
  let freePointer ← Offsets.fixed settings.namedConstants .freePointerSlot
  let size ← paddedBytesSize settings (.calldataload (.ident "cdPtrLength"))
  return .ofBody name ["cdPtrLength"] ["mPtrLength"]
    [.assignTo "mPtrLength" (.mload freePointer),
     .declareAs "size" size,
     .calldatacopy (.ident "mPtrLength") (.ident "cdPtrLength") (.ident "size"),
     .mstore freePointer (.add (.ident "mPtrLength") (.ident "size"))]

/-- The decoder of arrays of words: all of it is one copy. -/
def wordArrayDecoder (settings : Settings) (freePointer : Expr) (length : Option Nat) (name : String) :
    Emission Routine := do
  let copyAll := fun (param result : String) (size : Expr) => Routine.ofBody name [param] [result]
    [.assignTo result (.mload freePointer),
     .declareAs "size" size,
     .calldatacopy (.ident result) (.ident param) (.ident "size"),
     .mstore freePointer (.add (.ident result) (.ident "size"))]
  match length with
  | none =>
    return copyAll "cdPtrLength" "mPtrLength"
      (.shl (.number 5) (.add (.calldataload (.ident "cdPtrLength")) (.number 1)))
  | some count =>
    return copyAll "cdPtr" "mPtr" (← Offsets.words settings.namedConstants (count * wordBytes))

/-- Where the pieces of an array lie while it is decoded. -/
structure ArrayFrame where
  /-- The parameter: address of the encoding. -/
  param : String
  /-- The result: address of the value. -/
  result : String
  /-- Number of elements. -/
  length : Expr
  /-- Address of the encoded heads. -/
  callHead : Expr
  /-- Address of the element words in memory. -/
  memoryHead : Expr
  /-- Size of either when each element takes one word. -/
  headSize : Expr
  /-- Whether a length word stands in front. -/
  dynamic : Bool
  /-- Statements that begin the routine. -/
  opening : Block

/-- The frame of an array of a given length. -/
def decodeFrame (settings : Settings) (freePointer : Expr) (length : Option Nat) :
    Emission ArrayFrame := do
  match length with
  | none =>
    let oneWord ← Offsets.words settings.namedConstants wordBytes
    return ⟨"cdPtrLength", "mPtrLength", .ident "length", .ident "cdPtrHead", .ident "mPtrHead",
      .shl (.number 5) (.ident "length"), true,
      [.assignTo "mPtrLength" (.mload freePointer),
       .declareAs "length" (.calldataload (.ident "cdPtrLength")),
       .declareAs "cdPtrHead" (.add (.ident "cdPtrLength") oneWord)]⟩
  | some count =>
    let headSize ← Offsets.words settings.namedConstants (count * wordBytes)
    return ⟨"cdPtr", "mPtr", .number count, .ident "cdPtr", .ident "mPtr", headSize, false,
      [.assignTo "mPtr" (.mload freePointer)]⟩

/-- Stores the length word in front of the elements, where there is one. -/
def storeLength (settings : Settings) (frame : ArrayFrame) : Emission Block := do
  if frame.dynamic then
    let oneWord ← Offsets.words settings.namedConstants wordBytes
    return [.mstore (.ident "mPtrLength") (.ident "length"),
      .declareAs "mPtrHead" (.add (.ident "mPtrLength") oneWord)]
  else return []

/-- The routine of a frame whose statements are given. -/
def ArrayFrame.routine (frame : ArrayFrame) (name : String) (body : Block) : Routine :=
  .ofBody name [frame.param] [frame.result] (frame.opening ++ body)

/-- The decoder of arrays of static elements: one copy, then a loop that stores the pointers. -/
def staticTailDecoder (settings : Settings) (freePointer : Expr) (frame : ArrayFrame) (base : Shape)
    (name : String) : Emission Routine := do
  let element ← Offsets.words settings.namedConstants (← base.encodedSize)
  let lengthPart ← storeLength settings frame
  return frame.routine name (lengthPart ++
    [.declareAs "mPtrTail" (.add frame.memoryHead frame.headSize),
     .declareAs "tailSize" (.mul frame.length element),
     .calldatacopy (.ident "mPtrTail") frame.callHead (.ident "tailSize"),
     .mstore freePointer (.add (.ident "mPtrTail") (.ident "tailSize")),
     .count "i" frame.length
       [.mstore (headSlot frame.memoryHead) (.add (.ident "mPtrTail") (.mul (.ident "i") element))]])

/-- The decoder of arrays of one dynamic level: every offset must be the canonical one, every length
is bounded so that sums cannot wrap, and the end must lie inside call data; then one copy, and a loop
that turns offsets into pointers. -/
def dynamicTailDecoder (settings : Settings) (freePointer : Expr) (frame : ArrayFrame) (base : Shape)
    (name : String) : Emission Routine := do
  let maxLength ← Offsets.fixed settings.namedConstants .maxLength
  let elementSize ← elementTailSize settings base (.ident "elemLength")
  let lengthCheck := if frame.dynamic then [revertIf (.gt (.ident "length") maxLength)] else []
  let validation : Block :=
    [.declareAs "tailOffset" frame.headSize,
     .count "i" frame.length
       [.declareAs "offset" (.calldataload (headSlot frame.callHead)),
        revertIf (.iszero (.eq (.ident "offset") (.ident "tailOffset"))),
        .declareAs "elemLength" (.calldataload (.add frame.callHead (.ident "offset"))),
        revertIf (.gt (.ident "elemLength") maxLength),
        .assignTo "tailOffset" (.add (.ident "tailOffset") elementSize)]]
  let oneWord ← if frame.dynamic then Offsets.words settings.namedConstants wordBytes
    else pure (.number 0)
  let copy : Block :=
    [.declareAs "size" (.add (.ident "tailOffset") oneWord),
     revertIf (.gt (.add (.ident frame.param) (.ident "size")) .calldatasize),
     .calldatacopy (.ident frame.result) (.ident frame.param) (.ident "size"),
     .mstore freePointer (.add (.ident frame.result) (.ident "size"))]
  let headPart := if frame.dynamic then
      [Stmt.declareAs "mPtrHead" (.add (.ident "mPtrLength") oneWord)]
    else []
  return frame.routine name (lengthCheck ++ validation ++ copy ++ headPart ++
    [.count "i" frame.length
      [.declareAs "mPtrElem" (headSlot frame.memoryHead),
       .mstore (.ident "mPtrElem") (.add frame.memoryHead (.mload (.ident "mPtrElem")))]])

/-- The word that stands for a decoded value whose encoding is at `source`. -/
def decodedWord (handling : Handling) (source : Expr) : Expr :=
  match handling with
  | .inline => .calldataload source
  | .routine name => .call name [source]

/-- The decoder of arrays whose elements are decoded one by one. -/
def separateTailDecoder (settings : Settings) (freePointer : Expr) (frame : ArrayFrame) (base : Shape)
    (decodeElement : Emission Handling) (name : String) : Emission Routine := do
  let lengthPart ← storeLength settings frame
  let source ← if base.isDynamicallyEncoded then
      pure (Expr.add frame.callHead (.calldataload (headSlot frame.callHead)))
    else do
      let stride ← Offsets.words settings.namedConstants (← base.headSize)
      pure (Expr.add frame.callHead (.mul (.ident "i") stride))
  let handling ← decodeElement
  return frame.routine name (lengthPart ++
    [.mstore freePointer (.add frame.memoryHead frame.headSize),
     .count "i" frame.length
       [.declareAs "cdPtrElem" source,
        .mstore (headSlot frame.memoryHead) (decodedWord handling (.ident "cdPtrElem"))]])

/-- The decoder of an array. -/
def arrayDecoder (settings : Settings) (base : Shape) (length : Option Nat)
    (decodeElement : Emission Handling) (name : String) : Emission Routine := do
  let freePointer ← Offsets.fixed settings.namedConstants .freePointerSlot
  match base.elementStrategy with
  | .valueInline => wordArrayDecoder settings freePointer length name
  | .combinedStaticTail =>
    staticTailDecoder settings freePointer (← decodeFrame settings freePointer length) base name
  | .combinedDynamicTail =>
    dynamicTailDecoder settings freePointer (← decodeFrame settings freePointer length) base name
  | .separateTail =>
    separateTailDecoder settings freePointer (← decodeFrame settings freePointer length) base
      decodeElement name

/-- The address of the encoding of a part: in place, or behind the offset in its head. -/
def partSource (settings : Settings) (owner : SolType) (index : Nat) (part : Shape) (head : Expr) :
    Emission Expr := do
  let slot := Expr.add head (← Offsets.member settings.namedConstants owner index .calldata)
  return if part.isDynamicallyEncoded then .add head (.calldataload slot) else slot

/-- Copies the segments of a struct. -/
def copySegments (settings : Settings) (type : SolType) : List Segment → Emission Block
  | [] => return []
  | segment :: rest => do
    let callOffset ← Offsets.member settings.namedConstants type segment.start .calldata
    let memoryOffset ← Offsets.member settings.namedConstants type segment.start .memory
    let target := Expr.add (.ident "mPtr") memoryOffset
    let source := Expr.add (.ident "cdPtr") callOffset
    let copy ← if segment.length = 1 then pure (Stmt.mstore target (.calldataload source))
      else do
        let size ← Offsets.words settings.namedConstants segment.byteLength
        pure (Stmt.calldatacopy target source size)
    return copy :: (← copySegments settings type rest)

/-- Decodes the references among the members from `index` on. -/
def decodeReferences (settings : Settings) (type : SolType) (index : Nat) :
    List (Shape × Emission Handling) → Emission Block
  | [] => return []
  | (member, decodeMember) :: rest => do
    if member.isReferenceType then
      let source ← partSource settings type index member (.ident "cdPtr")
      let value := decodedWord (← decodeMember) source
      let memoryOffset ← Offsets.member settings.namedConstants type index .memory
      let store := Stmt.mstore (.add (.ident "mPtr") memoryOffset) value
      return store :: (← decodeReferences settings type (index + 1) rest)
    else decodeReferences settings type (index + 1) rest

/-- The decoder of a struct or tuple: segments first, then the references, whose words the segments
may have filled with raw heads. -/
def structDecoder (settings : Settings) (type : SolType) (decodeMembers : List (Emission Handling))
    (name : String) : Emission Routine := do
  let freePointer ← Offsets.fixed settings.namedConstants .freePointerSlot
  let headSize ← Offsets.memoryHead settings.namedConstants type.shape
  let segmentation ← type.shape.segmentation settings.bridgedReferences
  let segments ← copySegments settings type segmentation.segments
  let references ← decodeReferences settings type 0 (type.shape.members.zip decodeMembers)
  return .ofBody name ["cdPtr"] ["mPtr"]
    ([.assignTo "mPtr" (.mload freePointer), .mstore freePointer (.add (.ident "mPtr") headSize)] ++
      segments ++ references)

mutual
/-- The decoder of a type, generated if it is not there yet. -/
def decode (settings : Settings) : SolType → Emission Handling
  | .bytes => handlingOf .decode .decode .bytes (bytesDecoder settings)
  | .string => handlingOf .decode .decode .string (bytesDecoder settings)
  | .array base length =>
    handlingOf .decode .decode (SolType.array base length).shape
      (arrayDecoder settings base.shape length (decode settings base))
  | .struct name members =>
    handlingOf .decode .decode (SolType.struct name members).shape
      (structDecoder settings (.struct name members) (decodeEach settings members))
  | .tuple members =>
    handlingOf .decode .decode (SolType.tuple members).shape
      (structDecoder settings (.tuple members) (decodeEach settings members))
  | type => handlingOf .decode .decode type.shape fun _ => unsupported type.shape .decode
/-- The requests for the decoders of several parts. -/
def decodeEach (settings : Settings) : List (Labelled SolType) → List (Emission Handling)
  | [] => []
  | part :: rest => decode settings part.type :: decodeEach settings rest
end

/-- Assigns the decoded parameters from `index` on to the return values. -/
def decodeParameters (settings : Settings) (tuple : SolType) (index : Nat) :
    List (Shape × Emission Handling) → Emission Block
  | [] => return []
  | (member, decodeMember) :: rest => do
    let source ← partSource settings tuple index member (.ident "cdPtr")
    let value := decodedWord (← decodeMember) source
    return .assignTo s!"v{index}" value :: (← decodeParameters settings tuple (index + 1) rest)

/-- The names of parameters or return values of a parameter list. -/
def wordNames (count : Nat) : List String := (List.range count).map fun index => s!"v{index}"

/-- The decoder of a parameter list, which returns one word for each parameter. -/
def parameterDecoder (settings : Settings) (members : List (Labelled SolType)) (name : String) :
    Emission Routine := do
  let parts := (SolType.shapes members).zip (decodeEach settings members)
  let body ← decodeParameters settings (.tuple members) 0 parts
  return .ofBody name ["cdPtr"] (wordNames members.length) body

end YulAbi.Codec
