import YulAbi.Codec.Signature
import YulAbi.Proofs.Naming.Names

/-!
# Decoders and encoders use identifiers only

Decoders and encoders are walked through in the order of their definitions. What they write is
made of names of their own, which are fixed, of the constants and routines that they have asked
for, and of the name under which they are generated. The requests of parts are given, so the
walk through an array or a struct does not depend on what its parts are.
-/

namespace YulAbi.Codec

open Identifier
open Yul (Expr Stmt Block Routine)

attribute [local simp] Expr.and Expr.lt Expr.gt Expr.eq Expr.iszero Expr.mload Expr.calldataload Expr.calldatasize
  Stmt.declareAs Stmt.assignTo Stmt.mstore Stmt.mcopy Stmt.calldatacopy Stmt.revertEmpty Stmt.count

section

variable {settings : Settings} {name : String}

/-! ### Decoders -/

/-- The decoder of bytes and text. -/
theorem bytesDecoder_spells (plain : isIdentifier name = true) :
    (bytesDecoder settings name).Spells Routine.names := by
  refine (Offsets.fixed_spells _ _).bind fun freePointer pointed => ?_
  refine (paddedBytesSize_spells (by simp +decide)).bind fun size measured => .pure ?_
  simp +decide [plain, pointed, measured]

/-- The decoder of arrays of words. -/
theorem wordArrayDecoder_spells {freePointer : Expr} (pointed : Identifiers freePointer.names) (length : Option Nat)
    (plain : isIdentifier name = true) : (wordArrayDecoder settings freePointer length name).Spells Routine.names := by
  unfold wordArrayDecoder
  cases length with
  | none => exact .pure (by simp +decide [plain, pointed])
  | some count =>
    refine (Offsets.words_spells _ _).bind fun size measured => .pure ?_
    simp +decide [plain, pointed, measured]

/-- The names in a frame. -/
def ArrayFrame.names (frame : ArrayFrame) : List String :=
  frame.param :: frame.result :: (frame.length.names ++ frame.callHead.names ++ frame.memoryHead.names ++
    frame.headSize.names ++ Block.names frame.opening)

/-- The frame of an array. -/
theorem decodeFrame_spells {freePointer : Expr} (pointed : Identifiers freePointer.names) (length : Option Nat) :
    (decodeFrame settings freePointer length).Spells ArrayFrame.names := by
  unfold decodeFrame
  cases length with
  | none =>
    refine (Offsets.words_spells _ _).bind fun oneWord measured => .pure ?_
    simp +decide [ArrayFrame.names, pointed, measured]
  | some count =>
    refine (Offsets.words_spells _ _).bind fun headSize measured => .pure ?_
    simp +decide [ArrayFrame.names, pointed, measured]

/-- The length word in front of the elements. -/
theorem storeLength_spells (frame : ArrayFrame) : (storeLength settings frame).Spells Block.names := by
  unfold storeLength
  split
  · refine (Offsets.words_spells _ _).bind fun oneWord measured => .pure ?_
    simp +decide [measured]
  · exact .pure identifiers_nil

section

variable {freePointer : Expr} {frame : ArrayFrame} (pointed : Identifiers freePointer.names)
  (framed : Identifiers frame.names) (plain : isIdentifier name = true)

include pointed framed plain

/-- The decoder of arrays of static elements. -/
theorem staticTailDecoder_spells (base : Shape) :
    (staticTailDecoder settings freePointer frame base name).Spells Routine.names := by
  refine (Emission.Spells.lift _).bind fun bytes _ => ?_
  refine (Offsets.words_spells _ _).bind fun element measured => ?_
  refine (storeLength_spells frame).bind fun lengthPart stored => .pure ?_
  simp only [ArrayFrame.names, identifiers_cons, identifiers_append] at framed
  simp +decide [ArrayFrame.routine, plain, pointed, measured, stored, framed]

/-- The decoder of arrays of one dynamic level. -/
theorem dynamicTailDecoder_spells (base : Shape) :
    (dynamicTailDecoder settings freePointer frame base name).Spells Routine.names := by
  simp only [ArrayFrame.names, identifiers_cons, identifiers_append] at framed
  refine (Offsets.fixed_spells _ _).bind fun maxLength limited => ?_
  refine (elementTailSize_spells base (by simp +decide)).bind fun elementSize measured => ?_
  dsimp only
  split
  · refine (Offsets.words_spells _ _).bind fun oneWord sized => .pure ?_
    simp +decide [ArrayFrame.routine, revertIf, plain, pointed, limited, measured, sized, framed]
  · refine .pure ?_
    simp +decide [ArrayFrame.routine, revertIf, plain, pointed, limited, measured, framed]

/-- The routine that decodes elements one by one, wherever their encodings are found. -/
theorem separateTail_identifiers {source : Expr} (located : Identifiers source.names) {lengthPart : Block}
    (stored : Identifiers (Block.names lengthPart)) {handling : Handling} (handled : Identifiers handling.names) :
    Identifiers (frame.routine name (lengthPart ++
      [.mstore freePointer (.add frame.memoryHead frame.headSize),
       .count "i" frame.length
         [.declareAs "cdPtrElem" source,
          .mstore (headSlot frame.memoryHead) (decodedWord handling (.ident "cdPtrElem"))]])).names := by
  simp only [ArrayFrame.names, identifiers_cons, identifiers_append] at framed
  cases handling with
  | inline => simp +decide [ArrayFrame.routine, decodedWord, plain, pointed, stored, located, framed]
  | routine decoder =>
    simp only [Handling.names, identifiers_cons] at handled
    simp +decide [ArrayFrame.routine, decodedWord, plain, pointed, stored, located, framed, handled]

/-- The decoder of arrays whose elements are decoded one by one. -/
theorem separateTailDecoder_spells (base : Shape) {decodeElement : Emission Handling}
    (part : decodeElement.Spells Handling.names) :
    (separateTailDecoder settings freePointer frame base decodeElement name).Spells Routine.names := by
  have parts := framed
  simp only [ArrayFrame.names, identifiers_cons, identifiers_append] at parts
  refine (storeLength_spells frame).bind fun lengthPart stored => ?_
  dsimp only
  split
  · refine part.bind fun handling handled => .pure ?_
    exact separateTail_identifiers pointed framed plain (by simp +decide [parts]) stored handled
  · refine (Emission.Spells.lift _).bind fun size _ => ?_
    refine (Offsets.words_spells _ _).bind fun stride measured => ?_
    refine part.bind fun handling handled => .pure ?_
    exact separateTail_identifiers pointed framed plain (by simp +decide [parts, measured]) stored handled

end

/-- The decoder of an array. -/
theorem arrayDecoder_spells (base : Shape) (length : Option Nat) {decodeElement : Emission Handling}
    (part : decodeElement.Spells Handling.names) (plain : isIdentifier name = true) :
    (arrayDecoder settings base length decodeElement name).Spells Routine.names := by
  refine (Offsets.fixed_spells _ _).bind fun freePointer pointed => ?_
  split
  · exact wordArrayDecoder_spells pointed length plain
  · exact (decodeFrame_spells pointed length).bind fun frame framed => staticTailDecoder_spells pointed framed plain base
  · exact (decodeFrame_spells pointed length).bind fun frame framed => dynamicTailDecoder_spells pointed framed plain base
  · exact (decodeFrame_spells pointed length).bind fun frame framed =>
      separateTailDecoder_spells pointed framed plain base part

/-- A decoded word has the names of its address and of the decoder. -/
theorem identifiers_decodedWord {handling : Handling} (handled : Identifiers handling.names) {source : Expr}
    (located : Identifiers source.names) : Identifiers (decodedWord handling source).names := by
  cases handling with
  | inline => simpa [decodedWord] using located
  | routine decoder => simpa [decodedWord] using And.intro (identifiers_cons.mp handled).1 located

/-- The address of the encoding of a part. -/
theorem partSource_spells (owner : SolType) (index : Nat) (part : Shape) {head : Expr} (h : Identifiers head.names) :
    (partSource settings owner index part head).Spells Expr.names := by
  refine (Offsets.member_spells _ _ _ _).bind fun offset measured => .pure ?_
  split <;> simp [h, measured]

/-- The segments of a struct that is decoded. -/
theorem copySegments_spells (type : SolType) (segments : List Segment) :
    (copySegments settings type segments).Spells Block.names := by
  induction segments with
  | nil => exact .pure identifiers_nil
  | cons segment rest ih =>
    refine (Offsets.member_spells _ _ _ _).bind fun callOffset called => ?_
    refine (Offsets.member_spells _ _ _ _).bind fun memoryOffset stored => ?_
    dsimp only
    split
    · refine ih.bind fun others copied => .pure ?_
      simp +decide [called, stored, copied]
    · refine (Offsets.words_spells _ _).bind fun size sized => ?_
      refine ih.bind fun others copied => .pure ?_
      simp +decide [called, stored, sized, copied]

/-- The references among the members of a struct that is decoded. -/
theorem decodeReferences_spells (type : SolType) (index : Nat) (parts : List (Shape × Emission Handling))
    (decoded : ∀ part ∈ parts, part.2.Spells Handling.names) :
    (decodeReferences settings type index parts).Spells Block.names := by
  induction parts generalizing index with
  | nil => exact .pure identifiers_nil
  | cons part rest ih =>
    have others := ih (index + 1) fun part listed => decoded part (List.mem_cons_of_mem _ listed)
    unfold decodeReferences
    -- a part that is no reference is copied with its segment
    split
    · refine (partSource_spells type index part.1 (by simp +decide)).bind fun source located => ?_
      refine (decoded part List.mem_cons_self).bind fun handling handled => ?_
      refine (Offsets.member_spells _ _ _ _).bind fun memoryOffset stored => ?_
      refine others.bind fun block copied => .pure ?_
      simp +decide [stored, copied, identifiers_decodedWord handled located]
    · exact others

/-- The decoder of a struct or tuple. -/
theorem structDecoder_spells (type : SolType) {decodeMembers : List (Emission Handling)}
    (decoded : ∀ part ∈ type.shape.members.zip decodeMembers, part.2.Spells Handling.names)
    (plain : isIdentifier name = true) : (structDecoder settings type decodeMembers name).Spells Routine.names := by
  refine (Offsets.fixed_spells _ _).bind fun freePointer pointed => ?_
  refine (Offsets.memoryHead_spells _ _).bind fun headSize measured => ?_
  refine (Emission.Spells.lift _).bind fun segmentation _ => ?_
  refine (copySegments_spells _ _).bind fun segments copied => ?_
  refine (decodeReferences_spells _ _ _ decoded).bind fun references inner => .pure ?_
  simp +decide [plain, pointed, measured, copied, inner]

mutual
/-- The decoder of a type; the proof follows the type. -/
theorem decode_spells (type : SolType) : (decode settings type).Spells Handling.names := by
  cases type with
  | bytes | string => exact handlingOf_spells _ _ _ fun name plain => bytesDecoder_spells plain
  | array base length =>
    exact handlingOf_spells _ _ _ fun name plain => arrayDecoder_spells _ _ (decode_spells base) plain
  | struct _ members | tuple members =>
    exact handlingOf_spells _ _ _ fun name plain => structDecoder_spells _ (decodeEach_spells members _) plain
  | _ => exact handlingOf_spells _ _ _ fun name _ => unsupported_spells _ _ _
/-- The decoders of several parts. -/
theorem decodeEach_spells (members : List (Labelled SolType)) (shapes : List Shape) :
    ∀ part ∈ shapes.zip (decodeEach settings members), part.2.Spells Handling.names := by
  cases members with
  | nil => simp [decodeEach]
  | cons first rest =>
    cases shapes with
    | nil => exact nofun
    | cons shape shapes =>
      exact List.forall_mem_cons.mpr ⟨decode_spells first.type, decodeEach_spells rest shapes⟩
end

/-! ### Encoders -/

/-- The encoder of bytes and text. -/
theorem bytesEncoder_spells (plain : isIdentifier name = true) :
    (bytesEncoder settings name).Spells Routine.names := by
  refine (Offsets.words_spells _ _).bind fun oneWord measured => ?_
  refine (paddedBytesSize_spells (by simp +decide)).bind fun size sized => .pure ?_
  simp +decide [plain, measured, sized]

/-- The encoder of arrays of words. -/
theorem wordArrayEncoder_spells (length : Option Nat) (plain : isIdentifier name = true) :
    (wordArrayEncoder settings length name).Spells Routine.names := by
  unfold wordArrayEncoder
  cases length with
  | none => exact .pure (by simp +decide [plain])
  | some count =>
    refine (Offsets.words_spells _ _).bind fun size sized => .pure ?_
    simp +decide [plain, sized]

/-- The names in a frame. -/
def EncodeFrame.names (frame : EncodeFrame) : List String :=
  frame.param :: (frame.length.names ++ frame.memoryHead.names ++ frame.targetHead.names ++ frame.headSize.names ++
    frame.lengthSize.names ++ Block.names frame.opening)

/-- The frame of an array. -/
theorem encodeFrame_spells {oneWord : Expr} (measured : Identifiers oneWord.names) (length : Option Nat) :
    (encodeFrame settings oneWord length).Spells EncodeFrame.names := by
  unfold encodeFrame
  cases length with
  | none => exact .pure (by simp +decide [EncodeFrame.names, measured])
  | some count =>
    refine (Offsets.words_spells _ _).bind fun headSize sized => .pure ?_
    simp +decide [EncodeFrame.names, sized]

section

variable {frame : EncodeFrame} (framed : Identifiers frame.names) (plain : isIdentifier name = true)

include framed plain

/-- The encoder of arrays of static elements. -/
theorem staticTailEncoder_spells (base : Shape) : (staticTailEncoder settings frame base name).Spells Routine.names := by
  simp only [EncodeFrame.names, identifiers_cons, identifiers_append] at framed
  refine (Emission.Spells.lift _).bind fun bytes _ => ?_
  refine (Offsets.words_spells _ _).bind fun element measured => .pure ?_
  simp +decide [EncodeFrame.routine, EncodeFrame.assignSize, EncodeFrame.elementPointer, plain, measured, framed]

/-- The encoder of arrays of one dynamic level. -/
theorem dynamicTailEncoder_spells {oneWord : Expr} (one : Identifiers oneWord.names) (base : Shape) :
    (dynamicTailEncoder settings oneWord frame base name).Spells Routine.names := by
  simp only [EncodeFrame.names, identifiers_cons, identifiers_append] at framed
  refine (elementTailSize_spells base (by simp +decide)).bind fun elementSize sized => .pure ?_
  split <;>
    simp +decide [EncodeFrame.routine, EncodeFrame.assignSize, EncodeFrame.elementPointer, plain, one, sized, framed]

/-- The encoder of arrays whose elements are encoded one by one. -/
theorem separateTailEncoder_spells (base : Shape) {encodeElement : Emission Handling}
    (part : encodeElement.Spells Handling.names) :
    (separateTailEncoder settings frame base encodeElement name).Spells Routine.names := by
  simp only [EncodeFrame.names, identifiers_cons, identifiers_append] at framed
  refine part.bind fun handling handled => ?_
  cases handling with
  | inline => exact unsupported_spells _ _ _
  | routine encoder =>
    simp only [pure_bind]
    split
    · refine .pure ?_
      simp +decide [EncodeFrame.routine, EncodeFrame.assignSize, EncodeFrame.elementPointer, plain,
        (identifiers_cons.mp handled).1, framed]
    · refine (Emission.Spells.lift _).bind fun size _ => ?_
      refine (Offsets.words_spells _ _).bind fun stride measured => .pure ?_
      simp +decide [EncodeFrame.routine, EncodeFrame.assignSize, EncodeFrame.elementPointer, drop, plain, measured,
        (identifiers_cons.mp handled).1, framed]

end

/-- The encoder of an array. -/
theorem arrayEncoder_spells (base : Shape) (length : Option Nat) {encodeElement : Emission Handling}
    (part : encodeElement.Spells Handling.names) (plain : isIdentifier name = true) :
    (arrayEncoder settings base length encodeElement name).Spells Routine.names := by
  refine (Offsets.words_spells _ _).bind fun oneWord measured => ?_
  split
  · exact wordArrayEncoder_spells length plain
  · exact (encodeFrame_spells measured length).bind fun frame framed => staticTailEncoder_spells framed plain base
  · exact (encodeFrame_spells measured length).bind fun frame framed =>
      dynamicTailEncoder_spells framed plain measured base
  · exact (encodeFrame_spells measured length).bind fun frame framed =>
      separateTailEncoder_spells framed plain base part

/-- The segments of a struct that is encoded. -/
theorem writeSegments_spells (type : SolType) (segments : List Segment) :
    (writeSegments settings type segments).Spells Block.names := by
  induction segments with
  | nil => exact .pure identifiers_nil
  | cons segment rest ih =>
    refine (Offsets.member_spells _ _ _ _).bind fun callOffset called => ?_
    refine (Offsets.member_spells _ _ _ _).bind fun memoryOffset stored => ?_
    dsimp only
    split
    · refine ih.bind fun others copied => .pure ?_
      simp +decide [called, stored, copied]
    · refine (Offsets.words_spells _ _).bind fun size sized => ?_
      refine ih.bind fun others copied => .pure ?_
      simp +decide [called, stored, sized, copied]

/-- What writes a part. -/
theorem writePart_spells (owner : SolType) (index : Nat) (part : Shape) {encodePart : Emission Handling}
    (encoded : encodePart.Spells Handling.names) {value : Expr} (valued : Identifiers value.names) :
    (writePart settings owner index part encodePart value).Spells Block.names := by
  refine (Offsets.member_spells _ _ _ _).bind fun offset measured => ?_
  refine encoded.bind fun handling handled => ?_
  cases handling with
  | inline => exact .pure (by simp +decide [measured, valued])
  | routine encoder =>
    have named := (identifiers_cons.mp handled).1
    dsimp only
    split <;> exact .pure (by simp +decide [drop, measured, valued, named])

/-- The references among the members of a struct that is encoded. -/
theorem writeReferences_spells (type : SolType) (index : Nat) (parts : List (Shape × Emission Handling))
    (encoded : ∀ part ∈ parts, part.2.Spells Handling.names) :
    (writeReferences settings type index parts).Spells Block.names := by
  induction parts generalizing index with
  | nil => exact .pure identifiers_nil
  | cons part rest ih =>
    have others := ih (index + 1) fun part listed => encoded part (List.mem_cons_of_mem _ listed)
    unfold writeReferences
    split
    · refine (Offsets.member_spells _ _ _ _).bind fun memoryOffset stored => ?_
      have value : Identifiers (Expr.mload (.add (.ident "mPtr") memoryOffset)).names := by simp +decide [stored]
      refine (writePart_spells type index part.1 (encoded part List.mem_cons_self) value).bind fun block written => ?_
      refine others.bind fun later copied => .pure ?_
      simp [written, copied]
    · exact others

/-- The encoder of a struct or tuple. -/
theorem structEncoder_spells (type : SolType) {encodeMembers : List (Emission Handling)}
    (encoded : ∀ part ∈ type.shape.members.zip encodeMembers, part.2.Spells Handling.names)
    (plain : isIdentifier name = true) : (structEncoder settings type encodeMembers name).Spells Routine.names := by
  refine (Offsets.callHead_spells _ _).bind fun headSize measured => ?_
  refine (Emission.Spells.lift _).bind fun segmentation _ => ?_
  refine (writeSegments_spells _ _).bind fun segments copied => ?_
  refine (writeReferences_spells _ _ _ encoded).bind fun references inner => .pure ?_
  simp +decide [plain, measured, copied, inner]

mutual
/-- The encoder of a type; the proof follows the type. -/
theorem encode_spells (type : SolType) : (encode settings type).Spells Handling.names := by
  cases type with
  | bytes | string => exact handlingOf_spells _ _ _ fun name plain => bytesEncoder_spells plain
  | array base length =>
    exact handlingOf_spells _ _ _ fun name plain => arrayEncoder_spells _ _ (encode_spells base) plain
  | struct _ members | tuple members =>
    exact handlingOf_spells _ _ _ fun name plain => structEncoder_spells _ (encodeEach_spells members _) plain
  | _ => exact handlingOf_spells _ _ _ fun name _ => unsupported_spells _ _ _
/-- The encoders of several parts. -/
theorem encodeEach_spells (members : List (Labelled SolType)) (shapes : List Shape) :
    ∀ part ∈ shapes.zip (encodeEach settings members), part.2.Spells Handling.names := by
  cases members with
  | nil => simp [encodeEach]
  | cons first rest =>
    cases shapes with
    | nil => exact nofun
    | cons shape shapes =>
      exact List.forall_mem_cons.mpr ⟨encode_spells first.type, encodeEach_spells rest shapes⟩
end

/-! ### Parameter lists, errors and events -/

/-- The name of a parameter. -/
theorem isIdentifier_wordName (index : Nat) : isIdentifier s!"v{index}" = true :=
  isIdentifier_append (by decide) (isTail_repr index)

/-- The names of parameters. -/
@[simp]
theorem identifiers_wordNames (count : Nat) : Identifiers (wordNames count) := by
  intro name listed
  obtain ⟨index, -, rfl⟩ := List.mem_map.mp listed
  exact isIdentifier_wordName index

/-- The parameters that are decoded. -/
theorem decodeParameters_spells (tuple : SolType) (index : Nat) (parts : List (Shape × Emission Handling))
    (decoded : ∀ part ∈ parts, part.2.Spells Handling.names) :
    (decodeParameters settings tuple index parts).Spells Block.names := by
  induction parts generalizing index with
  | nil => exact .pure identifiers_nil
  | cons part rest ih =>
    refine (partSource_spells tuple index part.1 (by simp +decide)).bind fun source located => ?_
    refine (decoded part List.mem_cons_self).bind fun handling handled => ?_
    refine (ih (index + 1) fun part listed => decoded part (List.mem_cons_of_mem _ listed)).bind fun block inner => ?_
    have assigned : Identifiers (Stmt.assignTo s!"v{index}" (decodedWord handling source)).names :=
      identifiers_cons.mpr ⟨isIdentifier_wordName index, identifiers_decodedWord handled located⟩
    exact .pure (identifiers_append.mpr ⟨assigned, inner⟩)

/-- The decoder of a parameter list. -/
theorem parameterDecoder_spells (members : List (Labelled SolType)) (plain : isIdentifier name = true) :
    (parameterDecoder settings members name).Spells Routine.names := by
  refine (decodeParameters_spells _ _ _ (decodeEach_spells members _)).bind fun block inner => .pure ?_
  simp +decide [plain, inner]

/-- The parameters that are encoded. -/
theorem writeParameters_spells (tuple : SolType) (index : Nat) (parts : List (Shape × Emission Handling))
    (encoded : ∀ part ∈ parts, part.2.Spells Handling.names) :
    (writeParameters settings tuple index parts).Spells Block.names := by
  induction parts generalizing index with
  | nil => exact .pure identifiers_nil
  | cons part rest ih =>
    have value : Identifiers (Expr.ident s!"v{index}").names :=
      identifiers_cons.mpr ⟨isIdentifier_wordName index, identifiers_nil⟩
    refine (writePart_spells tuple index part.1 (encoded part List.mem_cons_self) value).bind fun block written => ?_
    refine (ih (index + 1) fun part listed => encoded part (List.mem_cons_of_mem _ listed)).bind fun later inner => ?_
    exact .pure (by simp [written, inner])

/-- The encoder of a parameter list. -/
theorem parameterEncoder_spells (members : List (Labelled SolType)) (plain : isIdentifier name = true) :
    (parameterEncoder settings members name).Spells Routine.names := by
  refine (Offsets.callHead_spells _ _).bind fun headSize measured => ?_
  refine (writeParameters_spells _ _ _ (encodeEach_spells members _)).bind fun block inner => .pure ?_
  simp +decide [plain, measured, inner]

/-- The members of a decoded list. -/
theorem decodedParameters_spells (type : SolType) : (decodedParameters type).Spells fun _ => [] := by
  unfold decodedParameters
  split
  · exact .pure identifiers_nil
  · exact .pure identifiers_nil
  · exact .pure identifiers_nil
  · exact .pure identifiers_nil
  · exact unsupported_spells _ _ _

/-- The members of an encoded list. -/
theorem encodedParameters_spells (type : SolType) : (encodedParameters type).Spells fun _ => [] := by
  unfold encodedParameters
  split
  · exact .pure identifiers_nil
  · exact decodedParameters_spells type

/-- The request for the decoder of a parameter list. -/
theorem decodeParameterList_spells (type : SolType) : (decodeParameterList settings type).Spells fun name => [name] :=
  (decodedParameters_spells type).bind fun members _ =>
    .routineFor fun _ plain => parameterDecoder_spells members plain

/-- The request for the encoder of members. -/
theorem encodeMembers_spells (members : List (Labelled SolType)) :
    (encodeMembers settings members).Spells fun name => [name] :=
  .routineFor fun _ plain => parameterEncoder_spells members plain

/-- The request for the encoder of a parameter list. -/
theorem encodeParameterList_spells (type : SolType) : (encodeParameterList settings type).Spells fun name => [name] :=
  (encodedParameters_spells type).bind fun members _ => encodeMembers_spells members

/-- The names in a list of variables. -/
@[simp]
theorem namesOfAll_idents (names : List String) (others : List Expr) :
    Expr.namesOfAll (names.map Expr.ident ++ others) = names ++ Expr.namesOfAll others := by
  induction names with
  | nil => rfl
  | cons name rest ih => simp [ih]

/-- The request for the encoder of an error. -/
theorem encodeError_spells (type : SolType) : (encodeError settings type).Spells fun name => [name] := by
  unfold encodeError
  split
  · rename_i error parameters
    have named : isIdentifier (sanitize error ++ "_selector") = true :=
      isIdentifier_append (isIdentifier_sanitize error) (by decide)
    refine (Offsets.named_spells _ named _).bind fun selector selected => ?_
    refine (encodeMembers_spells parameters).bind fun encoder encoded => ?_
    refine .routineFor fun name plain => .pure ?_
    simp +decide [errorEncoder, plain, selected, (identifiers_cons.mp encoded).1]
  · exact unsupported_spells _ _ _

/-- The request for the encoder of the data of an event. -/
theorem encodeEvent_spells (type : SolType) : (encodeEvent settings type).Spells fun name => [name] := by
  unfold encodeEvent
  split
  · rename_i event _ topicFree _ anonymous
    have named : isIdentifier (sanitize event ++ "_topic0") = true :=
      isIdentifier_append (isIdentifier_sanitize event) (by decide)
    cases anonymous with
    | true => exact encodeMembers_spells topicFree
    | false => exact (Offsets.named_spells _ named _).bind fun _ _ => encodeMembers_spells topicFree
  · exact unsupported_spells _ _ _

/-! ### Casts -/

/-- A cast has the plain identifiers of the names of both routines in its own. -/
theorem cast_spells (source target : RoutineSignature) : (cast source target).Spells fun name => [name] := by
  unfold cast
  split
  · refine .addRoutine ?_
    have first := isTail_of_isIdentifier (isIdentifier_sanitize source.name)
    have second := isTail_of_isIdentifier (isIdentifier_sanitize target.name)
    have named : isIdentifier ("cast_" ++ sanitize source.name ++ "_to_" ++ sanitize target.name) = true :=
      isIdentifier_append (isIdentifier_append (isIdentifier_append (by decide) first) (by decide)) second
    simp +decide [castRoutine, Routine.names, named]
  · exact .throw _

end

end YulAbi.Codec
