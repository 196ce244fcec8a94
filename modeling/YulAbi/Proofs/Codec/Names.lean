import YulAbi.Proofs.Codec.Memoization
import YulAbi.Proofs.Naming.Alike

/-!
# Names do not depend on settings

Decoders and encoders of two settings are walked through together, in the order of their
definitions. What settings decide on is which constants are asked for and where segments begin
and end; these are offsets and sizes of the type whose routine is generated, which has its name
by then. The requests for parts are the same. So queries in a row that succeed under both
settings are answered with the same names.
-/

namespace YulAbi.Codec

open Offsets (words_namesNothing member_namesNothing memoryHead_namesNothing callHead_namesNothing)
open Yul (Expr Routine)

section

variable {settings settings' : Settings} {shapes : List Shape} {name : String}

/-- Whether two routines are generated under the same name, whatever their bodies are, and name alike. -/
abbrev GenerateAlike (shapes : List Shape) (first second : Emission Routine) : Prop :=
  Emission.NamesAlike shapes (fun routine routine' => routine.name = routine'.name) first second

/-- Whether two lists of parts have the same shapes, and decoders or encoders that name alike. -/
abbrev PartsAlike (shapes : List Shape) (parts parts' : List (Shape × Emission Handling)) : Prop :=
  List.Forall₂ (fun part part' => part.1 = part'.1 ∧ Emission.NamesAlike shapes Eq part.2 part'.2) parts parts'

/-- A task that does not apply names nothing. -/
theorem unsupported_namesNothing {α : Type} (shape : Shape) (task : Task) :
    (unsupported shape task : Emission α).NamesNothing shapes := .throw _

/-- The routines for values of a shape. -/
theorem handlingOf_namesAlike (operation : Operation) (task : Task) (shape : Shape)
    {generate generate' : String → Emission Routine}
    (generates : ∀ name, GenerateAlike (shape :: shapes) (generate name) (generate' name)) :
    Emission.NamesAlike shapes Eq (handlingOf operation task shape generate)
      (handlingOf operation task shape generate') := by
  unfold handlingOf
  split
  · exact .pure rfl
  · split
    · exact (Emission.NamesAlike.routineFor generates).bind fun _ _ same => .pure (congrArg _ same)
    · exact .throw _ _

/-- The length of bytes rounded up. -/
theorem paddedBytesSize_namesNothing (length : Expr) : (paddedBytesSize settings length).NamesNothing shapes :=
  (Offsets.named_namesNothing _ _ _).bind fun _ => (Offsets.named_namesNothing _ _ _).bind fun _ => .pure _

/-- The full size of the tail of an element. -/
theorem elementTailSize_namesNothing (element : Shape) (length : Expr) :
    (elementTailSize settings element length).NamesNothing shapes := by
  unfold elementTailSize
  split
  · exact paddedBytesSize_namesNothing _
  · exact paddedBytesSize_namesNothing _
  · split
    · exact .pure _
    · exact unsupported_namesNothing _ _
  · exact unsupported_namesNothing _ _

/-! ### Names of decoders -/

/-- The decoder of bytes and text. -/
theorem bytesDecoder_generateAlike : GenerateAlike shapes (bytesDecoder settings name) (bytesDecoder settings' name) :=
  (Offsets.named_namesNothing _ _ _).both (Offsets.named_namesNothing _ _ _) fun _ _ =>
    (paddedBytesSize_namesNothing _).both (paddedBytesSize_namesNothing _) fun _ _ => .pure rfl

/-- The decoder of arrays of words. -/
theorem wordArrayDecoder_generateAlike (freePointer freePointer' : Expr) (length : Option Nat) :
    GenerateAlike shapes (wordArrayDecoder settings freePointer length name)
      (wordArrayDecoder settings' freePointer' length name) := by
  unfold wordArrayDecoder
  cases length with
  | none => exact .pure rfl
  | some count => exact (words_namesNothing _ _).both (words_namesNothing _ _) fun _ _ => .pure rfl

/-- The frame of an array. -/
theorem decodeFrame_namesNothing (freePointer : Expr) (length : Option Nat) :
    (decodeFrame settings freePointer length).NamesNothing shapes := by
  unfold decodeFrame
  cases length with
  | none => exact (words_namesNothing _ _).bind fun _ => .pure _
  | some count => exact (words_namesNothing _ _).bind fun _ => .pure _

/-- The length word in front of the elements. -/
theorem storeLength_namesNothing (frame : ArrayFrame) : (storeLength settings frame).NamesNothing shapes := by
  unfold storeLength
  split
  · exact (words_namesNothing _ _).bind fun _ => .pure _
  · exact .pure _

/-- The decoder of arrays of static elements. -/
theorem staticTailDecoder_generateAlike (freePointer freePointer' : Expr) (frame frame' : ArrayFrame) (base : Shape) :
    GenerateAlike shapes (staticTailDecoder settings freePointer frame base name)
      (staticTailDecoder settings' freePointer' frame' base name) :=
  (Emission.NamesNothing.lift _).both (.lift _) fun _ _ =>
    (words_namesNothing _ _).both (words_namesNothing _ _) fun _ _ =>
      (storeLength_namesNothing _).both (storeLength_namesNothing _) fun _ _ => .pure rfl

/-- The decoder of arrays of one dynamic level. -/
theorem dynamicTailDecoder_generateAlike (freePointer freePointer' : Expr) (frame frame' : ArrayFrame) (base : Shape) :
    GenerateAlike shapes (dynamicTailDecoder settings freePointer frame base name)
      (dynamicTailDecoder settings' freePointer' frame' base name) := by
  refine (Offsets.named_namesNothing _ _ _).both (Offsets.named_namesNothing _ _ _) fun _ _ => ?_
  refine (elementTailSize_namesNothing _ _).both (elementTailSize_namesNothing _ _) fun _ _ => ?_
  dsimp only
  split
  · refine (words_namesNothing _ _).left fun _ => ?_
    split
    · exact (words_namesNothing _ _).right fun _ => .pure rfl
    · exact .pure rfl
  · split
    · exact (words_namesNothing _ _).right fun _ => .pure rfl
    · exact .pure rfl

/-- The decoder of arrays whose elements are decoded one by one. -/
theorem separateTailDecoder_generateAlike (freePointer freePointer' : Expr) (frame frame' : ArrayFrame) (base : Shape)
    {part part' : Emission Handling} (decoded : Emission.NamesAlike shapes Eq part part') :
    GenerateAlike shapes (separateTailDecoder settings freePointer frame base part name)
      (separateTailDecoder settings' freePointer' frame' base part' name) := by
  refine (storeLength_namesNothing _).both (storeLength_namesNothing _) fun _ _ => ?_
  dsimp only
  split
  · exact decoded.bind fun _ _ _ => .pure rfl
  · refine (Emission.NamesNothing.lift _).both (.lift _) fun _ _ => ?_
    refine (words_namesNothing _ _).both (words_namesNothing _ _) fun _ _ => ?_
    exact decoded.bind fun _ _ _ => .pure rfl

/-- The decoder of an array. -/
theorem arrayDecoder_generateAlike (base : Shape) (length : Option Nat) {part part' : Emission Handling}
    (decoded : Emission.NamesAlike shapes Eq part part') :
    GenerateAlike shapes (arrayDecoder settings base length part name)
      (arrayDecoder settings' base length part' name) := by
  refine (Offsets.named_namesNothing _ _ _).both (Offsets.named_namesNothing _ _ _) fun _ _ => ?_
  cases base.elementStrategy with
  | valueInline => exact wordArrayDecoder_generateAlike _ _ _
  | combinedStaticTail =>
    exact (decodeFrame_namesNothing _ _).both (decodeFrame_namesNothing _ _) fun _ _ =>
      staticTailDecoder_generateAlike _ _ _ _ _
  | combinedDynamicTail =>
    exact (decodeFrame_namesNothing _ _).both (decodeFrame_namesNothing _ _) fun _ _ =>
      dynamicTailDecoder_generateAlike _ _ _ _ _
  | separateTail =>
    exact (decodeFrame_namesNothing _ _).both (decodeFrame_namesNothing _ _) fun _ _ =>
      separateTailDecoder_generateAlike _ _ _ _ _ decoded

section

variable {type : SolType} (listed : type.shape ∈ shapes)

include listed

/-- The address of the encoding of a part. -/
theorem partSource_namesNothing (index : Nat) (part : Shape) (head : Expr) :
    (partSource settings type index part head).NamesNothing shapes :=
  (member_namesNothing _ listed _ _).bind fun _ => .pure _

/-- The segments of a struct that is decoded. -/
theorem copySegments_namesNothing (segments : List Segment) :
    (copySegments settings type segments).NamesNothing shapes := by
  induction segments with
  | nil => exact .pure _
  | cons segment rest ih =>
    refine (member_namesNothing _ listed _ _).bind fun _ => (member_namesNothing _ listed _ _).bind fun _ => ?_
    dsimp only
    split
    · exact ih.bind fun _ => .pure _
    · exact (words_namesNothing _ _).bind fun _ => ih.bind fun _ => .pure _

/-- The references among the members of a struct that is decoded. -/
theorem decodeReferences_namesAlike {parts parts' : List (Shape × Emission Handling)}
    (decoded : PartsAlike shapes parts parts') (index : Nat) :
    Emission.NamesAlike shapes (fun _ _ => True) (decodeReferences settings type index parts)
      (decodeReferences settings' type index parts') := by
  induction decoded generalizing index with
  | nil => exact .pure trivial
  | cons own others ih =>
    unfold decodeReferences
    rw [← own.1]
    split
    · refine (partSource_namesNothing listed _ _ _).both (partSource_namesNothing listed _ _ _) fun _ _ => ?_
      refine own.2.bind fun _ _ _ => ?_
      refine (member_namesNothing _ listed _ _).both (member_namesNothing _ listed _ _) fun _ _ => ?_
      exact (ih (index + 1)).bind fun _ _ _ => .pure trivial
    · exact ih (index + 1)

/-- The decoder of a struct or tuple, however its segments are formed. -/
theorem structDecoder_generateAlike {parts parts' : List (Emission Handling)}
    (decoded : PartsAlike shapes (type.shape.members.zip parts) (type.shape.members.zip parts')) :
    GenerateAlike shapes (structDecoder settings type parts name) (structDecoder settings' type parts' name) := by
  refine (Offsets.named_namesNothing _ _ _).both (Offsets.named_namesNothing _ _ _) fun _ _ => ?_
  refine (memoryHead_namesNothing _ listed).both (memoryHead_namesNothing _ listed) fun _ _ => ?_
  refine (Emission.NamesNothing.lift _).both (.lift _) fun _ _ => ?_
  refine (copySegments_namesNothing listed _).both (copySegments_namesNothing listed _) fun _ _ => ?_
  exact (decodeReferences_namesAlike listed decoded 0).bind fun _ _ _ => .pure rfl

end

mutual
/-- The decoder of a type; the proof follows the type. -/
theorem decode_namesAlike (type : SolType) (shapes : List Shape) :
    Emission.NamesAlike shapes Eq (decode settings type) (decode settings' type) := by
  cases type with
  | bytes | string => exact handlingOf_namesAlike _ _ _ fun _ => bytesDecoder_generateAlike
  | array base length =>
    exact handlingOf_namesAlike _ _ _ fun _ => arrayDecoder_generateAlike _ _ (decode_namesAlike base _)
  | struct | tuple =>
    exact handlingOf_namesAlike _ _ _ fun _ =>
      structDecoder_generateAlike List.mem_cons_self (decodeEach_partsAlike _ _ _)
  | _ => exact handlingOf_namesAlike _ _ _ fun _ => .throw _ _
/-- The decoders of several parts. -/
theorem decodeEach_partsAlike (members : List (Labelled SolType)) (parts : List Shape) (shapes : List Shape) :
    PartsAlike shapes (parts.zip (decodeEach settings members)) (parts.zip (decodeEach settings' members)) := by
  cases members with
  | nil => simp [decodeEach]
  | cons first rest =>
    cases parts with
    | nil => exact .nil
    | cons shape others =>
      exact .cons ⟨rfl, decode_namesAlike first.type shapes⟩ (decodeEach_partsAlike rest others shapes)
end

/-! ### Names of encoders -/

/-- The encoder of bytes and text. -/
theorem bytesEncoder_generateAlike : GenerateAlike shapes (bytesEncoder settings name) (bytesEncoder settings' name) :=
  (words_namesNothing _ _).both (words_namesNothing _ _) fun _ _ =>
    (paddedBytesSize_namesNothing _).both (paddedBytesSize_namesNothing _) fun _ _ => .pure rfl

/-- The encoder of arrays of words. -/
theorem wordArrayEncoder_generateAlike (length : Option Nat) :
    GenerateAlike shapes (wordArrayEncoder settings length name) (wordArrayEncoder settings' length name) := by
  unfold wordArrayEncoder
  cases length with
  | none => exact .pure rfl
  | some count => exact (words_namesNothing _ _).both (words_namesNothing _ _) fun _ _ => .pure rfl

/-- The frame of an array. -/
theorem encodeFrame_namesNothing (oneWord : Expr) (length : Option Nat) :
    (encodeFrame settings oneWord length).NamesNothing shapes := by
  unfold encodeFrame
  cases length with
  | none => exact .pure _
  | some count => exact (words_namesNothing _ _).bind fun _ => .pure _

/-- The encoder of arrays of static elements. -/
theorem staticTailEncoder_generateAlike (frame frame' : EncodeFrame) (base : Shape) :
    GenerateAlike shapes (staticTailEncoder settings frame base name) (staticTailEncoder settings' frame' base name) :=
  (Emission.NamesNothing.lift _).both (.lift _) fun _ _ =>
    (words_namesNothing _ _).both (words_namesNothing _ _) fun _ _ => .pure rfl

/-- The encoder of arrays of one dynamic level. -/
theorem dynamicTailEncoder_generateAlike (oneWord oneWord' : Expr) (frame frame' : EncodeFrame) (base : Shape) :
    GenerateAlike shapes (dynamicTailEncoder settings oneWord frame base name)
      (dynamicTailEncoder settings' oneWord' frame' base name) :=
  (elementTailSize_namesNothing _ _).both (elementTailSize_namesNothing _ _) fun _ _ => .pure rfl

/-- The encoder of arrays whose elements are encoded one by one. -/
theorem separateTailEncoder_generateAlike (frame frame' : EncodeFrame) (base : Shape) {part part' : Emission Handling}
    (encoded : Emission.NamesAlike shapes Eq part part') :
    GenerateAlike shapes (separateTailEncoder settings frame base part name)
      (separateTailEncoder settings' frame' base part' name) := by
  refine encoded.bind fun handling handling' same => ?_
  subst same
  cases handling with
  | inline => exact .throw _ _
  | routine encoder =>
    simp only [pure_bind]
    split
    · exact .pure rfl
    · exact (Emission.NamesNothing.lift _).both (.lift _) fun _ _ =>
        (words_namesNothing _ _).both (words_namesNothing _ _) fun _ _ => .pure rfl

/-- The encoder of an array. -/
theorem arrayEncoder_generateAlike (base : Shape) (length : Option Nat) {part part' : Emission Handling}
    (encoded : Emission.NamesAlike shapes Eq part part') :
    GenerateAlike shapes (arrayEncoder settings base length part name)
      (arrayEncoder settings' base length part' name) := by
  refine (words_namesNothing _ _).both (words_namesNothing _ _) fun _ _ => ?_
  cases base.elementStrategy with
  | valueInline => exact wordArrayEncoder_generateAlike _
  | combinedStaticTail =>
    exact (encodeFrame_namesNothing _ _).both (encodeFrame_namesNothing _ _) fun _ _ =>
      staticTailEncoder_generateAlike _ _ _
  | combinedDynamicTail =>
    exact (encodeFrame_namesNothing _ _).both (encodeFrame_namesNothing _ _) fun _ _ =>
      dynamicTailEncoder_generateAlike _ _ _ _ _
  | separateTail =>
    exact (encodeFrame_namesNothing _ _).both (encodeFrame_namesNothing _ _) fun _ _ =>
      separateTailEncoder_generateAlike _ _ _ encoded

section

variable {type : SolType} (listed : type.shape ∈ shapes)

include listed

/-- The segments of a struct that is encoded. -/
theorem writeSegments_namesNothing (segments : List Segment) :
    (writeSegments settings type segments).NamesNothing shapes := by
  induction segments with
  | nil => exact .pure _
  | cons segment rest ih =>
    refine (member_namesNothing _ listed _ _).bind fun _ => (member_namesNothing _ listed _ _).bind fun _ => ?_
    dsimp only
    split
    · exact ih.bind fun _ => .pure _
    · exact (words_namesNothing _ _).bind fun _ => ih.bind fun _ => .pure _

/-- What writes a part. -/
theorem writePart_namesAlike (index : Nat) (part : Shape) {encodePart encodePart' : Emission Handling}
    (encoded : Emission.NamesAlike shapes Eq encodePart encodePart') (value value' : Expr) :
    Emission.NamesAlike shapes (fun _ _ => True) (writePart settings type index part encodePart value)
      (writePart settings' type index part encodePart' value') := by
  refine (member_namesNothing _ listed _ _).both (member_namesNothing _ listed _ _) fun _ _ => ?_
  refine encoded.bind fun handling handling' same => ?_
  subst same
  cases handling with
  | inline => exact .pure trivial
  | routine encoder =>
    dsimp only
    split <;> exact .pure trivial

/-- The references among the members of a struct that is encoded. -/
theorem writeReferences_namesAlike {parts parts' : List (Shape × Emission Handling)}
    (encoded : PartsAlike shapes parts parts') (index : Nat) :
    Emission.NamesAlike shapes (fun _ _ => True) (writeReferences settings type index parts)
      (writeReferences settings' type index parts') := by
  induction encoded generalizing index with
  | nil => exact .pure trivial
  | cons own others ih =>
    unfold writeReferences
    rw [← own.1]
    split
    · refine (member_namesNothing _ listed _ _).both (member_namesNothing _ listed _ _) fun _ _ => ?_
      refine (writePart_namesAlike listed index _ own.2 _ _).bind fun _ _ _ => ?_
      exact (ih (index + 1)).bind fun _ _ _ => .pure trivial
    · exact ih (index + 1)

/-- The encoder of a struct or tuple, however its segments are formed. -/
theorem structEncoder_generateAlike {parts parts' : List (Emission Handling)}
    (encoded : PartsAlike shapes (type.shape.members.zip parts) (type.shape.members.zip parts')) :
    GenerateAlike shapes (structEncoder settings type parts name) (structEncoder settings' type parts' name) := by
  refine (callHead_namesNothing _ listed).both (callHead_namesNothing _ listed) fun _ _ => ?_
  refine (Emission.NamesNothing.lift _).both (.lift _) fun _ _ => ?_
  refine (writeSegments_namesNothing listed _).both (writeSegments_namesNothing listed _) fun _ _ => ?_
  exact (writeReferences_namesAlike listed encoded 0).bind fun _ _ _ => .pure rfl

end

mutual
/-- The encoder of a type; the proof follows the type. -/
theorem encode_namesAlike (type : SolType) (shapes : List Shape) :
    Emission.NamesAlike shapes Eq (encode settings type) (encode settings' type) := by
  cases type with
  | bytes | string => exact handlingOf_namesAlike _ _ _ fun _ => bytesEncoder_generateAlike
  | array base length =>
    exact handlingOf_namesAlike _ _ _ fun _ => arrayEncoder_generateAlike _ _ (encode_namesAlike base _)
  | struct | tuple =>
    exact handlingOf_namesAlike _ _ _ fun _ =>
      structEncoder_generateAlike List.mem_cons_self (encodeEach_partsAlike _ _ _)
  | _ => exact handlingOf_namesAlike _ _ _ fun _ => .throw _ _
/-- The encoders of several parts. -/
theorem encodeEach_partsAlike (members : List (Labelled SolType)) (parts : List Shape) (shapes : List Shape) :
    PartsAlike shapes (parts.zip (encodeEach settings members)) (parts.zip (encodeEach settings' members)) := by
  cases members with
  | nil => simp [encodeEach]
  | cons first rest =>
    cases parts with
    | nil => exact .nil
    | cons shape others =>
      exact .cons ⟨rfl, encode_namesAlike first.type shapes⟩ (encodeEach_partsAlike rest others shapes)
end

/-! ### Names of queries -/

section

variable {tuple : SolType} (listed : tuple.shape ∈ shapes)

include listed

/-- The parameters that are decoded. -/
theorem decodeParameters_namesAlike {parts parts' : List (Shape × Emission Handling)}
    (decoded : PartsAlike shapes parts parts') (index : Nat) :
    Emission.NamesAlike shapes (fun _ _ => True) (decodeParameters settings tuple index parts)
      (decodeParameters settings' tuple index parts') := by
  induction decoded generalizing index with
  | nil => exact .pure trivial
  | cons own others ih =>
    refine (partSource_namesNothing listed _ _ _).both (partSource_namesNothing listed _ _ _) fun _ _ => ?_
    exact own.2.bind fun _ _ _ => (ih (index + 1)).bind fun _ _ _ => .pure trivial

/-- The parameters that are encoded. -/
theorem writeParameters_namesAlike {parts parts' : List (Shape × Emission Handling)}
    (encoded : PartsAlike shapes parts parts') (index : Nat) :
    Emission.NamesAlike shapes (fun _ _ => True) (writeParameters settings tuple index parts)
      (writeParameters settings' tuple index parts') := by
  induction encoded generalizing index with
  | nil => exact .pure trivial
  | cons own others ih =>
    unfold writeParameters
    rw [← own.1]
    refine (writePart_namesAlike listed index _ own.2 _ _).bind fun _ _ _ => ?_
    exact (ih (index + 1)).bind fun _ _ _ => .pure trivial

end

/-- The decoder of a parameter list. -/
theorem parameterDecoder_generateAlike {members : List (Labelled SolType)}
    (listed : (SolType.tuple members).shape ∈ shapes) :
    GenerateAlike shapes (parameterDecoder settings members name) (parameterDecoder settings' members name) :=
  (decodeParameters_namesAlike listed (decodeEach_partsAlike members _ _) 0).bind fun _ _ _ => .pure rfl

/-- The encoder of a parameter list. -/
theorem parameterEncoder_generateAlike {members : List (Labelled SolType)}
    (listed : (SolType.tuple members).shape ∈ shapes) :
    GenerateAlike shapes (parameterEncoder settings members name) (parameterEncoder settings' members name) := by
  refine (callHead_namesNothing _ listed).both (callHead_namesNothing _ listed) fun _ _ => ?_
  exact (writeParameters_namesAlike listed (encodeEach_partsAlike members _ _) 0).bind fun _ _ _ => .pure rfl

/-- The encoder of members. -/
theorem encodeMembers_namesAlike (members : List (Labelled SolType)) :
    Emission.NamesAlike shapes Eq (encodeMembers settings members) (encodeMembers settings' members) :=
  .routineFor fun _ => parameterEncoder_generateAlike List.mem_cons_self

/-- The members of a decoded list. -/
theorem decodedParameters_namesAlike (type : SolType) :
    Emission.NamesAlike shapes Eq (decodedParameters type) (decodedParameters type) := by
  unfold decodedParameters
  split
  all_goals first
    | exact .pure rfl
    | exact .throw _ _

/-- The members of an encoded list. -/
theorem encodedParameters_namesAlike (type : SolType) :
    Emission.NamesAlike shapes Eq (encodedParameters type) (encodedParameters type) := by
  unfold encodedParameters
  split
  · exact .pure rfl
  · exact decodedParameters_namesAlike _

/-- The encoder of an error. -/
theorem encodeError_namesAlike (type : SolType) :
    Emission.NamesAlike shapes Eq (encodeError settings type) (encodeError settings' type) := by
  unfold encodeError
  split
  · refine (Offsets.named_namesNothing _ _ _).both (Offsets.named_namesNothing _ _ _) fun _ _ => ?_
    exact (encodeMembers_namesAlike _).bind fun _ _ _ => .routineFor fun _ => .pure rfl
  · exact .throw _ _

/-- The encoder of the data of an event. -/
theorem encodeEvent_namesAlike (type : SolType) :
    Emission.NamesAlike shapes Eq (encodeEvent settings type) (encodeEvent settings' type) := by
  unfold encodeEvent
  split
  · rename_i event parameters topicFree indexed anonymous
    cases anonymous with
    | true => exact encodeMembers_namesAlike _
    | false =>
      exact (Offsets.named_namesNothing _ _ _).both (Offsets.named_namesNothing _ _ _) fun _ _ =>
        encodeMembers_namesAlike _
  · exact .throw _ _

/-- Whatever is asked for, settings do not change its name. -/
theorem Query.serve_namesAlike (query : Query) :
    Emission.NamesAlike shapes Eq (query.serve settings) (query.serve settings') := by
  have named : ∀ {emission emission' : Emission String}, Emission.NamesAlike shapes Eq emission emission' →
      Emission.NamesAlike shapes Eq (do return Handling.routine (← emission)) (do return .routine (← emission')) :=
    fun alike => alike.bind fun _ _ same => .pure (congrArg _ same)
  cases query with
  | decode type => exact decode_namesAlike type shapes
  | encode type => exact encode_namesAlike type shapes
  | decodeParameters type =>
    refine named ((decodedParameters_namesAlike type).bind fun members members' same => ?_)
    subst same
    exact .routineFor fun _ => parameterDecoder_generateAlike List.mem_cons_self
  | encodeParameters type =>
    refine named ((encodedParameters_namesAlike type).bind fun members members' same => ?_)
    subst same
    exact encodeMembers_namesAlike members
  | encodeError type => exact named (encodeError_namesAlike type)
  | encodeEvent type => exact named (encodeEvent_namesAlike type)

end

/-- Whatever the settings, queries that succeed in a row are answered alike, where names are given out alike before.
The induction is on the queries that are left. -/
theorem transcript_names_agree (settings settings' : Settings) (queries : List Query) {before before' : Workspace}
    (alike : before.NamedAlike before')
    (succeeds : ∀ entry ∈ (transcript settings queries before).1, ∃ handling, entry.2 = .ok handling)
    (succeeds' : ∀ entry ∈ (transcript settings' queries before').1, ∃ handling, entry.2 = .ok handling) :
    (transcript settings queries before).1 = (transcript settings' queries before').1 := by
  induction queries generalizing before before' with
  | nil => rfl
  | cons query rest ih =>
    rcases ended : (query.serve settings).runOn before with ⟨answer, reached⟩
    rcases ended' : (query.serve settings').runOn before' with ⟨answer', reached'⟩
    simp only [transcript, ended, ended'] at succeeds succeeds' ⊢
    obtain ⟨⟨handling, rfl⟩, others⟩ := List.forall_mem_cons.mp succeeds
    obtain ⟨⟨handling', rfl⟩, others'⟩ := List.forall_mem_cons.mp succeeds'
    have served : Emission.NamesAlike [] Eq (query.serve settings) (query.serve settings') := query.serve_namesAlike
    obtain ⟨same, middle, -⟩ := served _ _ _ _ _ _ alike (List.forall_mem_nil _) ended ended'
    rw [same, ih middle others others']

end YulAbi.Codec
