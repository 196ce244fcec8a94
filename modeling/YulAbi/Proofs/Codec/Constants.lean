import YulAbi.Proofs.Codec.Memoization
import YulAbi.Proofs.Naming.Constants

/-!
# Constants of queries never collide

Decoders and encoders are walked through in the order of their definitions. All constants that
they ask for are common ones, or offsets and sizes of a struct or tuple that is a part of what the
query is about, or the selector or topic that it wants. So if these types are named well enough
apart, no query on a run of the generator is refused because of a constant, whatever was asked for
before and whatever failed.
-/

namespace YulAbi

/-! ### What queries name constants after -/

mutual
/-- The structs and tuples that are decoded or encoded with a type, itself included. -/
def SolType.composites : SolType → List SolType
  | .array base _ => base.composites
  | .struct name members => .struct name members :: compositesAll members
  | .tuple members => .tuple members :: compositesAll members
  | _ => []
/-- Those of several parts. -/
def SolType.compositesAll : List (Labelled SolType) → List SolType
  | [] => []
  | part :: rest => part.type.composites ++ compositesAll rest
end

namespace Codec

open Yul (Routine)

/-- The type that a query is about; for a list of parameters it is their tuple. -/
def Query.subject : Query → SolType
  | .decode type | .encode type => type
  | .decodeParameters type | .encodeError type | .encodeEvent type => .tuple ((decodedMembers? type).getD [])
  | .encodeParameters type => .tuple ((encodedMembers? type).getD [])

/-- The errors and events whose hashes a query wants. -/
def Query.signatures : Query → List SolType
  | .encodeError type | .encodeEvent type => [type]
  | _ => []

/-- The types that constants of queries are named after. -/
def constantScope (queries : List Query) : ConstantScope :=
  ⟨queries.flatMap fun query => query.subject.composites, queries.flatMap Query.signatures⟩

section

variable {settings : Settings} {scope : ConstantScope} {name : String}

/-! ### Decoders -/

/-- A task that does not apply binds nothing. -/
theorem unsupported_binds {α : Type} (shape : Shape) (task : Task) : (unsupported shape task : Emission α).Binds scope :=
  .throw rfl

/-- The routine for values of a shape. -/
theorem handlingOf_binds (operation : Operation) (task : Task) (shape : Shape) {generate : String → Emission Routine}
    (generates : ∀ name, (generate name).Binds scope) : (handlingOf operation task shape generate).Binds scope := by
  unfold handlingOf
  split
  · exact .pure _
  · split
    · exact (Emission.Binds.routineFor generates).bind fun _ => .pure _
    · exact unsupported_binds _ _

/-- The length of bytes rounded up. -/
theorem paddedBytesSize_binds (length : Yul.Expr) : (paddedBytesSize settings length).Binds scope :=
  (Offsets.fixed_binds _ _).bind fun _ => (Offsets.fixed_binds _ _).bind fun _ => .pure _

/-- The full size of the tail of an element. -/
theorem elementTailSize_binds (element : Shape) (length : Yul.Expr) :
    (elementTailSize settings element length).Binds scope := by
  unfold elementTailSize
  split
  · exact paddedBytesSize_binds _
  · exact paddedBytesSize_binds _
  · split
    · exact .pure _
    · exact unsupported_binds _ _
  · exact unsupported_binds _ _

/-- The decoder of bytes and text. -/
theorem bytesDecoder_binds : (bytesDecoder settings name).Binds scope :=
  (Offsets.fixed_binds _ _).bind fun _ => (paddedBytesSize_binds _).bind fun _ => .pure _

/-- The decoder of arrays of words. -/
theorem wordArrayDecoder_binds (freePointer : Yul.Expr) (length : Option Nat) :
    (wordArrayDecoder settings freePointer length name).Binds scope := by
  unfold wordArrayDecoder
  cases length with
  | none => exact .pure _
  | some count => exact (Offsets.words_binds _ _).bind fun _ => .pure _

/-- The frame of an array. -/
theorem decodeFrame_binds (freePointer : Yul.Expr) (length : Option Nat) :
    (decodeFrame settings freePointer length).Binds scope := by
  unfold decodeFrame
  cases length with
  | none => exact (Offsets.words_binds _ _).bind fun _ => .pure _
  | some count => exact (Offsets.words_binds _ _).bind fun _ => .pure _

/-- The length word in front of the elements. -/
theorem storeLength_binds (frame : ArrayFrame) : (storeLength settings frame).Binds scope := by
  unfold storeLength
  split
  · exact (Offsets.words_binds _ _).bind fun _ => .pure _
  · exact .pure _

/-- The decoder of arrays of static elements. -/
theorem staticTailDecoder_binds (freePointer : Yul.Expr) (frame : ArrayFrame) (base : Shape) :
    (staticTailDecoder settings freePointer frame base name).Binds scope :=
  .measured (Shape.encodedSize_measures base) fun _ _ => (Offsets.words_binds _ _).bind fun _ =>
    (storeLength_binds frame).bind fun _ => .pure _

/-- The decoder of arrays of one dynamic level. -/
theorem dynamicTailDecoder_binds (freePointer : Yul.Expr) (frame : ArrayFrame) (base : Shape) :
    (dynamicTailDecoder settings freePointer frame base name).Binds scope := by
  refine (Offsets.fixed_binds _ _).bind fun _ => (elementTailSize_binds _ _).bind fun _ => ?_
  dsimp only
  split
  · exact (Offsets.words_binds _ _).bind fun _ => .pure _
  · exact .pure _

/-- The decoder of arrays whose elements are decoded one by one. -/
theorem separateTailDecoder_binds (freePointer : Yul.Expr) (frame : ArrayFrame) (base : Shape)
    {decodeElement : Emission Handling} (part : decodeElement.Binds scope) :
    (separateTailDecoder settings freePointer frame base decodeElement name).Binds scope := by
  refine (storeLength_binds frame).bind fun _ => ?_
  dsimp only
  split
  · exact part.bind fun _ => .pure _
  · exact .measured (Shape.headSize_measures base) fun _ _ => (Offsets.words_binds _ _).bind fun _ =>
      part.bind fun _ => .pure _

/-- The decoder of an array. -/
theorem arrayDecoder_binds (base : Shape) (length : Option Nat) {decodeElement : Emission Handling}
    (part : decodeElement.Binds scope) : (arrayDecoder settings base length decodeElement name).Binds scope := by
  refine (Offsets.fixed_binds _ _).bind fun freePointer => ?_
  split
  · exact wordArrayDecoder_binds _ _
  · exact (decodeFrame_binds _ _).bind fun frame => staticTailDecoder_binds _ frame base
  · exact (decodeFrame_binds _ _).bind fun frame => dynamicTailDecoder_binds _ frame base
  · exact (decodeFrame_binds _ _).bind fun frame => separateTailDecoder_binds _ frame base part

section

variable {type : SolType} (listed : type ∈ scope.composites)
  (composite : type.shape.IsComposite (SolType.shapes type.members))

include listed composite

/-- The address of the encoding of a part. -/
theorem partSource_binds (index : Nat) (part : Shape) (head : Yul.Expr) :
    (partSource settings type index part head).Binds scope :=
  (Offsets.member_binds listed _ composite index (by decide)).bind fun _ => .pure _

/-- The segments of a struct that is decoded. -/
theorem copySegments_binds (segments : List Segment) : (copySegments settings type segments).Binds scope := by
  induction segments with
  | nil => exact .pure _
  | cons segment rest ih =>
    refine (Offsets.member_binds listed _ composite _ (by decide)).bind fun _ => ?_
    refine (Offsets.member_binds listed _ composite _ (by decide)).bind fun _ => ?_
    dsimp only
    split
    · exact ih.bind fun _ => .pure _
    · exact (Offsets.words_binds _ _).bind fun _ => ih.bind fun _ => .pure _

/-- The references among the members of a struct that is decoded. -/
theorem decodeReferences_binds (index : Nat) (parts : List (Shape × Emission Handling))
    (decoded : ∀ part ∈ parts, part.2.Binds scope) : (decodeReferences settings type index parts).Binds scope := by
  induction parts generalizing index with
  | nil => exact .pure _
  | cons part rest ih =>
    have others := ih (index + 1) fun part listed => decoded part (List.mem_cons_of_mem _ listed)
    unfold decodeReferences
    split
    · refine (partSource_binds listed composite index part.1 _).bind fun _ => ?_
      refine (decoded part List.mem_cons_self).bind fun _ => ?_
      exact (Offsets.member_binds listed _ composite index (by decide)).bind fun _ => others.bind fun _ => .pure _
    · exact others

/-- The decoder of a struct or tuple. -/
theorem structDecoder_binds {decodeMembers : List (Emission Handling)}
    (decoded : ∀ part ∈ type.shape.members.zip decodeMembers, part.2.Binds scope) :
    (structDecoder settings type decodeMembers name).Binds scope := by
  refine (Offsets.fixed_binds _ _).bind fun _ => (Offsets.memoryHead_binds listed _).bind fun _ => ?_
  refine .measured (Shape.segmentation_measures _ _) fun segmentation _ => ?_
  refine (copySegments_binds listed composite _).bind fun _ => ?_
  exact (decodeReferences_binds listed composite 0 _ decoded).bind fun _ => .pure _

end

mutual
/-- The decoder of a type; the proof follows the type. -/
theorem decode_binds (type : SolType) (listed : ∀ inner ∈ type.composites, inner ∈ scope.composites) :
    (decode settings type).Binds scope := by
  cases type with
  | bytes | string => exact handlingOf_binds _ _ _ fun _ => bytesDecoder_binds
  | array base length => exact handlingOf_binds _ _ _ fun _ => arrayDecoder_binds _ _ (decode_binds base listed)
  | struct name members =>
    obtain ⟨own, others⟩ := List.forall_mem_cons.mp listed
    exact handlingOf_binds _ _ _ fun _ => structDecoder_binds own (.inl ⟨name, rfl⟩) (decodeEach_binds members _ others)
  | tuple members =>
    obtain ⟨own, others⟩ := List.forall_mem_cons.mp listed
    exact handlingOf_binds _ _ _ fun _ => structDecoder_binds own (.inr rfl) (decodeEach_binds members _ others)
  | _ => exact handlingOf_binds _ _ _ fun _ => unsupported_binds _ _
/-- The decoders of several parts. -/
theorem decodeEach_binds (members : List (Labelled SolType)) (shapes : List Shape)
    (listed : ∀ inner ∈ SolType.compositesAll members, inner ∈ scope.composites) :
    ∀ part ∈ shapes.zip (decodeEach settings members), part.2.Binds scope := by
  cases members with
  | nil => simp [decodeEach]
  | cons first rest =>
    obtain ⟨own, others⟩ := List.forall_mem_append.mp listed
    cases shapes with
    | nil => exact nofun
    | cons shape shapes => exact List.forall_mem_cons.mpr ⟨decode_binds first.type own, decodeEach_binds rest shapes others⟩
end

/-! ### Encoders -/

/-- The encoder of bytes and text. -/
theorem bytesEncoder_binds : (bytesEncoder settings name).Binds scope :=
  (Offsets.words_binds _ _).bind fun _ => (paddedBytesSize_binds _).bind fun _ => .pure _

/-- The encoder of arrays of words. -/
theorem wordArrayEncoder_binds (length : Option Nat) : (wordArrayEncoder settings length name).Binds scope := by
  unfold wordArrayEncoder
  cases length with
  | none => exact .pure _
  | some count => exact (Offsets.words_binds _ _).bind fun _ => .pure _

/-- The frame of an array. -/
theorem encodeFrame_binds (oneWord : Yul.Expr) (length : Option Nat) :
    (encodeFrame settings oneWord length).Binds scope := by
  unfold encodeFrame
  cases length with
  | none => exact .pure _
  | some count => exact (Offsets.words_binds _ _).bind fun _ => .pure _

/-- The encoder of arrays of static elements. -/
theorem staticTailEncoder_binds (frame : EncodeFrame) (base : Shape) :
    (staticTailEncoder settings frame base name).Binds scope :=
  .measured (Shape.encodedSize_measures base) fun _ _ => (Offsets.words_binds _ _).bind fun _ => .pure _

/-- The encoder of arrays of one dynamic level. -/
theorem dynamicTailEncoder_binds (oneWord : Yul.Expr) (frame : EncodeFrame) (base : Shape) :
    (dynamicTailEncoder settings oneWord frame base name).Binds scope :=
  (elementTailSize_binds _ _).bind fun _ => .pure _

/-- The encoder of arrays whose elements are encoded one by one. -/
theorem separateTailEncoder_binds (frame : EncodeFrame) (base : Shape) {encodeElement : Emission Handling}
    (part : encodeElement.Binds scope) : (separateTailEncoder settings frame base encodeElement name).Binds scope := by
  refine part.bind fun handling => ?_
  cases handling with
  | inline => exact unsupported_binds _ _
  | routine encoder =>
    simp only [pure_bind]
    split
    · exact .pure _
    · exact .measured (Shape.headSize_measures base) fun _ _ => (Offsets.words_binds _ _).bind fun _ => .pure _

/-- The encoder of an array. -/
theorem arrayEncoder_binds (base : Shape) (length : Option Nat) {encodeElement : Emission Handling}
    (part : encodeElement.Binds scope) : (arrayEncoder settings base length encodeElement name).Binds scope := by
  refine (Offsets.words_binds _ _).bind fun oneWord => ?_
  split
  · exact wordArrayEncoder_binds _
  · exact (encodeFrame_binds _ _).bind fun frame => staticTailEncoder_binds frame base
  · exact (encodeFrame_binds _ _).bind fun frame => dynamicTailEncoder_binds _ frame base
  · exact (encodeFrame_binds _ _).bind fun frame => separateTailEncoder_binds frame base part

section

variable {type : SolType} (listed : type ∈ scope.composites)
  (composite : type.shape.IsComposite (SolType.shapes type.members))

include listed composite

/-- The segments of a struct that is encoded. -/
theorem writeSegments_binds (segments : List Segment) : (writeSegments settings type segments).Binds scope := by
  induction segments with
  | nil => exact .pure _
  | cons segment rest ih =>
    refine (Offsets.member_binds listed _ composite _ (by decide)).bind fun _ => ?_
    refine (Offsets.member_binds listed _ composite _ (by decide)).bind fun _ => ?_
    dsimp only
    split
    · exact ih.bind fun _ => .pure _
    · exact (Offsets.words_binds _ _).bind fun _ => ih.bind fun _ => .pure _

/-- What writes a part. -/
theorem writePart_binds (index : Nat) (part : Shape) {encodePart : Emission Handling} (encoded : encodePart.Binds scope)
    (value : Yul.Expr) : (writePart settings type index part encodePart value).Binds scope := by
  refine (Offsets.member_binds listed _ composite index (by decide)).bind fun _ => encoded.bind fun handling => ?_
  cases handling with
  | inline => exact .pure _
  | routine encoder =>
    dsimp only
    split <;> exact .pure _

/-- The references among the members of a struct that is encoded. -/
theorem writeReferences_binds (index : Nat) (parts : List (Shape × Emission Handling))
    (encoded : ∀ part ∈ parts, part.2.Binds scope) : (writeReferences settings type index parts).Binds scope := by
  induction parts generalizing index with
  | nil => exact .pure _
  | cons part rest ih =>
    have others := ih (index + 1) fun part listed => encoded part (List.mem_cons_of_mem _ listed)
    unfold writeReferences
    split
    · refine (Offsets.member_binds listed _ composite index (by decide)).bind fun _ => ?_
      refine (writePart_binds listed composite index part.1 (encoded part List.mem_cons_self) _).bind fun _ => ?_
      exact others.bind fun _ => .pure _
    · exact others

/-- The encoder of a struct or tuple. -/
theorem structEncoder_binds {encodeMembers : List (Emission Handling)}
    (encoded : ∀ part ∈ type.shape.members.zip encodeMembers, part.2.Binds scope) :
    (structEncoder settings type encodeMembers name).Binds scope := by
  refine (Offsets.callHead_binds listed _).bind fun _ => ?_
  refine .measured (Shape.segmentation_measures _ _) fun segmentation _ => ?_
  refine (writeSegments_binds listed composite _).bind fun _ => ?_
  exact (writeReferences_binds listed composite 0 _ encoded).bind fun _ => .pure _

end

mutual
/-- The encoder of a type; the proof follows the type. -/
theorem encode_binds (type : SolType) (listed : ∀ inner ∈ type.composites, inner ∈ scope.composites) :
    (encode settings type).Binds scope := by
  cases type with
  | bytes | string => exact handlingOf_binds _ _ _ fun _ => bytesEncoder_binds
  | array base length => exact handlingOf_binds _ _ _ fun _ => arrayEncoder_binds _ _ (encode_binds base listed)
  | struct name members =>
    obtain ⟨own, others⟩ := List.forall_mem_cons.mp listed
    exact handlingOf_binds _ _ _ fun _ => structEncoder_binds own (.inl ⟨name, rfl⟩) (encodeEach_binds members _ others)
  | tuple members =>
    obtain ⟨own, others⟩ := List.forall_mem_cons.mp listed
    exact handlingOf_binds _ _ _ fun _ => structEncoder_binds own (.inr rfl) (encodeEach_binds members _ others)
  | _ => exact handlingOf_binds _ _ _ fun _ => unsupported_binds _ _
/-- The encoders of several parts. -/
theorem encodeEach_binds (members : List (Labelled SolType)) (shapes : List Shape)
    (listed : ∀ inner ∈ SolType.compositesAll members, inner ∈ scope.composites) :
    ∀ part ∈ shapes.zip (encodeEach settings members), part.2.Binds scope := by
  cases members with
  | nil => simp [encodeEach]
  | cons first rest =>
    obtain ⟨own, others⟩ := List.forall_mem_append.mp listed
    cases shapes with
    | nil => exact nofun
    | cons shape shapes => exact List.forall_mem_cons.mpr ⟨encode_binds first.type own, encodeEach_binds rest shapes others⟩
end

/-! ### Parameter lists, errors and events -/

section

variable {tuple : SolType} (listed : tuple ∈ scope.composites)
  (composite : tuple.shape.IsComposite (SolType.shapes tuple.members))

include listed composite

/-- The parameters that are decoded. -/
theorem decodeParameters_binds (index : Nat) (parts : List (Shape × Emission Handling))
    (decoded : ∀ part ∈ parts, part.2.Binds scope) : (decodeParameters settings tuple index parts).Binds scope := by
  induction parts generalizing index with
  | nil => exact .pure _
  | cons part rest ih =>
    refine (partSource_binds listed composite index part.1 _).bind fun _ => ?_
    refine (decoded part List.mem_cons_self).bind fun _ => ?_
    exact (ih (index + 1) fun part listed => decoded part (List.mem_cons_of_mem _ listed)).bind fun _ => .pure _

/-- The parameters that are encoded. -/
theorem writeParameters_binds (index : Nat) (parts : List (Shape × Emission Handling))
    (encoded : ∀ part ∈ parts, part.2.Binds scope) : (writeParameters settings tuple index parts).Binds scope := by
  induction parts generalizing index with
  | nil => exact .pure _
  | cons part rest ih =>
    refine (writePart_binds listed composite index part.1 (encoded part List.mem_cons_self) _).bind fun _ => ?_
    exact (ih (index + 1) fun part listed => encoded part (List.mem_cons_of_mem _ listed)).bind fun _ => .pure _

end

section

variable {members : List (Labelled SolType)}
  (listed : ∀ inner ∈ (SolType.tuple members).composites, inner ∈ scope.composites)

include listed

/-- The decoder of a parameter list. -/
theorem parameterDecoder_binds : (parameterDecoder settings members name).Binds scope := by
  obtain ⟨own, others⟩ := List.forall_mem_cons.mp listed
  exact (decodeParameters_binds own (.inr rfl) 0 _ (decodeEach_binds members _ others)).bind fun _ => .pure _

/-- The encoder of a parameter list. -/
theorem parameterEncoder_binds : (parameterEncoder settings members name).Binds scope := by
  obtain ⟨own, others⟩ := List.forall_mem_cons.mp listed
  refine (Offsets.callHead_binds own _).bind fun _ => ?_
  exact (writeParameters_binds own (.inr rfl) 0 _ (encodeEach_binds members _ others)).bind fun _ => .pure _

/-- The request for the encoder of members. -/
theorem encodeMembers_binds : (encodeMembers settings members).Binds scope :=
  .routineFor fun _ => parameterEncoder_binds listed

end

/-- What is done with the members of a decoded list, if there is one. -/
theorem decodedParameters_binds {β : Type} {next : List (Labelled SolType) → Emission β} (type : SolType)
    (h : ∀ members, decodedMembers? type = some members → (next members).Binds scope) :
    (decodedParameters type >>= next).Binds scope := by
  unfold decodedParameters
  split
  · exact h _ rfl
  · exact h _ rfl
  · exact h _ rfl
  · exact h _ rfl
  · have refused : (unsupported type.shape .parameters : Emission β).Binds scope := unsupported_binds _ _
    exact refused

/-- What is done with the members of an encoded list, if there is one. -/
theorem encodedParameters_binds {β : Type} {next : List (Labelled SolType) → Emission β} (type : SolType)
    (h : ∀ members, encodedMembers? type = some members → (next members).Binds scope) :
    (encodedParameters type >>= next).Binds scope := by
  unfold encodedParameters
  split
  · exact h _ rfl
  · rename_i other
    refine decodedParameters_binds type fun members resolved => h members ?_
    unfold encodedMembers?
    split
    · exact absurd rfl (other _ _ _ _)
    · exact resolved

/-- Whatever a query asks for, it binds no name to two values. -/
theorem Query.serve_binds (query : Query) (composites : ∀ inner ∈ query.subject.composites, inner ∈ scope.composites)
    (signatures : ∀ type ∈ query.signatures, type ∈ scope.signatures) : (query.serve settings).Binds scope := by
  have named : ∀ {emission : Emission String}, emission.Binds scope →
      (do return Handling.routine (← emission)).Binds scope := fun binds => binds.bind fun _ => .pure _
  cases query with
  | decode type => exact decode_binds type composites
  | encode type => exact encode_binds type composites
  | decodeParameters type =>
    refine named (decodedParameters_binds type fun members resolved => .routineFor fun _ => parameterDecoder_binds ?_)
    rwa [subject, resolved] at composites
  | encodeParameters type =>
    refine named (encodedParameters_binds type fun members resolved => encodeMembers_binds ?_)
    rwa [subject, resolved] at composites
  | encodeError type =>
    refine named ?_
    unfold Codec.encodeError
    split
    · have listed := signatures _ List.mem_cons_self
      refine (Offsets.signature_binds _ fun _ => .selector listed rfl).bind fun _ => ?_
      exact (encodeMembers_binds composites).bind fun _ => .routineFor fun _ => .pure _
    · exact unsupported_binds _ _
  | encodeEvent type =>
    refine named ?_
    unfold Codec.encodeEvent
    split
    · rename_i event parameters topicFree indexed anonymous
      cases anonymous with
      | true => exact encodeMembers_binds composites
      | false =>
        have listed := signatures _ List.mem_cons_self
        exact (Offsets.signature_binds _ fun _ => .topic listed rfl).bind fun _ => encodeMembers_binds composites
    · exact unsupported_binds _ _

/-- Queries in a row bind no name to two values. -/
theorem transcript_binds (apart : scope.NamesApart) (queries : List Query)
    (composites : ∀ query ∈ queries, ∀ inner ∈ query.subject.composites, inner ∈ scope.composites)
    (signatures : ∀ query ∈ queries, ∀ type ∈ query.signatures, type ∈ scope.signatures) {before : Workspace}
    (bound : before.Bound scope) : ∀ entry ∈ (transcript settings queries before).1, ∀ name existing requested,
      entry.2 ≠ .error (.constantConflict name existing requested) := by
  induction queries generalizing before with
  | nil => exact nofun
  | cons query rest ih =>
    have binds : (query.serve settings).Binds scope :=
      query.serve_binds (composites query List.mem_cons_self) (signatures query List.mem_cons_self)
    have served := binds apart before bound
    exact List.forall_mem_cons.mpr ⟨served.2, ih (fun other listed => composites other (List.mem_cons_of_mem _ listed))
      (fun other listed => signatures other (List.mem_cons_of_mem _ listed)) served.1⟩

/-- If the structs, tuples, errors and events of some queries are named apart, then none of the queries, served one after
the other on a run of the generator that starts with an empty unit, is refused because a constant has another value. -/
theorem transcript_never_rebinds (settings : Settings) (queries : List Query)
    (apart : (constantScope queries).NamesApart) :
    ∀ entry ∈ (transcript settings queries (.start .empty)).1, ∀ name existing requested,
      entry.2 ≠ .error (.constantConflict name existing requested) :=
  transcript_binds apart queries (fun query listed _ inner => List.mem_flatMap.mpr ⟨query, listed, inner⟩)
    (fun query listed _ inner => List.mem_flatMap.mpr ⟨query, listed, inner⟩) (Workspace.bound_start _)

end

/-- A struct with parts in two places of call data. -/
def orderType : SolType :=
  .struct "Order" [⟨some "maker", .address⟩, ⟨some "data", .bytes⟩, ⟨some "limits", .array (.integer false 256) (some 2)⟩]

/-- Queries for the struct, for a function and an error that take it, and for an event. -/
def orderQueries : List Query :=
  [.decode orderType, .encode (.array orderType none),
    .decodeParameters (.function "place" [⟨some "order", orderType⟩, ⟨none, .bytes⟩] [⟨some "id", .integer false 64⟩] .payable),
    .encodeError (.error "Refused" [⟨some "order", orderType⟩]),
    .encodeEvent (.event "Placed" [⟨some "id", .integer false 64⟩, ⟨some "order", orderType⟩] [⟨some "order", orderType⟩]
      [true, false] false)]

/-- Their types are named apart, so none of these queries is refused because of a constant. -/
theorem orderQueries_never_rebind : (constantScope orderQueries).NamesPlain ∧
    ∀ entry ∈ (transcript .standard orderQueries (.start .empty)).1, ∀ name existing requested,
      entry.2 ≠ .error (.constantConflict name existing requested) := by
  have plain : (constantScope orderQueries).NamesPlain := by
    constructor
    · unfold ConstantScope.PartsDistinct
      decide +kernel
    · unfold ConstantScope.SignaturesDistinct
      decide +kernel
    · decide +kernel
    · decide +kernel
  exact ⟨plain, transcript_never_rebinds .standard orderQueries plain.apart⟩

/-- Two parts whose names become one identifier meet under the name of one constant. -/
example : (transcript .standard
    [.decode (.struct "P" [⟨some "x", .bytes⟩, ⟨some "a$b", .bytes⟩, ⟨some "a_b", .bytes⟩])] (.start .empty)).1.map Prod.snd =
      [.error (.constantConflict "P_a_b_cd_offset" 32#256 64#256)] := by decide +kernel

end Codec

end YulAbi
