import YulAbi.Codec.Signature
import YulAbi.Proofs.Codec.ParameterList.Routines

/-!
# Sessions of requests

A session starts with a unit and serves requests one after the other. As long as none of
them fails, every routine that a request was answered with stays what it was made for: the
decoders and encoders of types as well as those of parameter lists and errors.
-/

namespace YulAbi.Codec

/-- What may be requested. -/
inductive Request where
  /-- The decoder of a type. -/
  | decode (type : SolType)
  /-- The encoder of a type. -/
  | encode (type : SolType)
  /-- The decoder of the parameters of a type. -/
  | decodeParameters (type : SolType)
  /-- The encoder of the parameters of a type. -/
  | encodeParameters (type : SolType)
  /-- The encoder of an error. -/
  | encodeError (type : SolType)
  /-- The encoder of the data of an event. -/
  | encodeEvent (type : SolType)
  /-- How the decoder of a type looks from Solidity. -/
  | decoderSignature (type : SolType)
  /-- How the decoder of the parameters of a type looks from Solidity. -/
  | parameterDecoderSignature (type : SolType)
  /-- A cast between two functions. -/
  | cast (source target : RoutineSignature)

/-- Serves a request; the answer is of no interest. -/
def Request.serve (settings : Settings) : Request → Emission Unit
  | .decode type => do let _ ← Codec.decode settings type
  | .encode type => do let _ ← Codec.encode settings type
  | .decodeParameters type => do let _ ← decodeParameterList settings type
  | .encodeParameters type => do let _ ← encodeParameterList settings type
  | .encodeError type => do let _ ← Codec.encodeError settings type
  | .encodeEvent type => do let _ ← Codec.encodeEvent settings type
  | .decoderSignature type => do let _ ← Codec.decoderSignature settings type
  | .parameterDecoderSignature type => do let _ ← Codec.parameterDecoderSignature settings type
  | .cast source target => do let _ ← Codec.cast source target

/-- The workspaces that a session reaches while no request fails. -/
inductive Session (settings : Settings) (unit : CodeUnit) : Workspace → Prop where
  /-- Nothing has been requested yet. -/
  | start : Session settings unit (.start unit)
  /-- One more request is served. -/
  | served {before after : Workspace} (request : Request) (earlier : Session settings unit before)
      (succeeds : (request.serve settings).runOn before = (.ok (), after)) : Session settings unit after

/-- What routines are promised to do. -/
def codecPromise (cap : Nat) : Promise := fun unit key name =>
  match key.1 with
  | .decode => Handling.Decodes unit cap key.2 (.routine name)
  | .encode => Handling.Encodes unit cap key.2 (.routine name)
  | .decodeParameters => DecodesList unit cap key.2.members name
  | .encodeParameters => EncodesList unit cap key.2.members name
  | .encodeError => EncodesSelected unit cap (Keccak.selectorWord key.2.abiType) key.2.members name

/-- The promise about decoders. -/
theorem codecPromise_decoding (cap : Nat) : PromisesDecoding (codecPromise cap) cap :=
  fun _ _ _ => Iff.rfl

/-- The promise about encoders. -/
theorem codecPromise_encoding (cap : Nat) : PromisesEncoding (codecPromise cap) cap :=
  fun _ _ _ => Iff.rfl

section

variable {promise : Promise} {pending : List RequestKey} {settings : Settings}

/-- Whether an emission that succeeds keeps what was promised. -/
def KeepsPromises (promise : Promise) (pending : List RequestKey) {α : Type} (emission : Emission α) : Prop :=
  Emission.Gives promise pending emission fun _ _ => True

/-- What gives something keeps promises. -/
theorem KeepsPromises.of_gives {α : Type} {emission : Emission α} {post : CodeUnit → α → Prop}
    (h : Emission.Gives promise pending emission post) : KeepsPromises promise pending emission :=
  h.weaken fun _ _ _ => trivial

/-- Emissions in a row keep promises if each of them does. -/
theorem KeepsPromises.bind {α β : Type} {first : Emission α} {next : α → Emission β}
    (h : KeepsPromises promise pending first) (h' : ∀ value, KeepsPromises promise pending (next value)) :
    KeepsPromises promise pending (first >>= next) :=
  Emission.Gives.bind h h' fun _ _ _ _ _ => trivial

/-- An answer keeps promises. -/
theorem KeepsPromises.pure {α : Type} (value : α) :
    KeepsPromises promise pending (Pure.pure value : Emission α) :=
  Emission.Gives.pure fun _ => trivial

end

section

variable {settings : Settings} {cap : Nat} {pending : List RequestKey}

/-- The decoder of a list of parameters decodes them. -/
theorem decodeMembers_gives (members : List (Labelled SolType)) :
    Emission.Gives (codecPromise settings.bridgedReferences) []
      (Emission.routineFor .decodeParameters (SolType.tuple members).shape (parameterDecoder settings members))
      fun unit name => DecodesList unit settings.bridgedReferences (SolType.shapes members) name :=
  Emission.Gives.routineFor (by simp) fun name =>
    parameterDecoder_gives (codecPromise_decoding _) members name (pendingAbove_members _ members)

/-- The encoder of a list of parameters encodes them. -/
theorem encodeMembers_gives (members : List (Labelled SolType)) :
    Emission.Gives (codecPromise settings.bridgedReferences) [] (encodeMembers settings members)
      fun unit name => EncodesList unit settings.bridgedReferences (SolType.shapes members) name :=
  Emission.Gives.routineFor (by simp) fun name =>
    parameterEncoder_gives (codecPromise_encoding _) members name (pendingAbove_members _ members)

/-- The encoder of an error encodes its selector and its parameters. The encoder that it calls was requested
before it. -/
theorem encodeError_gives (name : String) (parameters : List (Labelled SolType)) :
    Emission.Gives (codecPromise settings.bridgedReferences) []
      (Codec.encodeError settings (.error name parameters)) fun unit encoder =>
        EncodesSelected unit settings.bridgedReferences
          (Keccak.selectorWord (SolType.error name parameters).shape.abiType) (SolType.shapes parameters) encoder := by
  have size : (SolType.shapes parameters).length = parameters.length := by
    rw [SolType.shapes_eq_map, List.length_map]
  refine Emission.GivesKnowing.gives (.andThen ((Offsets.named_gives _ _ _).knowing _) fun selector => ?_)
  refine .andThen ((encodeMembers_gives parameters).knowing _) fun encoder => ?_
  refine .routineFor (by simp) fun routine => .pure fun unit => ⟨rfl, fun found known => ?_⟩
  rw [← size] at found
  exact errorEncoder_encodes known.2 known.1.2 found

/-- The members of a decoded list. -/
theorem decodedParameters_keeps (promise : Promise) (type : SolType) :
    KeepsPromises promise [] (decodedParameters type) := by
  unfold decodedParameters unsupported
  split
  all_goals first | exact .pure _ | exact Emission.Gives.throw _

/-- The members of an encoded list. -/
theorem encodedParameters_keeps (promise : Promise) (type : SolType) :
    KeepsPromises promise [] (encodedParameters type) := by
  unfold encodedParameters
  split
  · exact .pure _
  · exact decodedParameters_keeps promise type

/-- The request for the decoder of a parameter list. -/
theorem decodeParameterList_keeps (type : SolType) :
    KeepsPromises (codecPromise settings.bridgedReferences) [] (decodeParameterList settings type) :=
  .bind (decodedParameters_keeps _ type) fun members => .of_gives (decodeMembers_gives members)

/-- The request for the encoder of members. -/
theorem encodeMembers_keeps (members : List (Labelled SolType)) :
    KeepsPromises (codecPromise settings.bridgedReferences) [] (encodeMembers settings members) :=
  .of_gives (encodeMembers_gives members)

/-- The request for the encoder of an error. -/
theorem encodeError_keeps (type : SolType) :
    KeepsPromises (codecPromise settings.bridgedReferences) [] (Codec.encodeError settings type) := by
  cases type with
  | error name parameters => exact .of_gives (encodeError_gives name parameters)
  | _ => exact Emission.Gives.throw _

/-- The request for the encoder of the data of an event. -/
theorem encodeEvent_keeps (type : SolType) :
    KeepsPromises (codecPromise settings.bridgedReferences) [] (Codec.encodeEvent settings type) := by
  cases type with
  | event name parameters topicFree indexed anonymous =>
    cases anonymous with
    | true => exact encodeMembers_keeps topicFree
    | false =>
      exact .bind (.of_gives (Offsets.named_gives _ _ _)) fun _ => encodeMembers_keeps topicFree
  | _ => exact Emission.Gives.throw _

/-- Every request that succeeds keeps what was promised. -/
theorem Request.serve_keeps (request : Request) :
    KeepsPromises (codecPromise settings.bridgedReferences) [] (request.serve settings) := by
  have decodes : ∀ type, KeepsPromises (codecPromise settings.bridgedReferences) []
      (Codec.decode settings type) := fun type =>
    .of_gives (decode_gives (codecPromise_decoding _) type [] (by simp [PendingAbove]))
  cases request with
  | decode type => exact .bind (decodes type) fun _ => .pure ()
  | encode type =>
    exact .bind (.of_gives (encode_gives (codecPromise_encoding _) type [] (by simp [PendingAbove])))
      fun _ => .pure ()
  | decodeParameters type => exact .bind (decodeParameterList_keeps type) fun _ => .pure ()
  | encodeParameters type =>
    exact .bind (.bind (encodedParameters_keeps _ type) fun _ => encodeMembers_keeps _) fun _ => .pure ()
  | encodeError type => exact .bind (encodeError_keeps type) fun _ => .pure ()
  | encodeEvent type => exact .bind (encodeEvent_keeps type) fun _ => .pure ()
  | decoderSignature type =>
    refine .bind (.bind (decodes type) fun handling => ?_) fun _ => .pure ()
    cases handling with
    | inline => exact Emission.Gives.throw _
    | routine name => exact .bind (.of_gives (.lift _)) fun _ => .pure _
  | parameterDecoderSignature type =>
    refine .bind (.bind (decodeParameterList_keeps type) fun name => ?_) fun _ => .pure ()
    exact .bind (decodedParameters_keeps _ type) fun _ => .bind (.of_gives (.lift _)) fun _ => .pure _
  | cast source target =>
    refine .bind ?_ fun _ => .pure ()
    unfold Codec.cast
    split
    · exact .of_gives (.addRoutine _)
    · exact Emission.Gives.throw _

/-- All promises are kept as long as no request fails. -/
theorem Session.keeps {unit : CodeUnit} {workspace : Workspace} (h : Session settings unit workspace) :
    workspace.Keeps (codecPromise settings.bridgedReferences) [] := by
  induction h with
  | start => exact Workspace.keeps_start _ _ _
  | served request _ succeeds ih => exact (request.serve_keeps _ _ _ succeeds ih).1

/-- A decoder that a session answers with decodes, whatever is added to the unit later. -/
theorem Session.decodes {unit : CodeUnit} {before after : Workspace} {type : SolType} {handling : Handling}
    (h : Session settings unit before)
    (answered : (Codec.decode settings type).runOn before = (.ok handling, after)) :
    handling.Decodes after.unit settings.bridgedReferences type.shape := by
  have gives := decode_gives (codecPromise_decoding settings.bridgedReferences) type [] (by simp [PendingAbove])
  exact (gives before after handling answered h.keeps).2.2 after.unit (.refl _)

/-- An encoder that a session answers with encodes, whatever is added to the unit later. -/
theorem Session.encodes {unit : CodeUnit} {before after : Workspace} {type : SolType} {handling : Handling}
    (h : Session settings unit before)
    (answered : (Codec.encode settings type).runOn before = (.ok handling, after)) :
    handling.Encodes after.unit settings.bridgedReferences type.shape := by
  have gives := encode_gives (codecPromise_encoding settings.bridgedReferences) type [] (by simp [PendingAbove])
  exact (gives before after handling answered h.keeps).2.2 after.unit (.refl _)

/-- The decoder of a parameter list that a session answers with decodes the list. -/
theorem Session.decodesList {unit : CodeUnit} {before after : Workspace} {type : SolType}
    {members : List (Labelled SolType)} {name : String} (h : Session settings unit before)
    (listed : decodedParameters type = pure members)
    (answered : (decodeParameterList settings type).runOn before = (.ok name, after)) :
    DecodesList after.unit settings.bridgedReferences (SolType.shapes members) name := by
  rw [decodeParameterList, listed, pure_bind] at answered
  exact (decodeMembers_gives members before after name answered h.keeps).2.2 after.unit (.refl _)

/-- The encoder of members that a session answers with encodes them. -/
theorem Session.encodesMembers {unit : CodeUnit} {before after : Workspace} {members : List (Labelled SolType)}
    {name : String} (h : Session settings unit before)
    (answered : (encodeMembers settings members).runOn before = (.ok name, after)) :
    EncodesList after.unit settings.bridgedReferences (SolType.shapes members) name :=
  (encodeMembers_gives members before after name answered h.keeps).2.2 after.unit (.refl _)

/-- The encoder of a parameter list that a session answers with encodes the list. -/
theorem Session.encodesList {unit : CodeUnit} {before after : Workspace} {type : SolType}
    {members : List (Labelled SolType)} {name : String} (h : Session settings unit before)
    (listed : encodedParameters type = pure members)
    (answered : (encodeParameterList settings type).runOn before = (.ok name, after)) :
    EncodesList after.unit settings.bridgedReferences (SolType.shapes members) name := by
  rw [encodeParameterList, listed, pure_bind] at answered
  exact h.encodesMembers answered

/-- The encoder of an error that a session answers with encodes the error. -/
theorem Session.encodesError {unit : CodeUnit} {before after : Workspace} {name encoder : String}
    {parameters : List (Labelled SolType)} (h : Session settings unit before)
    (answered : (Codec.encodeError settings (.error name parameters)).runOn before = (.ok encoder, after)) :
    EncodesSelected after.unit settings.bridgedReferences
      (Keccak.selectorWord (SolType.error name parameters).shape.abiType) (SolType.shapes parameters) encoder :=
  (encodeError_gives name parameters before after encoder answered h.keeps).2.2 after.unit (.refl _)

/-- The encoder of event data that a session answers with encodes the parameters that are no topics. -/
theorem Session.encodesEvent {unit : CodeUnit} {before after : Workspace} {name encoder : String}
    {parameters topicFree : List (Labelled SolType)} {indexed : List Bool} {anonymous : Bool}
    (h : Session settings unit before)
    (answered : (Codec.encodeEvent settings (.event name parameters topicFree indexed anonymous)).runOn before =
      (.ok encoder, after)) :
    EncodesList after.unit settings.bridgedReferences (SolType.shapes topicFree) encoder := by
  have gives : Emission.Gives (codecPromise settings.bridgedReferences) []
      (Codec.encodeEvent settings (.event name parameters topicFree indexed anonymous))
      fun unit encoder => EncodesList unit settings.bridgedReferences (SolType.shapes topicFree) encoder := by
    cases anonymous with
    | true => exact encodeMembers_gives topicFree
    | false =>
      exact (Offsets.named_gives _ _ _).andThen fun _ =>
        (encodeMembers_gives topicFree).weaken fun _ _ given _ => given
  exact (gives before after encoder answered h.keeps).2.2 after.unit (.refl _)

end

end YulAbi.Codec
