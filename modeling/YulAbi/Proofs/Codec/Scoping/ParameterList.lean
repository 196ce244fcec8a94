import YulAbi.Codec.ParameterList
import YulAbi.Proofs.Codec.ParameterList.Words
import YulAbi.Proofs.Codec.Scoping.Decoder
import YulAbi.Proofs.Codec.Scoping.Encoder

/-!
# Scoping of parameter lists, errors and events

The routine of a parameter list has one word for each parameter, so it takes or returns
as many words as its tuple has members. The encoder of an error calls the encoder of its
parameters, which was requested before it.
-/

namespace YulAbi.Codec

open Yul (Expr Stmt Block Routine)

section

variable {foreign : Routine → Prop} {promise : Promise} {pending : List RequestKey} {settings : Settings}
  {unit : CodeUnit}

/-- There is one shape for each member. -/
theorem length_members_tuple (members : List (Labelled SolType)) :
    (SolType.tuple members).shape.members.length = members.length := by
  simp [SolType.shape_members, SolType.shapes_eq_map, SolType.members]

/-- Decoded parameters are assigned to the results. -/
theorem decodeParameters_delivers (tuple : SolType) (index count : Nat) (parts : List (Shape × Emission Handling))
    (inside : index + parts.length ≤ count)
    (decoded : ∀ part ∈ parts, Emission.Delivers foreign promise pending part.2 (fun _ => True)
      fun unit handling => handling.Callable unit 1) :
    Emission.Delivers foreign promise pending (decodeParameters settings tuple index parts) (fun _ => True)
      fun unit block => Block.Scoped unit (wordNames count ++ ["cdPtr"]) block := by
  induction parts generalizing index with
  | nil => exact .pure trivial fun unit => trivial
  | cons part rest ih =>
    rw [List.length_cons] at inside
    have others := ih (index + 1) (by omega) fun part listed => decoded part (List.mem_cons_of_mem _ listed)
    refine (partSource_delivers tuple index part.1 _).andThen fun source => ?_
    refine (decoded part List.mem_cons_self).andThen fun handling => ?_
    refine others.andThen fun block => .pure trivial fun unit inner callable located => ?_
    have word := scoped_decodedWord callable (located (wordNames count ++ ["cdPtr"]) (by simp))
    exact ⟨(Yul.Stmt.scoped_assignTo _ _).mpr ⟨word, List.mem_append_left _ (mem_wordNames (by omega))⟩, inner⟩

/-- Parameters are written from the words. -/
theorem writeParameters_delivers (tuple : SolType) (index count : Nat) (parts : List (Shape × Emission Handling))
    (inside : index + parts.length ≤ count)
    (encoded : ∀ part ∈ parts, Emission.Delivers foreign promise pending part.2 (fun _ => True)
      fun unit handling => handling.Callable unit 2) :
    Emission.Delivers foreign promise pending (writeParameters settings tuple index parts) (fun _ => True)
      fun unit block => Block.Scoped unit ("size" :: (wordNames count ++ ["dst"])) block := by
  induction parts generalizing index with
  | nil => exact .pure trivial fun unit => trivial
  | cons part rest ih =>
    rw [List.length_cons] at inside
    have others := ih (index + 1) (by omega) fun part listed => encoded part (List.mem_cons_of_mem _ listed)
    refine (writePart_delivers tuple index part.1 _ (encoded part List.mem_cons_self)).andThen fun block => ?_
    refine others.andThen fun block' => .pure trivial fun unit inner written => ?_
    have declared : s!"v{index}" ∈ "size" :: (wordNames count ++ ["dst"]) :=
      List.mem_cons_of_mem _ (List.mem_append_left _ (mem_wordNames (by omega)))
    have first := written.2 ("size" :: (wordNames count ++ ["dst"])) (by simp) (by simp) ⟨declared, rfl⟩
    simp [first, written.1, inner]

end

section

variable {foreign : Routine → Prop} {settings : Settings}

/-- The decoder of a parameter list. -/
theorem parameterDecoder_delivers (members : List (Labelled SolType)) (name : String) :
    Emission.Delivers foreign scopingPromise [(.decodeParameters, (SolType.tuple members).shape)]
      (parameterDecoder settings members name) (fun routine => routine.name = name)
      (Fits (.decodeParameters, (SolType.tuple members).shape) name) := by
  have decoded : ∀ part ∈ (SolType.shapes members).zip (decodeEach settings members),
      Emission.Delivers foreign scopingPromise _ part.2 (fun _ => True) _ :=
    decodeEach_delivers members _ (pendingAbove_members .decodeParameters members)
  refine (decodeParameters_delivers (.tuple members) 0 members.length _ ?_ decoded).andThen fun body =>
    .pure rfl fun unit inner => ⟨rfl, by simpa using inner, rfl, ?_⟩
  · rw [List.length_zip, SolType.shapes_eq_map, List.length_map]
    omega
  · simp [Routine.ofBody, resultCount, length_members_tuple]

/-- The encoder of a parameter list. -/
theorem parameterEncoder_delivers (members : List (Labelled SolType)) (name : String) :
    Emission.Delivers foreign scopingPromise [(.encodeParameters, (SolType.tuple members).shape)]
      (parameterEncoder settings members name) (fun routine => routine.name = name)
      (Fits (.encodeParameters, (SolType.tuple members).shape) name) := by
  have encoded : ∀ part ∈ (SolType.shapes members).zip (encodeEach settings members),
      Emission.Delivers foreign scopingPromise _ part.2 (fun _ => True) _ :=
    encodeEach_delivers members _ (pendingAbove_members .encodeParameters members)
  refine (Offsets.callHead_delivers _ _).andThen fun headSize => ?_
  refine (writeParameters_delivers (.tuple members) 0 members.length _ ?_ encoded).andThen fun body =>
    .pure rfl fun unit inner measured => ⟨rfl, by simp [inner, measured _], ?_, rfl⟩
  · rw [List.length_zip, SolType.shapes_eq_map, List.length_map]
    omega
  · simp [Routine.ofBody, parameterCount, length_members_tuple]

/-- The members of a decoded list. -/
theorem decodedParameters_delivers (promise : Promise) (pending : List RequestKey) (type : SolType) :
    Emission.Delivers foreign promise pending (decodedParameters type) (fun _ => True) fun _ _ => True := by
  unfold decodedParameters
  split
  all_goals first
    | exact .pure trivial fun _ => trivial
    | exact unsupported_delivers _ _ _ _

/-- The members of an encoded list. -/
theorem encodedParameters_delivers (promise : Promise) (pending : List RequestKey) (type : SolType) :
    Emission.Delivers foreign promise pending (encodedParameters type) (fun _ => True) fun _ _ => True := by
  unfold encodedParameters
  split
  · exact .pure trivial fun _ => trivial
  · exact decodedParameters_delivers promise pending type

/-- The request for the decoder of a parameter list. -/
theorem decodeParameterList_delivers (type : SolType) :
    Emission.Delivers foreign scopingPromise [] (decodeParameterList settings type) (fun _ => True)
      fun _ _ => True := by
  refine (decodedParameters_delivers _ _ type).andThen fun members => ?_
  exact (routineFor_delivers (by simp) (parameterDecoder_delivers members)).weaken fun _ _ _ _ => trivial

/-- The request for the encoder of members. -/
theorem encodeMembers_delivers (members : List (Labelled SolType)) :
    Emission.Delivers foreign scopingPromise [] (encodeMembers settings members) (fun _ => True)
      fun unit name => scopingPromise unit (.encodeParameters, (SolType.tuple members).shape) name :=
  routineFor_delivers (by simp) (parameterEncoder_delivers members)

/-- The request for the encoder of a parameter list. -/
theorem encodeParameterList_delivers (type : SolType) :
    Emission.Delivers foreign scopingPromise [] (encodeParameterList settings type) (fun _ => True)
      fun _ _ => True :=
  (encodedParameters_delivers _ _ type).andThen fun members =>
    (encodeMembers_delivers members).weaken fun _ _ _ _ => trivial

/-- The encoder of an error fits if its selector needs nothing and the encoder of its parameters is
there. -/
theorem errorEncoder_fits {unit : CodeUnit} {parameters : List (Labelled SolType)} {encoder : String}
    {selector : Expr} (closed : selector.Closed unit)
    (promised : scopingPromise unit (.encodeParameters, (SolType.tuple parameters).shape) encoder)
    (error name : String) :
    Fits (.encodeError, (SolType.error error parameters).shape) name unit
      (errorEncoder parameters.length encoder selector name) := by
  obtain ⟨callee, found, fits⟩ := promised
  have taken : callee.params.length = parameters.length + 1 := by
    rw [fits.taken]
    simp [parameterCount, length_members_tuple]
  have given : callee.returns.length = 1 := fits.given
  refine ⟨rfl, ?_, ?_, rfl⟩
  · simp [errorEncoder, Expr.argsScoped_iff, closed _, found, taken, given]
    rintro arg (⟨word, listed, rfl⟩ | rfl)
    · simp [listed]
    · simp
  · simp [errorEncoder, Routine.ofBody, parameterCount, SolType.shape_members, SolType.shapes_eq_map,
      SolType.members]

/-- The request for the encoder of an error. -/
theorem encodeError_delivers (type : SolType) :
    Emission.Delivers foreign scopingPromise [] (encodeError settings type) (fun _ => True) fun _ _ => True := by
  unfold encodeError
  split
  · rename_i name parameters
    have selects : Emission.Delivers foreign scopingPromise [] _ (fun _ => True) _ :=
      Offsets.named_delivers settings.namedConstants (Identifier.sanitize name ++ "_selector")
        (Keccak.selectorWord (SolType.error name parameters).shape.abiType)
    have encodes : Emission.Delivers foreign scopingPromise [] (encodeMembers settings parameters) (fun _ => True) _ :=
      encodeMembers_delivers parameters
    refine ⟨selects.orderly.bind fun selector => encodes.orderly.bind fun encoder =>
      .routineFor fun name => .pure rfl, Emission.GivesKnowing.gives ?_⟩
    refine (selects.gives.knowing _).andThen fun selector => (encodes.gives.knowing _).andThen fun encoder => ?_
    refine Emission.GivesKnowing.weaken (.routineFor (by simp) fun routineName => .pure fun unit =>
      ⟨rfl, fun found knows => ?_⟩) fun _ _ _ => trivial
    exact ⟨_, found, errorEncoder_fits knows.1.2 knows.2 name routineName⟩
  · exact unsupported_delivers _ _ _ _

/-- The request for the encoder of the data of an event. -/
theorem encodeEvent_delivers (type : SolType) :
    Emission.Delivers foreign scopingPromise [] (encodeEvent settings type) (fun _ => True) fun _ _ => True := by
  unfold encodeEvent
  split
  · rename_i name parameters topicFree indexed anonymous
    cases anonymous with
    | true => exact (encodeMembers_delivers topicFree).weaken fun _ _ _ => trivial
    | false =>
      exact (Offsets.named_delivers _ _ _).andThen fun _ =>
        (encodeMembers_delivers topicFree).weaken fun _ _ _ _ => trivial
  · exact unsupported_delivers _ _ _ _

end

end YulAbi.Codec
