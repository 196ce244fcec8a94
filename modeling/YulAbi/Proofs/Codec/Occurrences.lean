import YulAbi.Proofs.Arena.Composites
import YulAbi.Proofs.Arena.Identity
import YulAbi.Proofs.Codec.Memoization
import YulAbi.Proofs.Codec.Scoping.Session

/-!
# One routine for every node of a shape

Nodes with the same number are different occurrences of one shape. All queries about them have the
same answers. Requests for their types differ in labels and in the names of functions only, which
a request that was served before does not look at: once the routine of one occurrence was asked
for, requests for the others are answered with its name and change nothing, and the routine does
what is promised for the others.
-/

namespace YulAbi

namespace Emission

/-- Whether a success of one emission makes another one give the same answer from then on and change nothing. -/
structure Repeats {α : Type} (foreign : Yul.Routine → Prop) (first second : Emission α) : Prop where
  /-- However the first one ends, everything is in order. -/
  orderly : Orderly foreign first fun _ => True
  /-- After a success of the first one the second one gives its answer. -/
  repeated : ∀ before value after, before.Orderly foreign → first.runOn before = (.ok value, after) →
    ∀ later, later.Orderly foreign → after.Grows later → second.runOn later = (.ok value, later)

section

variable {α β : Type} {foreign : Yul.Routine → Prop}

/-- What is settled repeats itself. -/
theorem Settles.repeats {emission : Emission α} {post : Workspace → α → Prop} (h : Settles foreign emission post) :
    Repeats foreign emission emission :=
  ⟨h.orderly, fun before value after start ended later lasting grown =>
    (h.settled before value after start ended later lasting grown).1⟩

/-- A failure never succeeds. -/
theorem Repeats.throw {cause : GenerationError} (clean : ∀ name, cause ≠ .routineConflict name)
    (second : Emission α) : Repeats foreign (throw cause) second :=
  ⟨.throw clean, fun _ _ _ _ ended => nomatch ended⟩

/-- Emissions in a row are repeated one after the other. -/
theorem Repeats.bind {first second : Emission α} {next next' : α → Emission β} (h : Repeats foreign first second)
    (h' : ∀ value, Repeats foreign (next value) (next' value)) :
    Repeats foreign (first >>= next) (second >>= next') := by
  refine ⟨h.orderly.bind fun value => (h' value).orderly, fun before result after start ended later lasting grown => ?_⟩
  obtain ⟨value, reached, begun, finished⟩ := runOn_bind_ok.mp ended
  have middle := h.orderly before start _ reached begun
  have final := (h' value).orderly reached middle.orderly _ after finished
  rw [runOn_bind, h.repeated before value reached start begun later lasting (final.grows.trans grown)]
  exact (h' value).repeated reached result after middle.orderly finished later lasting grown

/-- A request is remembered, whatever would have been generated. -/
theorem Repeats.routineFor {operation : Operation} {shape : Shape} {generate : String → Emission Yul.Routine}
    (generated : ∀ name, Orderly foreign (generate name) fun routine => routine.name = name)
    (generate' : String → Emission Yul.Routine) :
    Repeats foreign (routineFor operation shape generate) (routineFor operation shape generate') := by
  refine ⟨.routineFor generated, fun before name after orderly ended later lasting grown => ?_⟩
  have remembered := grown.requests _ (mem_requests_of_routineFor generated orderly ended)
  rw [runOn_routineFor, lasting.find?_eq_some remembered]

end

end Emission

namespace Codec

open Emission (Repeats)

section

variable {foreign : Yul.Routine → Prop} {settings : Settings} {type type' : SolType}

/-- A task that does not apply is never answered. -/
theorem unsupported_repeats {α : Type} (shape : Shape) (task : Task) (second : Emission α) :
    Repeats foreign (unsupported shape task) second :=
  .throw (fun _ (same : GenerationError.unsupportedShape shape.identifier task = _) => nomatch same) second

/-- An answer repeats itself. -/
theorem pure_repeats {α : Type} (value : α) : Repeats foreign (pure value : Emission α) (pure value) := by
  have settles : Emission.Settles foreign (pure value : Emission α) fun _ _ => True := .pure fun _ => trivial
  exact settles.repeats

/-- Requests for the routine of one shape repeat each other. -/
theorem Requests.repeats {operation : Operation} {task : Task} {shape : Shape} {first second : Emission Handling}
    (h : Requests foreign [] operation task shape first) (h' : Requests foreign [] operation task shape second) :
    Repeats foreign first second := by
  obtain ⟨generate, rfl, generated⟩ := h
  obtain ⟨generate', rfl, -⟩ := h'
  unfold handlingOf
  split
  · exact pure_repeats _
  · split
    · exact (Repeats.routineFor (fun name => (generated name).orderly) generate').bind fun name => pure_repeats _
    · exact unsupported_repeats _ _ _

/-- The members of a list, or the failure of a type without one. -/
theorem decodedParameters_eq (type : SolType) : decodedParameters type =
    (decodedMembers? type).elim (unsupported type.shape .parameters) pure := by
  cases type <;> rfl

/-- The members of a list, or the failure of a type without one. -/
theorem encodedParameters_eq (type : SolType) : encodedParameters type =
    (encodedMembers? type).elim (unsupported type.shape .parameters) pure := by
  cases type <;> rfl

/-- Types that are the same without labels have lists of the same shapes. -/
theorem decodedMembers?_alike (alike : type.bare = type'.bare) :
    (decodedMembers? type).map SolType.shapes = (decodedMembers? type').map SolType.shapes := by
  have bare : ∀ type, (decodedMembers? type).map SolType.shapes = (decodedMembers? type.bare).map SolType.shapes := by
    intro type
    cases type <;> simp [decodedMembers?, SolType.bare, SolType.shapes_bareParts]
  rw [bare, bare type', alike]

/-- Types that are the same without labels have lists of the same shapes. -/
theorem encodedMembers?_alike (alike : type.bare = type'.bare) :
    (encodedMembers? type).map SolType.shapes = (encodedMembers? type').map SolType.shapes := by
  have bare : ∀ type, (encodedMembers? type).map SolType.shapes = (encodedMembers? type.bare).map SolType.shapes := by
    intro type
    cases type <;> simp [encodedMembers?, decodedMembers?, SolType.bare, SolType.shapes_bareParts]
  rw [bare, bare type', alike]

/-- Types that are the same without labels have the same shape. -/
theorem shape_alike (alike : type.bare = type'.bare) : type.shape = type'.shape := by
  rw [← SolType.shape_bare, alike, SolType.shape_bare]

/-- Encoders of members with the same shapes repeat each other. -/
theorem encodeMembers_repeats {members members' : List (Labelled SolType)}
    (same : SolType.shapes members = SolType.shapes members') :
    Repeats foreign (encodeMembers settings members) (encodeMembers settings members') := by
  have key : (SolType.tuple members).shape = (SolType.tuple members').shape := congrArg Shape.tuple same
  rw [encodeMembers, encodeMembers, ← key]
  exact .routineFor (fun name => (parameterEncoder_delivers members name).orderly) _

/-- Requests that go on with a list of members repeat each other if they do so for members with the same shapes. -/
theorem members_repeats {α : Type} {list list' : Option (List (Labelled SolType))} {task : Task} {shape shape' : Shape}
    {next next' : List (Labelled SolType) → Emission α}
    (alike : list.map SolType.shapes = list'.map SolType.shapes)
    (h : ∀ members members', SolType.shapes members = SolType.shapes members' →
      Repeats foreign (next members) (next' members')) :
    Repeats foreign (list.elim (unsupported shape task) pure >>= next)
      (list'.elim (unsupported shape' task) pure >>= next') := by
  cases list with
  | none =>
    have failed : unsupported shape task >>= next = unsupported shape task := rfl
    exact failed ▸ unsupported_repeats shape task _
  | some members =>
    cases list' with
    | none => cases alike
    | some members' =>
      exact h members members' (Option.some.inj alike)

/-- Decoders of parameter lists repeat each other for types that are the same without labels. -/
theorem decodeParameterList_repeats (alike : type.bare = type'.bare) :
    Repeats foreign (decodeParameterList settings type) (decodeParameterList settings type') := by
  rw [decodeParameterList, decodeParameterList, decodedParameters_eq, decodedParameters_eq]
  refine members_repeats (decodedMembers?_alike alike) fun members members' same => ?_
  have key : (SolType.tuple members).shape = (SolType.tuple members').shape := congrArg Shape.tuple same
  rw [← key]
  exact .routineFor (fun name => (parameterDecoder_delivers members name).orderly) _

/-- Encoders of parameter lists repeat each other for types that are the same without labels. -/
theorem encodeParameterList_repeats (alike : type.bare = type'.bare) :
    Repeats foreign (encodeParameterList settings type) (encodeParameterList settings type') := by
  rw [encodeParameterList, encodeParameterList, encodedParameters_eq, encodedParameters_eq]
  exact members_repeats (encodedMembers?_alike alike) fun members members' same => encodeMembers_repeats same

/-- Encoders of errors repeat each other for types that are the same without labels. -/
theorem encodeError_repeats (alike : type.bare = type'.bare) :
    Repeats foreign (encodeError settings type) (encodeError settings type') := by
  have shape := shape_alike alike
  cases type with
  | error name parameters =>
    cases type' with
    | error name' parameters' =>
      obtain ⟨rfl, same⟩ : name = name' ∧ SolType.shapes parameters = SolType.shapes parameters' := by
        simpa [SolType.shape] using shape
      unfold encodeError
      dsimp only
      rw [← shape]
      refine (named_settles _ _ _).repeats.bind fun selector => ?_
      refine (encodeMembers_repeats same).bind fun encoder => ?_
      exact .routineFor (fun routineName => .pure rfl) _
    | _ => exact absurd alike (by simp [SolType.bare])
  | _ => exact unsupported_repeats _ _ _

/-- Encoders of event data repeat each other for types that are the same without labels. -/
theorem encodeEvent_repeats (alike : type.bare = type'.bare) :
    Repeats foreign (encodeEvent settings type) (encodeEvent settings type') := by
  have shape := shape_alike alike
  have lists := decodedMembers?_alike alike
  cases type with
  | event name parameters data indexed anonymous =>
    cases type' with
    | event name' parameters' data' indexed' anonymous' =>
      obtain ⟨rfl, -, -, rfl⟩ : name = name' ∧ SolType.shapes parameters = SolType.shapes parameters' ∧
          indexed = indexed' ∧ anonymous = anonymous' := by simpa [SolType.shape] using shape
      have encoders := @encodeMembers_repeats foreign settings data data' (Option.some.inj lists)
      unfold encodeEvent
      dsimp only
      rw [← shape]
      cases anonymous with
      | true => exact encoders
      | false => exact (named_settles _ _ _).repeats.bind fun _ => encoders
    | _ => exact absurd alike (by simp [SolType.bare])
  | _ => exact unsupported_repeats _ _ _

end

/-- What may be asked for a type. -/
def Query.kinds : List (SolType → Query) :=
  [.decode, .encode, .decodeParameters, .encodeParameters, .encodeError, .encodeEvent]

section

variable {settings : Settings} {type type' : SolType} {ask : SolType → Query}

/-- Queries for types that are the same without labels repeat each other. -/
theorem Query.serve_repeats {foreign : Yul.Routine → Prop} (kind : ask ∈ kinds) (alike : type.bare = type'.bare) :
    Repeats foreign ((ask type).serve settings) ((ask type').serve settings) := by
  have shape := shape_alike alike
  simp only [kinds, List.mem_cons, List.not_mem_nil, or_false] at kind
  rcases kind with rfl | rfl | rfl | rfl | rfl | rfl
  · exact (decode_requests type [] (by simp [PendingAbove])).repeats
      (shape ▸ decode_requests type' [] (by simp [PendingAbove]))
  · exact (encode_requests type [] (by simp [PendingAbove])).repeats
      (shape ▸ encode_requests type' [] (by simp [PendingAbove]))
  · exact (decodeParameterList_repeats alike).bind fun _ => pure_repeats _
  · exact (encodeParameterList_repeats alike).bind fun _ => pure_repeats _
  · exact (encodeError_repeats alike).bind fun _ => pure_repeats _
  · exact (encodeEvent_repeats alike).bind fun _ => pure_repeats _

/-- Queries for types that are the same without labels resolve to the same. -/
theorem Query.target?_alike (kind : ask ∈ kinds) (alike : type.bare = type'.bare) :
    (ask type).target? = (ask type').target? := by
  have shape := shape_alike alike
  have keyed : ∀ (operation : Operation) (list : Option (List (Labelled SolType))),
      (list.map fun members => (operation, (SolType.tuple members).shape)) =
        (list.map SolType.shapes).map fun shapes => (operation, Shape.tuple shapes) :=
    fun operation list => by cases list <;> rfl
  simp only [kinds, List.mem_cons, List.not_mem_nil, or_false] at kind
  rcases kind with rfl | rfl | rfl | rfl | rfl | rfl
  · exact congrArg (fun shape => some (Operation.decode, shape)) shape
  · exact congrArg (fun shape => some (Operation.encode, shape)) shape
  · rw [target?, target?, keyed, keyed, decodedMembers?_alike alike]
  · rw [target?, target?, keyed, keyed, encodedMembers?_alike alike]
  · exact congrArg (fun shape => some (Operation.encodeError, shape)) shape
  · rw [target?, target?, keyed, keyed, decodedMembers?_alike alike]

end

/-- Nodes with the same number answer all queries about their layout alike. After a request for the routine of one of
them was served, and whatever else is requested with success, the same request for the other one is answered with the
same routine and changes nothing, and the routine does what is promised for what that request resolves to. -/
theorem shapeId_determines_answers {arena : Arena} {id other : NodeId} (made : arena.Made) (inside : id < arena.size)
    (inside' : other < arena.size) (same : arena.shapeId id = arena.shapeId other) :
    arena.answers id = arena.answers other ∧
    ∀ ask ∈ Query.kinds, ∀ settings before after later name, Session settings .empty before →
      ((ask (arena.typeAt id)).serve settings).runOn before = (.ok (.routine name), after) →
      Session settings .empty later → after.Grows later →
      ((ask (arena.typeAt other)).serve settings).runOn later = (.ok (.routine name), later) ∧
        ∃ key, (ask (arena.typeAt other)).target? = some key ∧
          codecPromise settings.bridgedReferences later.unit key name := by
  have sound := made.sound
  have shapes : arena.shape id = arena.shape other := congrArg arena.shapeOfId same
  have alike : (arena.typeAt id).bare = (arena.typeAt other).bare := (sound.shape_eq_iff inside inside').mp shapes
  refine ⟨by rw [sound.answers_eq inside, sound.answers_eq inside', shapes], ?_⟩
  intro ask kind settings before after later name earlier answered session grown
  have start := earlier.fitted.orderly
  have lasting := session.fitted.orderly
  have repeats : Repeats Yul.Routine.Portable ((ask (arena.typeAt id)).serve settings) _ :=
    Query.serve_repeats kind alike
  have settles : Emission.Settles Yul.Routine.Portable ((ask (arena.typeAt id)).serve settings) _ :=
    Query.serve_settles _
  refine ⟨repeats.repeated before _ after start answered later lasting grown, ?_⟩
  obtain ⟨key, resolved, remembered⟩ :=
    (settles.settled before _ after start answered later lasting grown).2 name rfl
  exact ⟨key, (Query.target?_alike kind alike).symm.trans resolved,
    session.keeps.kept key name remembered List.not_mem_nil later.unit (.refl _)⟩

/-- The decoder of a struct serves the other occurrence of the struct, which has other labels. -/
theorem entry_shapeId_determines_answers :
    Arena.entryArena.answers 4 = Arena.entryArena.answers 9 ∧
    ∃ after, (Codec.decode .standard (Arena.entryArena.typeAt 4)).runOn (.start .empty) =
        (.ok (.routine "abi_decode_Vault_Entry"), after) ∧
      (Codec.decode .standard (Arena.entryArena.typeAt 9)).runOn after =
        (.ok (.routine "abi_decode_Vault_Entry"), after) ∧
      Handling.Decodes after.unit Settings.standard.bridgedReferences (Arena.entryArena.typeAt 9).shape
        (.routine "abi_decode_Vault_Entry") := by
  have made : Arena.entryArena.Made := .extended _ (.extended _ (.extended _ .empty fun _ named => nomatch named)
    fun _ named => nomatch named) fun _ named => nomatch named
  have inside : (4 : NodeId) < Arena.entryArena.size ∧ (9 : NodeId) < Arena.entryArena.size := by decide +kernel
  have same : Arena.entryArena.shapeId 4 = Arena.entryArena.shapeId 9 := by decide +kernel
  have answer : ((Codec.decode .standard (Arena.entryArena.typeAt 4)).runOn (.start .empty)).1.toOption =
      some (.routine "abi_decode_Vault_Entry") := by decide +kernel
  rcases served : (Codec.decode .standard (Arena.entryArena.typeAt 4)).runOn (.start .empty) with ⟨result, after⟩
  rw [served] at answer
  obtain rfl : result = .ok (.routine "abi_decode_Vault_Entry") := by
    cases result with
    | error cause => cases answer
    | ok handling => exact congrArg Except.ok (Option.some.inj answer)
  have session : Session .standard .empty after :=
    Session.start.served (.decode (Arena.entryArena.typeAt 4)) (Emission.runOn_bind_ok.mpr ⟨_, after, served, rfl⟩)
  obtain ⟨answers, routines⟩ := shapeId_determines_answers made inside.1 inside.2 same
  obtain ⟨again, key, resolved, promised⟩ := routines .decode List.mem_cons_self .standard _ after after
    "abi_decode_Vault_Entry" .start served session (.refl after)
  cases resolved
  exact ⟨answers, after, rfl, again, promised⟩

end Codec

end YulAbi
