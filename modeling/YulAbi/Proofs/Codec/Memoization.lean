import YulAbi.Proofs.Codec.Scoping.ParameterList
import YulAbi.Proofs.Emission.Orderly
import YulAbi.Proofs.Shape.Kinds

/-!
# Memoization of requests

A query is a request that is answered with a routine, or with nothing where the values
are words. It resolves to an operation and a shape: a parameter list to that of its tuple,
the data of an event to that of the encoder of its tuple. Two queries are answered with
the same name exactly if they resolve to the same, whatever fails in between, and a query
that was answered once gets the same answer again without a change to the unit.

A request is remembered before its routine is generated. So a query that has failed halfway is
answered when it comes again, with the name of a routine that the unit never gets.
-/

namespace YulAbi.Codec

/-- The members of the list that is decoded for a type, if it has one. -/
def decodedMembers? : SolType → Option (List (Labelled SolType))
  | .tuple members => some members
  | .function _ parameters _ _ => some parameters
  | .error _ parameters => some parameters
  | .event _ _ topicFree _ _ => some topicFree
  | _ => none

/-- The members of the list that is encoded for a type, if it has one. -/
def encodedMembers? : SolType → Option (List (Labelled SolType))
  | .function _ _ returns _ => some returns
  | type => decodedMembers? type

/-- A request for a routine. -/
inductive Query where
  /-- The decoder of a type. -/
  | decode (type : SolType)
  /-- The encoder of a type. -/
  | encode (type : SolType)
  /-- The decoder of the parameters of a type. -/
  | decodeParameters (type : SolType)
  /-- The encoder of the parameters of a type. -/
  | encodeParameters (type : SolType)
  /-- The encoder of an error. -/
  | encodeError (type : SolType)
  /-- The encoder of the data of an event. -/
  | encodeEvent (type : SolType)

namespace Query

/-- Serves a query. -/
def serve (settings : Settings) : Query → Emission Handling
  | .decode type => Codec.decode settings type
  | .encode type => Codec.encode settings type
  | .decodeParameters type => do return .routine (← decodeParameterList settings type)
  | .encodeParameters type => do return .routine (← encodeParameterList settings type)
  | .encodeError type => do return .routine (← Codec.encodeError settings type)
  | .encodeEvent type => do return .routine (← Codec.encodeEvent settings type)

/-- The operation and the shape that a query resolves to. -/
def target? : Query → Option RequestKey
  | .decode type => some (.decode, type.shape)
  | .encode type => some (.encode, type.shape)
  | .decodeParameters type =>
    (decodedMembers? type).map fun members => (.decodeParameters, (SolType.tuple members).shape)
  | .encodeParameters type =>
    (encodedMembers? type).map fun members => (.encodeParameters, (SolType.tuple members).shape)
  | .encodeError type => some (.encodeError, type.shape)
  | .encodeEvent type =>
    (decodedMembers? type).map fun members => (.encodeParameters, (SolType.tuple members).shape)

/-- Whether a workspace remembers a name for what a query resolves to. -/
def Remembered (query : Query) (workspace : Workspace) (name : String) : Prop :=
  ∃ target, query.target? = some target ∧ (target, name) ∈ workspace.requests

end Query

/-- Serves queries in a row, also behind failures, and answers each of them. -/
def transcript (settings : Settings) : List Query → Workspace → List (Query × Generated Handling) × Workspace
  | [], workspace => ([], workspace)
  | query :: rest, workspace =>
    let (answer, reached) := (query.serve settings).runOn workspace
    let (answers, final) := transcript settings rest reached
    ((query, answer) :: answers, final)

section

variable {foreign : Yul.Routine → Prop} {settings : Settings}

/-- A word, named or not, is settled. -/
theorem named_settles (useNames : Bool) (name : String) (value : Word) :
    Emission.Settles foreign (Offsets.named useNames name value) fun _ _ => True := by
  unfold Offsets.named
  split
  · exact .addConstant name value
  · exact .pure fun _ => trivial

/-- A task that does not apply is never answered. -/
theorem unsupported_settles {α : Type} (shape : Shape) (task : Task) (post : Workspace → α → Prop) :
    Emission.Settles foreign (unsupported shape task) post :=
  .throw fun _ same => nomatch same

/-- A request for the routine of a shape is settled and remembered. -/
theorem Requests.settles {operation : Operation} {task : Task} {shape : Shape} {emission : Emission Handling}
    {pending : List RequestKey} (h : Requests foreign pending operation task shape emission) :
    Emission.Settles foreign emission fun workspace handling =>
      ∀ name, handling = .routine name → ((operation, shape), name) ∈ workspace.requests := by
  obtain ⟨generate, rfl, generated⟩ := h
  unfold handlingOf
  split
  · exact .pure fun _ name same => nomatch same
  · split
    · refine (Emission.Settles.routineFor fun name => (generated name).orderly).andThen fun name => ?_
      refine .pure fun workspace remembered name same => ?_
      cases same
      exact remembered
    · exact unsupported_settles _ _ _

/-- The members of a decoded list. -/
theorem decodedParameters_settles (type : SolType) :
    Emission.Settles foreign (decodedParameters type) fun _ members => decodedMembers? type = some members := by
  unfold decodedParameters
  split
  all_goals first
    | exact .pure fun _ => rfl
    | exact unsupported_settles _ _ _

/-- The members of an encoded list. -/
theorem encodedParameters_settles (type : SolType) :
    Emission.Settles foreign (encodedParameters type) fun _ members => encodedMembers? type = some members := by
  unfold encodedParameters encodedMembers?
  cases type with
  | function => exact .pure fun _ => rfl
  | _ => exact decodedParameters_settles _

/-- The encoder of members is remembered. -/
theorem encodeMembers_settles (members : List (Labelled SolType)) :
    Emission.Settles foreign (encodeMembers settings members) fun workspace name =>
      ((.encodeParameters, (SolType.tuple members).shape), name) ∈ workspace.requests :=
  .routineFor fun name => (parameterEncoder_delivers members name).orderly

/-- The decoder of a parameter list is remembered. -/
theorem decodeParameterList_settles (type : SolType) :
    Emission.Settles foreign (decodeParameterList settings type) (Query.decodeParameters type).Remembered := by
  refine (decodedParameters_settles type).andThen fun members => ?_
  refine (Emission.Settles.routineFor fun name => (parameterDecoder_delivers members name).orderly).weaken ?_
  intro workspace name remembered resolved
  exact ⟨_, by simp [Query.target?, resolved], remembered⟩

/-- The encoder of a parameter list is remembered. -/
theorem encodeParameterList_settles (type : SolType) :
    Emission.Settles foreign (encodeParameterList settings type) (Query.encodeParameters type).Remembered := by
  refine (encodedParameters_settles type).andThen fun members => (encodeMembers_settles members).weaken ?_
  intro workspace name remembered resolved
  exact ⟨_, by simp [Query.target?, resolved], remembered⟩

/-- The encoder of an error is remembered; the constant of its selector is there by then. -/
theorem encodeError_settles (type : SolType) :
    Emission.Settles foreign (encodeError settings type) (Query.encodeError type).Remembered := by
  unfold encodeError
  split
  · refine (named_settles _ _ _).andThen fun selector => (encodeMembers_settles _).andThen fun encoder => ?_
    refine (Emission.Settles.routineFor fun routineName => .pure rfl).weaken ?_
    intro workspace name remembered _ _
    exact ⟨_, rfl, remembered⟩
  · exact unsupported_settles _ _ _

/-- The encoder of the data of an event is remembered; the constant of its topic is there by then. -/
theorem encodeEvent_settles (type : SolType) :
    Emission.Settles foreign (encodeEvent settings type) (Query.encodeEvent type).Remembered := by
  unfold encodeEvent
  split
  · rename_i name parameters topicFree indexed anonymous
    have encodes : Emission.Settles foreign (encodeMembers settings topicFree)
        (Query.encodeEvent (.event name parameters topicFree indexed anonymous)).Remembered :=
      (encodeMembers_settles topicFree).weaken fun workspace name remembered => ⟨_, rfl, remembered⟩
    cases anonymous with
    | true => exact encodes
    | false => exact (named_settles _ _ _).andThen fun _ => encodes.weaken fun _ _ holds _ => holds
  · exact unsupported_settles _ _ _

/-- A query that was answered with a name is settled, and its name is remembered. -/
theorem Query.serve_settles (query : Query) :
    Emission.Settles foreign (query.serve settings) fun workspace handling =>
      ∀ name, handling = .routine name → query.Remembered workspace name := by
  have named : ∀ {emission : Emission String}, Emission.Settles foreign emission query.Remembered →
      Emission.Settles foreign (do return Handling.routine (← emission)) fun workspace handling =>
        ∀ name, handling = .routine name → query.Remembered workspace name := by
    intro emission settles
    refine settles.andThen fun answer => .pure fun workspace remembered name same => ?_
    cases same
    exact remembered
  cases query with
  | decode type =>
    refine (decode_requests type [] (by simp [PendingAbove])).settles.weaken ?_
    exact fun workspace handling remembered name same => ⟨_, rfl, remembered name same⟩
  | encode type =>
    refine (encode_requests type [] (by simp [PendingAbove])).settles.weaken ?_
    exact fun workspace handling remembered name same => ⟨_, rfl, remembered name same⟩
  | decodeParameters type => exact named (decodeParameterList_settles type)
  | encodeParameters type => exact named (encodeParameterList_settles type)
  | encodeError type => exact named (encodeError_settles type)
  | encodeEvent type => exact named (encodeEvent_settles type)

end

/-- What is known of an answer in a workspace that comes later. -/
structure Query.Answered (settings : Settings) (query : Query) (answer : Generated Handling) (later : Workspace) :
    Prop where
  /-- No two routines were given one name. -/
  distinct : ∀ name, answer ≠ .error (.routineConflict name)
  /-- A name is remembered. -/
  remembered : ∀ name, answer = .ok (.routine name) → query.Remembered later name
  /-- The same query is answered the same way and changes nothing. -/
  repeated : ∀ handling, answer = .ok handling → (query.serve settings).runOn later = (.ok handling, later)

section

variable {settings : Settings}

/-- Whether nothing in a unit comes from elsewhere. -/
abbrev nowhere : Yul.Routine → Prop := fun _ => False

/-- What is known of the answer to a query, from then on. -/
theorem Query.answered {query : Query} {before after later : Workspace} {answer : Generated Handling}
    (orderly : before.Orderly nowhere) (ended : (query.serve settings).runOn before = (answer, after))
    (lasting : later.Orderly nowhere) (grown : after.Grows later) : query.Answered settings answer later := by
  have settles : Emission.Settles nowhere (query.serve settings) _ := query.serve_settles
  refine ⟨fun name same => ?_, fun name same => ?_, fun handling same => ?_⟩
  · obtain ⟨routine, _, elsewhere, _⟩ := (settles.orderly before orderly answer after ended).conflict name same
    exact elsewhere
  · rw [same] at ended
    exact (settles.settled before _ after orderly ended later lasting grown).2 name rfl
  · rw [same] at ended
    exact (settles.settled before _ after orderly ended later lasting grown).1

/-- Queries in a row leave everything in order, and what is known of their answers holds at the end. -/
theorem transcript_answered (queries : List Query) {before : Workspace} (orderly : before.Orderly nowhere) :
    (transcript settings queries before).2.Orderly nowhere ∧ before.Grows (transcript settings queries before).2 ∧
      ∀ entry ∈ (transcript settings queries before).1,
        entry.1.Answered settings entry.2 (transcript settings queries before).2 := by
  induction queries generalizing before with
  | nil => exact ⟨orderly, .refl before, fun entry listed => nomatch listed⟩
  | cons query rest ih =>
    rcases ended : (query.serve settings).runOn before with ⟨answer, reached⟩
    have settles : Emission.Settles nowhere (query.serve settings) _ := query.serve_settles
    have served := settles.orderly before orderly answer reached ended
    obtain ⟨lasting, grown, answered⟩ := ih served.orderly
    simp only [transcript, ended]
    refine ⟨lasting, served.grows.trans grown, fun entry listed => ?_⟩
    rcases List.mem_cons.mp listed with same | listed
    · subst same
      exact Query.answered orderly ended lasting grown
    · exact answered entry listed

/-- Queries in a row leave everything in order and take nothing away. -/
theorem transcript_grows (settings : Settings) (queries : List Query) {before : Workspace}
    (orderly : before.Orderly nowhere) : (transcript settings queries before).2.Orderly nowhere ∧
      before.Grows (transcript settings queries before).2 :=
  have ⟨lasting, grown, _⟩ := transcript_answered queries orderly
  ⟨lasting, grown⟩

/-- Whatever is requested, and whatever fails, no constant is bound to two values. -/
theorem transcript_constants (queries : List Query) :
    ((transcript settings queries (.start .empty)).2.unit.constants.map Prod.fst).Nodup :=
  (transcript_answered queries (Workspace.orderly_start nowhere)).1.constants

/-- Values in memory are handled by a routine. -/
theorem handlingOf_reference {operation : Operation} {task : Task} {shape : Shape}
    {generate : String → Emission Yul.Routine} (reference : shape.isReferenceType = true) :
    handlingOf operation task shape generate =
      (do return .routine (← Emission.routineFor operation shape generate)) := by
  have noWord : ¬ shape.isValueType = true := fun word => by
    rw [Shape.isReferenceType_of_isValueType word] at reference
    cases reference
  rw [handlingOf, if_neg noWord, if_pos reference]

/-- A request that is remembered is answered with its name and changes nothing. -/
theorem Requests.remembered {operation : Operation} {task : Task} {shape : Shape} {emission : Emission Handling}
    {workspace : Workspace} {name : String} (h : Requests nowhere [] operation task shape emission)
    (reference : shape.isReferenceType = true) (orderly : workspace.Orderly nowhere)
    (listed : ((operation, shape), name) ∈ workspace.requests) :
    emission.runOn workspace = (.ok (.routine name), workspace) := by
  obtain ⟨generate, rfl, -⟩ := h
  rw [handlingOf_reference reference, Emission.runOn_bind, Emission.runOn_routineFor, orderly.find?_eq_some listed]
  rfl

/-- A request whose routine cannot be generated keeps the name that it was given, and no routine has it. -/
theorem routineFor_stranded {operation : Operation} {shape : Shape} {generate : String → Emission Yul.Routine}
    (generated : ∀ name, Emission.Orderly nowhere (generate name) fun routine => routine.name = name)
    {before after : Workspace} {cause : GenerationError} (orderly : before.Orderly nowhere)
    (failed : (Emission.routineFor operation shape generate).runOn before = (.error cause, after)) :
    ∃ name, ((operation, shape), name) ∈ after.requests ∧ after.unit.routine? name = none := by
  rw [Emission.runOn_routineFor] at failed
  cases remembered : before.requests.find? fun entry => entry.1 == (operation, shape) with
  | some entry =>
    rw [remembered] at failed
    cases failed
  | none =>
    rw [remembered] at failed
    simp only at failed
    generalize (before.owners.owner shape).1 = ownerName at failed
    generalize (before.owners.owner shape).2 = owners at failed
    have fresh := FreshName.choose_notMem before.issued (operation.stem ++ ownerName)
    generalize FreshName.choose before.issued (operation.stem ++ ownerName) = name at failed fresh
    have reserved := orderly.reserve remembered fresh owners
    rw [Emission.runOn_bind] at failed
    rcases made : (generate name).runOn ⟨before.unit, owners, ((operation, shape), name) :: before.requests⟩ with
      ⟨outcome, filled⟩
    rw [made] at failed
    have middle := generated name _ reserved outcome filled made
    have kept := middle.grows.requests _ List.mem_cons_self
    -- nothing in the unit has a fresh name, and generating the routine does not change that
    have absent : filled.unit.routine? name = none := by
      cases found : filled.unit.routine? name with
      | none => rfl
      | some existing => exact (orderly.foreign_of_fresh fresh middle.grows rfl List.mem_cons_self found).elim
    cases outcome with
    | error cause' =>
      cases failed
      exact ⟨name, kept, absent⟩
    | ok routine =>
      -- so the routine would have been accepted
      simp only [Emission.runOn_addRoutine, CodeUnit.addRoutine, middle.answered routine rfl, absent] at failed
      cases failed

/-- The same of a request for the routine of values in memory. -/
theorem Requests.stranded {operation : Operation} {task : Task} {shape : Shape} {emission : Emission Handling}
    {before after : Workspace} {cause : GenerationError} (h : Requests nowhere [] operation task shape emission)
    (reference : shape.isReferenceType = true) (orderly : before.Orderly nowhere)
    (failed : emission.runOn before = (.error cause, after)) :
    ∃ name, ((operation, shape), name) ∈ after.requests ∧ after.unit.routine? name = none := by
  obtain ⟨generate, rfl, generated⟩ := h
  rw [handlingOf_reference reference, Emission.runOn_bind] at failed
  rcases ran : (Emission.routineFor operation shape generate).runOn before with ⟨result, reached⟩
  rw [ran] at failed
  cases result with
  | ok name => cases failed
  | error cause' =>
    cases failed
    exact routineFor_stranded (fun name => (generated name).orderly) orderly ran

/-- A query for the decoder or encoder of something in memory that has failed is answered from then on, with the name
of a routine that the unit does not have and never gets. -/
theorem transcript_answers_after_failure (settings : Settings) {type : SolType} {query : Query} {cause : GenerationError}
    (asks : query = .decode type ∨ query = .encode type) (reference : type.shape.isReferenceType = true)
    (queries : List Query) {before : Workspace} (orderly : before.Orderly nowhere) :
    let served := transcript settings queries before
    (query, .error cause) ∈ served.1 →
    ∃ name, (query.serve settings).runOn served.2 = (.ok (.routine name), served.2) ∧
      served.2.unit.routine? name = none := by
  obtain ⟨operation, task, requests⟩ : ∃ operation task,
      Requests nowhere [] operation task type.shape (query.serve settings) := by
    rcases asks with rfl | rfl
    · exact ⟨_, _, decode_requests type [] (by simp [PendingAbove])⟩
    · exact ⟨_, _, encode_requests type [] (by simp [PendingAbove])⟩
  induction queries generalizing before with
  | nil => exact nofun
  | cons first rest ih =>
    rcases ended : (first.serve settings).runOn before with ⟨answer, reached⟩
    have settles : Emission.Settles nowhere (first.serve settings) _ := first.serve_settles
    have start := (settles.orderly before orderly answer reached ended).orderly
    simp only [transcript, ended]
    intro listed
    rcases List.mem_cons.mp listed with same | listed
    · obtain ⟨rfl, rfl⟩ := Prod.mk.inj same
      obtain ⟨name, remembered, absent⟩ := requests.stranded reference orderly ended
      obtain ⟨lasting, grown⟩ := transcript_grows settings rest start
      refine ⟨name, ?_, grown.untouched name (List.mem_map_of_mem remembered) absent⟩
      exact requests.remembered reference lasting (grown.requests _ remembered)
    · exact ih start listed

/-- Requests for routines on one run of the generator that starts with an empty unit, some of which may
fail. Two of them are answered with the same name exactly if they resolve to the same operation on the
same shape; none of them fails because two routines have one name; and each of them that succeeded is
answered the same way again and changes nothing. -/
theorem transcript_memoizes (settings : Settings) (queries : List Query) :
    let served := transcript settings queries (.start .empty)
    (∀ query query' name name', (query, .ok (.routine name)) ∈ served.1 →
      (query', .ok (.routine name')) ∈ served.1 → (name = name' ↔ query.target? = query'.target?)) ∧
    (∀ query cause, (query, .error cause) ∈ served.1 → ∀ name, cause ≠ .routineConflict name) ∧
    (∀ query handling, (query, .ok handling) ∈ served.1 →
      (query.serve settings).runOn served.2 = (.ok handling, served.2)) := by
  obtain ⟨orderly, -, answered⟩ := transcript_answered queries (Workspace.orderly_start nowhere)
  refine ⟨fun query query' name name' listed listed' => ?_, fun query cause listed name same => ?_,
    fun query handling listed => (answered _ listed).repeated handling rfl⟩
  · obtain ⟨target, resolved, remembered⟩ := (answered _ listed).remembered name rfl
    obtain ⟨target', resolved', remembered'⟩ := (answered _ listed').remembered name' rfl
    rw [resolved, resolved', Option.some_inj]
    constructor
    · rintro rfl
      exact congrArg Prod.fst (List.inj_on_of_nodup_map orderly.names remembered remembered' rfl)
    · rintro rfl
      exact congrArg Prod.snd (List.inj_on_of_nodup_map orderly.keys remembered remembered' rfl)
  · exact (answered _ listed).distinct name (congrArg Except.error same)

end

/-- Requests for lists without members, by themselves and as parts of a function and an event. -/
def emptyLists : List Query :=
  [.decodeParameters (.tuple []), .decodeParameters (.function "f" [] [] .pure), .encodeParameters (.tuple []),
    .encodeEvent (.event "E" [] [] [] true)]

/-- The parameters of a function resolve to their tuple because they have the same routine, the decoder and
the encoder of the tuple differ because they do not resolve to the same, and the data of the event is
encoded by the same routine when it is requested again. -/
theorem transcript_memoizes_emptyLists :
    let served := transcript .standard emptyLists (.start .empty)
    (Query.decodeParameters (.tuple [])).target? = (Query.decodeParameters (.function "f" [] [] .pure)).target? ∧
      "abi_decode_params_tuple" ≠ "abi_encode_params_tuple" ∧
      ((Query.encodeEvent (.event "E" [] [] [] true)).serve .standard).runOn served.2 =
        (.ok (.routine "abi_encode_params_tuple"), served.2) := by
  obtain ⟨alike, -, again⟩ := transcript_memoizes .standard emptyLists
  have answers : (transcript .standard emptyLists (.start .empty)).1 =
      [(.decodeParameters (.tuple []), .ok (.routine "abi_decode_params_tuple")),
        (.decodeParameters (.function "f" [] [] .pure), .ok (.routine "abi_decode_params_tuple")),
        (.encodeParameters (.tuple []), .ok (.routine "abi_encode_params_tuple")),
        (.encodeEvent (.event "E" [] [] [] true), .ok (.routine "abi_encode_params_tuple"))] := by rfl
  rw [answers] at alike again
  refine ⟨(alike _ _ _ _ (.head _) (.tail _ (.head _))).mp rfl, fun same => ?_,
    again _ _ (.tail _ (.tail _ (.tail _ (.head _))))⟩
  have resolved := (alike _ _ _ _ (.head _) (.tail _ (.tail _ (.head _)))).mp same
  exact absurd resolved (by decide)

end YulAbi.Codec
