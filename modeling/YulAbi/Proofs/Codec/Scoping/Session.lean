import YulAbi.Proofs.Codec.Memoization
import YulAbi.Proofs.Codec.Session
import YulAbi.Proofs.Yul.Safety

/-!
# Units of sessions are closed

As long as no request fails, every routine of the unit is one that a request asked for,
and then it fits the request, or a cast, which needs nothing but its own parameter. So
every routine finds all that it needs in the unit, and a call of it can only end with its
results or because it reverts, takes too many steps or reaches too far into memory. Every
name that was given out has its routine, and all that it calls, directly or not, whatever
fails later.
-/

namespace YulAbi

open Yul (Routine)

/-- Whether a routine needs nothing of the unit that it is in. -/
def Yul.Routine.Portable (routine : Routine) : Prop := ∀ unit, routine.Scoped unit

/-- Whether a workspace is in order, apart from portable routines, and all routines of requests fit
them. -/
structure Workspace.Fitted (workspace : Workspace) : Prop where
  /-- Everything is in order. -/
  orderly : workspace.Orderly Routine.Portable
  /-- The routine of every request fits it. -/
  keeps : workspace.Keeps Codec.scopingPromise []

/-- In a fitted workspace every name that was given out has its routine. -/
theorem Workspace.Fitted.backed {workspace : Workspace} (h : workspace.Fitted) {key : RequestKey} {name : String}
    (remembered : (key, name) ∈ workspace.requests) :
    ∃ routine, workspace.unit.routine? name = some routine ∧ Codec.Fits key name workspace.unit routine :=
  h.keeps.kept key name remembered (by simp) workspace.unit (.refl _)

/-- In a fitted workspace every routine finds all that it needs. -/
theorem Workspace.Fitted.scoped {workspace : Workspace} (h : workspace.Fitted) : workspace.unit.Scoped := by
  intro routine listed
  by_cases portable : routine.Portable
  · exact portable workspace.unit
  · obtain ⟨⟨key, name⟩, remembered, named⟩ := List.mem_map.mp (h.orderly.owned routine listed portable)
    obtain ⟨other, found, fits⟩ := h.backed remembered
    have present := CodeUnit.routine?_of_mem h.orderly.routines listed
    rw [← named, found] at present
    cases present
    exact fits.inner

namespace Codec

/-- Whether an emission that succeeds leaves a fitted workspace fitted. -/
def KeepsFitted {α : Type} (emission : Emission α) : Prop :=
  ∀ before value after, emission.runOn before = (.ok value, after) → before.Fitted → after.Fitted

section

variable {α β : Type}

/-- What is delivered with fitting routines leaves everything fitted. -/
theorem KeepsFitted.of_delivers {emission : Emission α} {answer : α → Prop} {post : CodeUnit → α → Prop}
    (h : Emission.Delivers Routine.Portable scopingPromise [] emission answer post) : KeepsFitted emission :=
  fun before value after ended fitted =>
    ⟨(h.orderly before fitted.orderly _ after ended).orderly, (h.gives before after value ended fitted.keeps).1⟩

/-- An answer changes nothing. -/
theorem KeepsFitted.pure (value : α) : KeepsFitted (Pure.pure value : Emission α) := by
  intro before answer after ended fitted
  cases ended
  exact fitted

/-- A name that is computed changes nothing. -/
theorem KeepsFitted.lift (answer : Generated α) : KeepsFitted (liftM answer : Emission α) := by
  intro before value after ended fitted
  cases answer with
  | error cause => cases ended
  | ok given =>
    cases ended
    exact fitted

/-- A failure is no success. -/
theorem KeepsFitted.throw (cause : GenerationError) : KeepsFitted (throw cause : Emission α) :=
  fun _ _ _ ended => nomatch ended

/-- Emissions in a row. -/
theorem KeepsFitted.bind {first : Emission α} {next : α → Emission β} (h : KeepsFitted first)
    (h' : ∀ value, KeepsFitted (next value)) : KeepsFitted (first >>= next) := by
  intro before result after ended fitted
  obtain ⟨value, reached, begun, finished⟩ := Emission.runOn_bind_ok.mp ended
  exact h' value reached result after finished (h before value reached begun fitted)

/-- A portable routine may be added. -/
theorem KeepsFitted.addRoutine {routine : Routine} (portable : routine.Portable) :
    KeepsFitted (Emission.addRoutine routine) := by
  intro before name after ended fitted
  have keeps := (Emission.Gives.addRoutine routine before after name ended fitted.keeps).1
  refine ⟨?_, keeps⟩
  rw [Emission.runOn_addRoutine] at ended
  cases added : before.unit.addRoutine routine with
  | error cause =>
    rw [added] at ended
    cases ended
  | ok unit =>
    rw [added] at ended
    cases ended
    exact fitted.orderly.addRoutine (fun other => absurd portable other) added

end

section

variable {settings : Settings}

/-- A cast assigns its parameter to its result. -/
theorem portable_castRoutine (source target : RoutineSignature) : (castRoutine source target).Portable := by
  intro unit
  simp [Routine.Scoped, castRoutine]

/-- Every request that succeeds leaves everything fitted. -/
theorem Request.serve_keepsFitted (request : Request) : KeepsFitted (request.serve settings) := by
  have decodes : ∀ type, KeepsFitted (Codec.decode settings type) := fun type =>
    .of_delivers (decode_delivers type [] (by simp [PendingAbove]))
  have decodesList : ∀ type, KeepsFitted (decodeParameterList settings type) := fun type =>
    .of_delivers (decodeParameterList_delivers type)
  cases request with
  | decode type => exact .bind (decodes type) fun _ => .pure ()
  | encode type =>
    exact .bind (.of_delivers (encode_delivers type [] (by simp [PendingAbove]))) fun _ => .pure ()
  | decodeParameters type => exact .bind (decodesList type) fun _ => .pure ()
  | encodeParameters type => exact .bind (.of_delivers (encodeParameterList_delivers type)) fun _ => .pure ()
  | encodeError type => exact .bind (.of_delivers (encodeError_delivers type)) fun _ => .pure ()
  | encodeEvent type => exact .bind (.of_delivers (encodeEvent_delivers type)) fun _ => .pure ()
  | decoderSignature type =>
    refine .bind (.bind (decodes type) fun handling => ?_) fun _ => .pure ()
    cases handling with
    | inline => exact .throw _
    | routine name => exact .bind (.lift _) fun _ => .pure _
  | parameterDecoderSignature type =>
    refine .bind (.bind (decodesList type) fun name => ?_) fun _ => .pure ()
    refine .bind (.of_delivers (decodedParameters_delivers _ _ type)) fun members => ?_
    exact .bind (.lift _) fun _ => .pure _
  | cast source target =>
    refine .bind ?_ fun _ => .pure ()
    unfold Codec.cast
    split
    · exact .addRoutine (portable_castRoutine source target)
    · exact .throw _

/-- Everything is fitted as long as no request fails. -/
theorem Session.fitted {workspace : Workspace} (h : Session settings .empty workspace) : workspace.Fitted := by
  induction h with
  | start => exact ⟨Workspace.orderly_start _, Workspace.keeps_start _ _ _⟩
  | served request _ succeeds ih => exact request.serve_keepsFitted _ _ _ succeeds ih

/-- After requests that all succeeded on a unit that was empty, every routine of the unit may be called
with as many words as it has parameters, on any machine and with any number of steps. Either it gives
as many words as it has results, or it reverts without data, takes all its steps, or accesses memory
beyond the limit. No routine, constant or variable is missing and no number of words is wrong. -/
theorem session_routine_ends {workspace : Workspace} (session : Session settings .empty workspace)
    {routine : Routine} (listed : routine ∈ workspace.unit.routines) {args : List Word}
    (taken : args.length = routine.params.length) (limit : Nat) (machine : Machine) :
    match (workspace.unit.call limit routine.name args).run machine with
    | .ok values _ => values.length = routine.returns.length
    | .error fault _ => fault = .reverted [] ∨ fault = .stepLimit limit ∨ ∃ offset, fault = .memoryLimit offset := by
  have fitted := session.fitted
  have found := CodeUnit.routine?_of_mem fitted.orderly.routines listed
  have ended := fitted.scoped.call_ends found taken.symm limit machine
  cases outcome : (workspace.unit.call limit routine.name args).run machine with
  | ok values after =>
    rw [outcome] at ended
    exact ended
  | error fault after =>
    rw [outcome] at ended
    rcases ended with _ | _ | offset
    · exact .inl rfl
    · exact .inr (.inl rfl)
    · exact .inr (.inr ⟨offset, rfl⟩)

/-- The decoder of bytes may be called at the end of empty call data. -/
theorem session_bytesDecoder_ends : ∃ workspace routine, Session .standard .empty workspace ∧
    routine ∈ workspace.unit.routines ∧ routine.name = "abi_decode_bytes" ∧
    match (workspace.unit.call 100 routine.name [0#256]).run (.start ⟨#[]⟩) with
    | .ok values _ => values.length = routine.returns.length
    | .error fault _ => fault = .reverted [] ∨ fault = .stepLimit 100 ∨ ∃ offset, fault = .memoryLimit offset := by
  have served : ((Request.decode .bytes).serve .standard).runOn (.start .empty) =
      (.ok (), (((Request.decode .bytes).serve .standard).runOn (.start .empty)).2) := by rfl
  have session := Session.start.served (.decode .bytes) served
  obtain ⟨routine, found, taken⟩ : ∃ routine,
      (((Request.decode .bytes).serve .standard).runOn (.start .empty)).2.unit.routine? "abi_decode_bytes" =
        some routine ∧ routine.params.length = 1 := ⟨_, rfl, rfl⟩
  obtain ⟨listed, named⟩ := CodeUnit.mem_of_routine?_eq_some found
  exact ⟨_, routine, session, listed, named, session_routine_ends session listed (by rw [taken]; rfl) 100 _⟩

end

/-! ### Answers to queries -/

/-- The request that a query makes. -/
def Query.request : Query → Request
  | .decode type => .decode type
  | .encode type => .encode type
  | .decodeParameters type => .decodeParameters type
  | .encodeParameters type => .encodeParameters type
  | .encodeError type => .encodeError type
  | .encodeEvent type => .encodeEvent type

section

variable {settings : Settings}

/-- A query that is answered makes a request that succeeds. -/
theorem Query.request_succeeds {query : Query} {before after : Workspace} {handling : Handling}
    (answered : (query.serve settings).runOn before = (.ok handling, after)) :
    (query.request.serve settings).runOn before = (.ok (), after) := by
  have forget : ∀ {α : Type} {emission : Emission α} {value : α}, emission.runOn before = (.ok value, after) →
      (do let _ ← emission).runOn before = (.ok (), after) := fun ended =>
    Emission.runOn_bind_ok.mpr ⟨_, _, ended, rfl⟩
  cases query with
  | decode type => exact forget answered
  | encode type => exact forget answered
  | _ =>
    obtain ⟨name, reached, ended, same⟩ := Emission.runOn_bind_ok.mp answered
    cases same
    exact forget ended

/-- Queries that are all answered go on with a session. -/
theorem Session.transcript {unit : CodeUnit} {before : Workspace} (session : Session settings unit before)
    (queries : List Query)
    (succeed : ∀ entry ∈ (Codec.transcript settings queries before).1, ∃ handling, entry.2 = .ok handling) :
    Session settings unit (Codec.transcript settings queries before).2 := by
  induction queries generalizing before with
  | nil => exact session
  | cons query rest ih =>
    rcases ended : (query.serve settings).runOn before with ⟨answer, reached⟩
    simp only [Codec.transcript, ended] at succeed ⊢
    obtain ⟨⟨handling, same⟩, others⟩ := List.forall_mem_cons.mp succeed
    dsimp only at same
    subst same
    exact ih (session.served query.request (Query.request_succeeds ended)) others

/-- If queries on a unit that was empty are all answered, then every name they were answered with has its routine in
the unit, and so has everything that is reached from it by calls. This stays so whatever is asked for next and fails. -/
theorem transcript_backs (settings : Settings) (queries rest : List Query) :
    let served := transcript settings queries (.start .empty)
    let later := (transcript settings rest served.2).2
    (∀ entry ∈ served.1, ∃ handling, entry.2 = .ok handling) →
    ∀ query name, (query, .ok (.routine name)) ∈ served.1 →
      ∀ other, later.unit.Reaches name other → ∃ routine, later.unit.routine? other = some routine := by
  intro served later succeed query name answered other reached
  have fitted := (Session.start.transcript queries succeed).fitted
  have known : ∀ entry ∈ served.1, entry.1.Answered settings entry.2 served.2 :=
    (transcript_answered queries (Workspace.orderly_start nowhere)).2.2
  obtain ⟨orderly, -⟩ := transcript_grows settings queries (Workspace.orderly_start nowhere)
  obtain ⟨-, grown⟩ := transcript_grows settings rest orderly
  obtain ⟨target, -, remembered⟩ := (known _ answered).remembered name rfl
  obtain ⟨routine, found, -⟩ := fitted.backed remembered
  obtain ⟨callee, present⟩ := fitted.scoped.reaches grown.unit.routines found reached
  exact ⟨callee, grown.unit.routines _ _ present⟩

end

end Codec

end YulAbi
