import YulAbi.Proofs.Arena.Made
import YulAbi.Proofs.Codec.ParameterList.Written
import YulAbi.Proofs.Codec.Session
import YulAbi.Proofs.Yul.Budget

/-!
# Parameter lists, errors and events are encoded as tuples

The routines that a session answers with for a list of parameters agree with the encoding of
the tuple of these parameters: the decoder answers with one word for each of them, the encoder
writes the encoding, and that of an error writes the selector before it. Which parameters a
list has is read off the shape of a node; of an event these are the parameters that are no
topics, in the order of the declaration.
-/

namespace YulAbi

open Value (Stands allocatedEach encodeAs)

namespace Shape

/-- The parameters that are decoded for a shape. -/
def decodedList : Shape → Option (List Shape)
  | .tuple members => some members
  | .function parameters _ => some parameters
  | .error _ parameters => some parameters
  | .event _ parameters indexed _ => some (topicFree parameters indexed)
  | _ => none

/-- The parameters that are encoded for a shape; of a function these are its returns. -/
def encodedList : Shape → Option (List Shape)
  | .function _ returns => some returns
  | shape => shape.decodedList

end Shape

namespace Codec

open Machine (Fresh)

/-- Whether a routine reads values back from their encoding in call data, one word for each of them, in memory of
their own. -/
def RestoresList (unit : CodeUnit) (name : String) (parameters : List Shape) (values : List Value)
    (encoding : List UInt8) : Prop :=
  ∀ (machine : Machine) (source : Word), Machine.freePointerSlot + wordBytes ≤ machine.free →
    machine.calldata.size < 2 ^ 64 → Memory.Holds machine.calldata source.toNat encoding →
    source.toNat + encoding.length ≤ machine.calldata.size →
    machine.free + allocatedEach parameters values ≤ memoryLimit →
    ∃ words final enough,
      (∀ limit, enough ≤ limit → (unit.call limit name [source]).run machine = .ok words final) ∧
      WordsStand final machine.free final.free parameters words values ∧
      machine.ChangesOnly (Fresh machine.free) final

/-- Whether a routine that is given words that stand for values below the target puts bytes there, and answers
with a size. -/
def WritesList (unit : CodeUnit) (name : String) (parameters : List Shape) (values : List Value)
    (content : List UInt8) (size : Nat) : Prop :=
  ∀ (machine : Machine) (words : List Word) (target : Word),
    WordsStand machine 0 target.toNat parameters words values → target.toNat + content.length ≤ memoryLimit →
    ∃ final enough,
      (∀ limit, enough ≤ limit →
        (unit.call limit name (words ++ [target])).run machine = .ok [Word.ofNat size] final) ∧
      machine.Puts final target.toNat content

section

variable {unit : CodeUnit} {settings : Settings} {before after : Workspace} {arena : Arena} {id : NodeId}
  {cap : Nat} {name signature : String} {type : SolType} {parameters : List Shape} {values : List Value}
  {encoding : List UInt8}

/-- The encoding of a tuple is that of its members one by one. -/
theorem encodesEach_of_encoded (data : (Shape.tuple parameters).isData = true)
    (encoded : encodeAs (.tuple parameters) (.tuple values) = .ok encoding) :
    (∀ parameter ∈ parameters, parameter.isData = true) ∧ ∃ encodings,
      Value.EncodesEach parameters values encodings ∧ encoding = Value.sequenceBytes parameters encodings := by
  obtain ⟨parts, -⟩ := Shape.IsComposite.isData (.inr rfl) data
  obtain ⟨others, encodings, same, -, each, rfl⟩ := (Value.encodeAs_composite (.inr rfl)).mp encoded
  cases same
  exact ⟨parts, encodings, each, rfl⟩

/-- What decodes a list restores values. -/
theorem DecodesList.restores (h : DecodesList unit cap parameters name)
    (data : (Shape.tuple parameters).isData = true)
    (encoded : encodeAs (.tuple parameters) (.tuple values) = .ok encoding) :
    RestoresList unit name parameters values encoding := by
  intro machine source above addressed holds inside room
  obtain ⟨parts, encodings, each, rfl⟩ := encodesEach_of_encoded data encoded
  have roomy : machine.Roomy := ⟨above, Nat.le_trans (Nat.le_add_right _ _) room⟩
  obtain ⟨words, final, decoded, advances, stand⟩ := decodeWords_places [] []
    parts each rfl holds inside roomy addressed room
  obtain ⟨enough, ends⟩ := (h source).exists_enough machine
  exact ⟨words, final, enough, fun limit long => (ends limit long).trans decoded, stand, advances.changes⟩

/-- What encodes a list writes its encoding. -/
theorem EncodesList.writes (h : EncodesList unit cap parameters name) (data : (Shape.tuple parameters).isData = true)
    (encoded : encodeAs (.tuple parameters) (.tuple values) = .ok encoding) :
    WritesList unit name parameters values encoding encoding.length := by
  intro machine words target stand room
  obtain ⟨parts, encodings, each, rfl⟩ := encodesEach_of_encoded data encoded
  obtain ⟨final, written, puts⟩ := encodeList_writes parts each stand room
  obtain ⟨enough, ends⟩ := (h words target stand.counted).exists_enough machine
  refine ⟨final, enough, fun limit long => ?_, puts⟩
  rw [ends limit long, Step.bind_of_ok written]
  rfl

/-- What encodes an error writes its selector and the encoding of its parameters. -/
theorem EncodesSelected.writes (h : EncodesSelected unit cap (Keccak.selectorWord signature) parameters name)
    (data : (Shape.tuple parameters).isData = true)
    (encoded : encodeAs (.tuple parameters) (.tuple values) = .ok encoding) :
    WritesList unit name parameters values (errorBytes signature encoding) (4 + encoding.length) := by
  intro machine words target stand room
  obtain ⟨parts, encodings, each, rfl⟩ := encodesEach_of_encoded data encoded
  obtain ⟨final, written, puts⟩ := encodeSelected_writes parts each stand room
  obtain ⟨enough, ends⟩ := (h words target stand.counted).exists_enough machine
  refine ⟨final, enough, fun limit long => ?_, puts⟩
  rw [ends limit long, Step.bind_of_ok written]
  rfl

/-- The parameters that are decoded are those of the shape. -/
theorem decodedParameters_of_shape (made : arena.Made) (there : id < arena.size)
    (listed : (arena.shape id).decodedList = some parameters) : ∃ members,
      decodedParameters (arena.typeAt id) = pure members ∧ SolType.shapes members = parameters := by
  rw [← made.sound.shape_typeAt there] at listed
  cases read : arena.typeAt id with
  | tuple _ | function _ _ _ _ | error _ _ =>
    rw [read] at listed
    exact ⟨_, rfl, Option.some.inj listed⟩
  | event _ _ _ _ _ =>
    rw [read] at listed
    exact ⟨_, rfl, (made.sound.shapes_data there read).trans (Option.some.inj listed)⟩
  | _ =>
    rw [read] at listed
    cases listed

/-- The parameters that are encoded are those of the shape. -/
theorem encodedParameters_of_shape (made : arena.Made) (there : id < arena.size)
    (listed : (arena.shape id).encodedList = some parameters) : ∃ members,
      encodedParameters (arena.typeAt id) = pure members ∧ SolType.shapes members = parameters := by
  have shape := made.sound.shape_typeAt there
  have decoded : (arena.shape id).decodedList = some parameters → ∃ members,
      decodedParameters (arena.typeAt id) = pure members ∧ SolType.shapes members = parameters :=
    decodedParameters_of_shape made there
  rw [← shape] at listed decoded
  cases read : arena.typeAt id with
  | function _ _ _ _ =>
    rw [read] at listed
    exact ⟨_, rfl, Option.some.inj listed⟩
  | _ =>
    rw [read] at listed decoded
    exact decoded listed

/-- The routines that are answered for a list of parameters agree with the encoding of the tuple of these
parameters: decoders restore the values, encoders write the encoding, those of errors write the selector of the
signature before it, and those of events write what is no topic. -/
theorem parameter_routines_agree (made : arena.Made) (there : id < arena.size) (session : Session settings unit before)
    (data : (Shape.tuple parameters).isData = true)
    (encoded : encodeAs (.tuple parameters) (.tuple values) = .ok encoding) :
    ((arena.shape id).decodedList = some parameters →
      (decodeParameterList settings (arena.typeAt id)).runOn before = (.ok name, after) →
      RestoresList after.unit name parameters values encoding) ∧
    ((arena.shape id).encodedList = some parameters →
      (encodeParameterList settings (arena.typeAt id)).runOn before = (.ok name, after) →
      WritesList after.unit name parameters values encoding encoding.length) ∧
    ((∃ error, arena.shape id = .error error parameters) →
      (encodeError settings (arena.typeAt id)).runOn before = (.ok name, after) →
      ∃ signature, arena.signature id = .ok signature ∧
        WritesList after.unit name parameters values (errorBytes signature encoding) (4 + encoding.length)) ∧
    ((∃ event listed indexed anonymous, arena.shape id = .event event listed indexed anonymous ∧
        parameters = topicFree listed indexed) →
      (encodeEvent settings (arena.typeAt id)).runOn before = (.ok name, after) →
      WritesList after.unit name parameters values encoding encoding.length) := by
  have shape := made.sound.shape_typeAt there
  refine ⟨fun listed answered => ?_, fun listed answered => ?_, fun ⟨error, own⟩ answered => ?_,
    fun ⟨event, listed, indexed, anonymous, own, same⟩ answered => ?_⟩
  · obtain ⟨members, read, rfl⟩ := decodedParameters_of_shape made there listed
    exact (session.decodesList read answered).restores data encoded
  · obtain ⟨members, read, rfl⟩ := encodedParameters_of_shape made there listed
    exact (session.encodesList read answered).writes data encoded
  · have signed := made.sound.signature_of_error there own
    rw [own] at shape
    cases read : arena.typeAt id with
    | error error' members =>
      rw [read] at shape answered
      obtain ⟨rfl, rfl⟩ := Shape.error.inj shape
      exact ⟨_, signed, (session.encodesError answered).writes data encoded⟩
    | _ =>
      rw [read] at shape
      cases shape
  · rw [own] at shape
    cases read : arena.typeAt id with
    | event event' members members' indexed' anonymous' =>
      have apart := made.sound.shapes_data there read
      rw [read] at shape answered
      obtain ⟨-, rfl, rfl, -⟩ := Shape.event.inj shape
      rw [same, ← apart] at data encoded ⊢
      exact (session.encodesEvent answered).writes data encoded
    | _ =>
      rw [read] at shape
      cases shape

/-- An arena with an error and an event that share their parameters, the first of which is a topic. -/
def noticeArena : Arena :=
  let failed := Addition.described (.error "Failed" [⟨"code", .uint 256⟩, ⟨"text", .bytes⟩])
  let noted := Addition.event "Noted" [⟨"code", 0, true⟩, ⟨"text", 1, false⟩] false
  (noted.run.runOn (failed.run.runOn .empty).2).2

/-- A request that succeeds has an answer. -/
theorem exists_answer (request : Emission String) (workspace : Workspace)
    (succeeds : (request.runOn workspace).1.toBool = true) :
    ∃ name after, request.runOn workspace = (.ok name, after) := by
  cases result : request.runOn workspace with
  | mk answer after =>
    cases answer with
    | ok name => exact ⟨name, after, rfl⟩
    | error _ =>
      rw [result] at succeeds
      cases succeeds

/-- A code and three bytes are read from behind a selector, and written behind that of the error; the event has
the bytes only. -/
theorem notice_routines_agree : ∃ encoding,
    encodeAs (.tuple [.integer false 256, .bytes]) (.tuple [.word 5, .bytes [1, 2, 3]]) = .ok encoding ∧
    (∃ name after words final enough,
      (decodeParameterList .standard (noticeArena.typeAt 3)).runOn (.start .empty) = (.ok name, after) ∧
      (∀ limit, enough ≤ limit → (after.unit.call limit name [4#256]).run
        (.start ⟨([8, 195, 121, 160] ++ encoding).toArray⟩) = .ok words final) ∧
      WordsStand final 128 final.free [.integer false 256, .bytes] words [.word 5, .bytes [1, 2, 3]]) ∧
    (∃ name after final enough,
      (encodeParameterList .standard (noticeArena.typeAt 3)).runOn (.start .empty) = (.ok name, after) ∧
      (∀ limit, enough ≤ limit → (after.unit.call limit name [5#256, 128#256, 192#256]).run unpaddedBytes =
        .ok [128#256] final) ∧ unpaddedBytes.Puts final 192 encoding) ∧
    (∃ name after final enough,
      (encodeError .standard (noticeArena.typeAt 3)).runOn (.start .empty) = (.ok name, after) ∧
      (∀ limit, enough ≤ limit → (after.unit.call limit name [5#256, 128#256, 192#256]).run unpaddedBytes =
        .ok [132#256] final) ∧ unpaddedBytes.Puts final 192 (errorBytes "Failed(uint256,bytes)" encoding)) ∧
    ∃ name after final enough,
      (encodeEvent .standard (noticeArena.typeAt 9)).runOn (.start .empty) = (.ok name, after) ∧
      (∀ limit, enough ≤ limit → (after.unit.call limit name [128#256, 192#256]).run unpaddedBytes =
        .ok [96#256] final) ∧
      unpaddedBytes.Puts final 192 (Word.toBytes 32#256 ++ Value.encodeBytes [1, 2, 3]) := by
  have made : noticeArena.Made :=
    .extended _ (.extended _ .empty fun _ named => nomatch named) (by decide +kernel)
  have first : (3 : NodeId) < noticeArena.size := by decide +kernel
  have second : (9 : NodeId) < noticeArena.size := by decide +kernel
  have session : Session .standard .empty (.start .empty) := .start
  have bytes : Stands unpaddedBytes 0 192 .bytes 128#256 (.bytes [1, 2, 3]) :=
    .ofBytes rfl (by decide +kernel) (by unfold Memory.Holds; decide +kernel) (by decide) (by decide) (by decide)
  have noted : WordsStand unpaddedBytes 0 192 [.bytes] [128#256] [.bytes [1, 2, 3]] := .cons bytes (.nil _ _ _)
  have failed : WordsStand unpaddedBytes 0 192 [.integer false 256, .bytes] [5#256, 128#256]
    [.word 5, .bytes [1, 2, 3]] := .cons (.ofWord rfl _ _ _) noted
  let encoding := Word.toBytes 5#256 ++ Word.toBytes 64#256 ++ Value.encodeBytes [1, 2, 3]
  have encoded : encodeAs (.tuple [.integer false 256, .bytes]) (.tuple [.word 5, .bytes [1, 2, 3]]) =
    .ok encoding := by rfl
  have encoded' : encodeAs (.tuple [.bytes]) (.tuple [.bytes [1, 2, 3]]) =
    .ok (Word.toBytes 32#256 ++ Value.encodeBytes [1, 2, 3]) := by rfl
  refine ⟨encoding, encoded, ?_, ?_, ?_, ?_⟩
  · obtain ⟨name, after, answered⟩ := exists_answer
      (decodeParameterList .standard (noticeArena.typeAt 3)) (.start .empty) (by decide +kernel)
    have restores := (parameter_routines_agree made first session rfl encoded).1 (by decide +kernel) answered
    obtain ⟨words, final, enough, ends, stand, -⟩ :=
      restores (.start ⟨([8, 195, 121, 160] ++ encoding).toArray⟩) 4#256
      (by decide +kernel) (by decide +kernel) (by unfold Memory.Holds; decide +kernel) (by decide +kernel)
      (by decide +kernel)
    have free : (Machine.start ⟨([8, 195, 121, 160] ++ encoding).toArray⟩).free = 128 := by decide +kernel
    rw [free] at stand
    exact ⟨name, after, words, final, enough, answered, ends, stand⟩
  · obtain ⟨name, after, answered⟩ := exists_answer
      (encodeParameterList .standard (noticeArena.typeAt 3)) (.start .empty) (by decide +kernel)
    have writes := (parameter_routines_agree made first session rfl encoded).2.1 (by decide +kernel) answered
    obtain ⟨final, enough, ends, puts⟩ := writes unpaddedBytes _ 192#256 failed (by decide +kernel)
    exact ⟨name, after, final, enough, answered, ends, puts⟩
  · obtain ⟨name, after, answered⟩ := exists_answer
      (encodeError .standard (noticeArena.typeAt 3)) (.start .empty) (by decide +kernel)
    have own : noticeArena.shape 3 = .error "Failed" [.integer false 256, .bytes] := by decide +kernel
    obtain ⟨signature, signed, writes⟩ :=
      (parameter_routines_agree made first session rfl encoded).2.2.1 ⟨_, own⟩ answered
    have same : signature = "Failed(uint256,bytes)" := Except.ok.inj (signed.symm.trans (by decide +kernel))
    subst same
    obtain ⟨final, enough, ends, puts⟩ := writes unpaddedBytes _ 192#256 failed (by
      simp only [errorBytes, List.length_append, Keccak.length_selectorBytes]
      decide +kernel)
    have size : 4 + encoding.length = 132 := by decide +kernel
    rw [size] at ends
    exact ⟨name, after, final, enough, answered, ends, puts⟩
  · obtain ⟨name, after, answered⟩ := exists_answer
      (encodeEvent .standard (noticeArena.typeAt 9)) (.start .empty) (by decide +kernel)
    have own : noticeArena.shape 9 = .event "Noted" [.integer false 256, .bytes] [true, false] false := by decide +kernel
    have writes := (parameter_routines_agree made second session rfl encoded').2.2.2 ⟨_, _, _, _, own, rfl⟩ answered
    obtain ⟨final, enough, ends, puts⟩ := writes unpaddedBytes _ 192#256 noted (by decide +kernel)
    exact ⟨name, after, final, enough, answered, ends, puts⟩

end

end Codec

end YulAbi
