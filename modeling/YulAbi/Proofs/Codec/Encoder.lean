import YulAbi.Proofs.Codec.Decoder
import YulAbi.Proofs.Codec.Encoder.Tails

/-!
# Encoders that are requested

Every request for an encoder that succeeds answers with a handling that does what `encodeAt`
says. The proof follows the type, as that for decoders does.

The encoder of a struct or tuple copies segments first and encodes the references then. Its
result variable holds the size of everything written so far; it changes with each reference
that is encoded behind the others.
-/

namespace YulAbi.Codec

open Yul (Expr Stmt Block Routine Frame Scope)

section

variable {promise : Promise} {pending : List RequestKey} {settings : Settings} {unit : CodeUnit}
  {type : SolType} {members : List Shape} {name : String} {size pointer target : Word} {cap : Nat}

/-- The variables of an encoder of a struct or tuple. -/
def encodedFrame (name : String) (size pointer target : Word) : Frame :=
  encoderFrame name "mPtr" [] size pointer target

/-- The value of an encoder of a struct or tuple. -/
theorem value_acts : Expr.Acts unit (encodedFrame name size pointer target) (.ident "mPtr") (pure pointer) :=
  .ident rfl

/-- The address that an encoder of a struct or tuple writes to. -/
theorem dst_acts : Expr.Acts unit (encodedFrame name size pointer target) (.ident "dst") (pure target) :=
  .ident rfl

/-- The copy of one segment. -/
theorem encodeSegment_acts {segment : Segment} {callOffset memoryOffset : Expr}
    (called : callOffset.IsNumber unit (Word.ofNat (Shape.headBytesSum (members.take segment.start))))
    (placed : memoryOffset.IsNumber unit (Word.ofNat (segment.start * wordBytes))) :
    (segment.length = 1 → Stmt.Acts unit (encodedFrame name size pointer target)
      (.mstore (.add (.ident "dst") callOffset) (.mload (.add (.ident "mPtr") memoryOffset)))
      (encodeSegment members pointer target segment) fun _ => encodedFrame name size pointer target) ∧
    (segment.length ≠ 1 → ∀ extent, extent.IsNumber unit (Word.ofNat segment.byteLength) →
      Stmt.Acts unit (encodedFrame name size pointer target)
        (.mcopy (.add (.ident "dst") callOffset) (.add (.ident "mPtr") memoryOffset) extent)
        (encodeSegment members pointer target segment) fun _ => encodedFrame name size pointer target) := by
  have toward : Expr.Acts unit (encodedFrame name size pointer target) (.add (.ident "dst") callOffset)
      (pure (target + Word.ofNat (Shape.headBytesSum (members.take segment.start)))) :=
    Expr.Acts.sum dst_acts (called _)
  have origin : Expr.Acts unit (encodedFrame name size pointer target) (.add (.ident "mPtr") memoryOffset)
      (pure (pointer + Word.ofNat (segment.start * wordBytes))) := Expr.Acts.sum value_acts (placed _)
  constructor
  · intro single
    unfold encodeSegment
    rw [if_pos single]
    exact Stmt.Acts.mstoreAt toward (Expr.Acts.mloadAt origin)
  · intro several extent measured
    unfold encodeSegment
    rw [if_neg several]
    exact Stmt.Acts.mcopy toward origin (measured _)

/-- The copies of segments. -/
theorem writeSegments_gives (composite : type.shape.IsComposite members) (segments : List Segment) :
    Emission.Gives promise pending (writeSegments settings type segments) fun unit stmts =>
      ∀ name size pointer target, Block.Does unit (encodedFrame name size pointer target) stmts
        (encodeSegments members pointer target segments) := by
  induction segments with
  | nil => exact .pure fun unit name size pointer target => Block.Does.nil
  | cons segment rest ih =>
    refine (callOffset_gives composite segment.start).andThen fun callOffset => ?_
    refine (memoryOffset_gives composite segment.start).andThen fun memoryOffset => ?_
    dsimp only
    split
    · rename_i single
      refine ih.andThen fun others => .pure ?_
      intro unit does placed called name size pointer target
      exact Block.Does.cons ((encodeSegment_acts called placed).1 single) (does name size pointer target)
    · rename_i several
      refine (Offsets.words_gives _ segment.byteLength).andThen fun extent => ?_
      refine ih.andThen fun others => .pure ?_
      intro unit does measured placed called name size pointer target
      exact Block.Does.cons ((encodeSegment_acts called placed).2 several extent measured)
        (does name size pointer target)

/-- The variables of an encoder for each size of everything written: the size can be assigned to, and the address
that is written to is known. -/
structure WritingFrames (frames : Word → Frame) (target : Word) : Prop where
  /-- The address that is written to. -/
  dst : ∀ size, (frames size).find? "dst" = some target
  /-- The size of everything written. -/
  size : ∀ size, (frames size).find? "size" = some size
  /-- Another size is written. -/
  assign : ∀ size next, Frame.assignIn "size" next (frames size).scopes = some (frames next).scopes
  /-- The routine stays the same. -/
  routine : ∀ size next, (frames size).routine = (frames next).routine

/-- The variables of an encoder of a struct or tuple. -/
theorem writingFrames_encodedFrame (name : String) (pointer target : Word) :
    WritingFrames (fun size => encodedFrame name size pointer target) target :=
  ⟨fun _ => rfl, fun _ => rfl, fun _ next => assignIn_size rfl next, fun _ _ => rfl⟩

/-- Whether statements of an encoder act as a step does that hands on the size of everything written. -/
def WritesOn (unit : CodeUnit) (frames : Word → Frame) (stmts : Block) (step : Word → MachineStep Word) : Prop :=
  ∀ (size : Word) (rest : Block) (others : Word → MachineStep Word) (after : Word → Frame),
    (∀ reached, Block.Runs unit (frames reached) rest (others reached) after) →
    Block.Runs unit (frames size) (stmts ++ rest) (step size >>= others) after

variable {frames : Word → Frame}

/-- No statements write nothing. -/
theorem WritesOn.nil : WritesOn unit frames [] pure := by
  intro size rest others after continued
  rw [pure_bind]
  exact continued size

/-- Statements that write one after the other. -/
theorem WritesOn.append {stmts more : Block} {step step' : Word → MachineStep Word}
    (first : WritesOn unit frames stmts step) (second : WritesOn unit frames more step') :
    WritesOn unit frames (stmts ++ more) fun size => step size >>= step' := by
  intro size rest others after continued
  rw [List.append_assoc, bind_assoc]
  exact first _ _ _ _ fun reached => second _ _ _ _ continued

/-- An assignment of another size. -/
theorem WritingFrames.assignSize (writing : WritingFrames frames target) {size : Word} {value : Expr}
    {effect : MachineStep Word} (acts : Expr.Acts unit (frames size) value effect) :
    Stmt.Acts unit (frames size) (.assignTo "size" value) effect frames := by
  have assigned := Stmt.Acts.assignTo acts (writing.assign size)
  have same : (fun next => (⟨(frames size).routine, (frames next).scopes⟩ : Frame)) = frames := by
    funext next
    rw [writing.routine size next]
  rwa [same] at assigned

/-- The statements that write one part into its head. -/
theorem writePart_gives (composite : type.shape.IsComposite members) (index : Nat) (part : Shape)
    {encodeMember : Emission Handling} {value : Expr}
    (handled : Emission.Gives promise pending encodeMember fun unit handling =>
      handling.Encodes unit cap part) :
    Emission.Gives promise pending (writePart settings type index part encodeMember value)
      fun unit stmts => ∀ (frames : Word → Frame) (target : Word) (effect : MachineStep Word),
        WritingFrames frames target → (∀ size, Expr.Acts unit (frames size) value effect) →
        WritesOn unit frames stmts (encodePart part.isDynamicallyEncoded (encodeAt cap part) effect
          (target + Word.ofNat (Shape.headBytesSum (members.take index))) target) := by
  refine (callOffset_gives composite index).andThen fun callOffset => ?_
  refine handled.andThen fun handling => ?_
  have located : ∀ (unit : CodeUnit) (frames : Word → Frame) (target : Word), WritingFrames frames target →
      callOffset.IsNumber unit (Word.ofNat (Shape.headBytesSum (members.take index))) →
      ∀ size, Expr.Acts unit (frames size) (.add (.ident "dst") callOffset)
        (pure (target + Word.ofNat (Shape.headBytesSum (members.take index)))) :=
    fun unit frames target writing called size => Expr.Acts.sum (.ident (writing.dst size)) (called _)
  cases handling with
  | inline =>
    refine .pure fun unit encodes called frames target effect writing acts size rest others after continued => ?_
    have valueType : part.isValueType = true := encodes
    have stored := Block.Runs.cons (Stmt.Acts.mstoreAt (located unit frames target writing called size) (acts size))
      fun _ => continued size
    simp only [encodePart, Shape.isDynamicallyEncoded_of_isValueType valueType, Bool.false_eq_true, if_false,
      encodeAt_word valueType, bind_assoc, pure_bind] at stored ⊢
    exact stored
  | routine encoder =>
    dsimp only
    by_cases dynamic : part.isDynamicallyEncoded
    · simp only [dynamic, if_true]
      refine .pure fun unit encodes called frames target effect writing acts size rest others after continued => ?_
      have head := located unit frames target writing called size
      have reached : Expr.Acts unit (frames size) (.ident "size") (pure size) := .ident (writing.size size)
      have behind : Expr.Acts unit (frames size) (.add (.ident "dst") (.ident "size")) (pure (target + size)) :=
        Expr.Acts.sum (.ident (writing.dst size)) reached
      have written := Expr.Acts.add reached (encoderCall_acts encodes (acts size) behind)
      simp only [encodePart, if_true, bind_assoc]
      refine Block.Runs.cons (Stmt.Acts.store head reached) fun _ => ?_
      have grown := Block.Runs.cons (writing.assignSize written) fun next => continued next
      simp only [bind_assoc, pure_bind] at grown
      exact grown
    · simp only [dynamic]
      refine .pure fun unit encodes called frames target effect writing acts size rest others after continued => ?_
      have head := located unit frames target writing called size
      have dropped := Block.Runs.cons (Stmt.Acts.drop (encoderCall_acts encodes (acts size) head))
        fun _ => continued size
      simp only [encodePart, Bool.false_eq_true, if_false, bind_assoc, pure_bind] at dropped ⊢
      exact dropped

/-- The references among members, the first of which stand behind others. -/
theorem writeReferences_gives (composite : type.shape.IsComposite members)
    (parts : List (Shape × Emission Handling)) (before : List Shape)
    (all : members = before ++ parts.map Prod.fst)
    (handled : ∀ part ∈ parts, Emission.Gives promise pending part.2 fun unit handling =>
      handling.Encodes unit cap part.1) :
    Emission.Gives promise pending (writeReferences settings type before.length parts)
      fun unit stmts => ∀ name pointer target,
        WritesOn unit (fun size => encodedFrame name size pointer target) stmts fun size =>
          encodeParts cap pointer target before.length (Shape.headBytesSum before) size
            (parts.map Prod.fst) := by
  induction parts generalizing before with
  | nil => exact .pure fun unit name pointer target => WritesOn.nil
  | cons part rest ih =>
    obtain ⟨member, encodeMember⟩ := part
    have offset : Shape.headBytesSum (members.take before.length) = Shape.headBytesSum before := by
      rw [all, List.take_left']
      rfl
    have next := ih (before ++ [member]) (by simpa using all)
      fun part listed => handled part (List.mem_cons_of_mem _ listed)
    simp only [List.length_append, List.length_singleton, Shape.headBytesSum_append] at next
    unfold writeReferences
    split
    · rename_i reference
      refine (memoryOffset_gives composite before.length).andThen fun memoryOffset => ?_
      refine (writePart_gives composite before.length member
        (handled (member, encodeMember) List.mem_cons_self)).andThen fun stmts => ?_
      refine next.andThen fun others => .pure ?_
      intro unit does writes placed name pointer target
      have loaded : ∀ size, Expr.Acts unit (encodedFrame name size pointer target)
          (.mload (.add (.ident "mPtr") memoryOffset))
          (Machine.mload (pointer + Word.ofNat (before.length * wordBytes))) :=
        fun size => Expr.Acts.mloadAt (Expr.Acts.sum value_acts (placed _))
      have both := (writes _ target _ (writingFrames_encodedFrame name pointer target) loaded).append
        (does name pointer target)
      rw [offset] at both
      simpa only [List.map_cons, encodeParts, reference, if_true, Shape.headBytesSum, Nat.add_zero] using both
    · rename_i plain
      refine next.weaken fun unit stmts does name pointer target => ?_
      simpa only [List.map_cons, encodeParts, plain, Bool.false_eq_true, if_false, pure_bind,
        Shape.headBytesSum, Nat.add_zero] using does name pointer target

/-- The encoder of a struct or tuple. -/
theorem structEncoder_gives (composite : type.shape.IsComposite members)
    {encodeMembers : List (Emission Handling)} (name : String)
    (all : members = (type.shape.members.zip encodeMembers).map Prod.fst)
    (handled : ∀ part ∈ type.shape.members.zip encodeMembers,
      Emission.Gives promise pending part.2 fun unit handling => handling.Encodes unit cap part.1) :
    Emission.Gives promise pending (structEncoder settings type encodeMembers name)
      (ServesEncoding name (encodeComposite (segmentsOf settings.bridgedReferences type.shape) members
        fun pointer target size => encodeParts cap pointer target 0 0 size members)) := by
  refine (Offsets.callHead_gives _ type.shape).andThen fun headSize => ?_
  refine (Emission.Gives.lift (type.shape.segmentation settings.bridgedReferences)).andThen
    fun segmentation => ?_
  refine (writeSegments_gives composite segmentation.segments).andThen fun segments => ?_
  refine (writeReferences_gives composite _ [] (by simpa using all) handled).andThen
    fun references => .pure ?_
  intro unit encodes copies split measured
  obtain ⟨size, measured, isSize⟩ := measured
  rw [Shape.headRegion_composite composite measured] at isSize
  refine ServesEncoding.of_runs (by decide) fun pointer target => ?_
  refine Block.Runs.consValue (Stmt.Acts.assignTo (isSize _) fun next => assignIn_size rfl next) ?_
  have ends : ∀ reached, Block.Runs unit (encodedFrame name reached pointer target) [] (pure reached)
      fun size => ⟨name, [[("size", size), ("dst", target), ("mPtr", pointer)]]⟩ :=
    fun reached => Block.Runs.nil reached rfl
  have encoded := encodes name pointer target (Word.ofNat (Shape.headBytesSum members)) _ _ _ ends
  rw [List.append_nil, bind_pure, ← all] at encoded
  have same : segmentsOf settings.bridgedReferences type.shape = .ok segmentation.segments := by
    rw [segmentsOf, split]
  rw [same]
  exact copies name _ pointer target _ _ _ _ encoded

end

/-! ### Requests -/

section

variable {promise : Promise} {pending : List RequestKey} {settings : Settings}

/-- Whether a promise about an encoder is that it does what `encodeAt` says. -/
def PromisesEncoding (promise : Promise) (cap : Nat) : Prop :=
  ∀ unit shape name, promise unit (.encode, shape) name ↔
    Handling.Encodes unit cap shape (.routine name)

/-- The answer to a request for an encoder. -/
theorem handlingOf_gives_encoder {cap : Nat} (promised : PromisesEncoding promise cap) {shape : Shape}
    (task : Task) {generate : String → Emission Yul.Routine} (above : PendingAbove pending shape)
    (generated : ∀ name, Emission.Gives promise ((.encode, shape) :: pending) (generate name)
      (ServesEncoding name (encodeAt cap shape))) :
    Emission.Gives promise pending (handlingOf .encode task shape generate) fun unit handling =>
      handling.Encodes unit cap shape := by
  unfold handlingOf
  split
  · exact .pure fun unit => by assumption
  · split
    · have served := Emission.Gives.routineFor (above.settled .encode) fun name =>
        (generated name).weaken fun unit routine given =>
          ⟨given.1, fun found => (promised unit shape name).mpr (given.2 found)⟩
      exact served.andThen fun name => .pure fun unit given => (promised unit shape name).mp given
    · exact .throw _

/-- There is one request for each part. -/
theorem map_fst_zip_encodeEach (members : List (Labelled SolType)) :
    ((SolType.shapes members).zip (encodeEach settings members)).map Prod.fst = SolType.shapes members := by
  induction members with
  | nil => rfl
  | cons part rest ih => simp [SolType.shapes, encodeEach, ih]

mutual
/-- Every request for an encoder that succeeds answers with what encodes the type. -/
theorem encode_gives (promised : PromisesEncoding promise settings.bridgedReferences)
    (type : SolType) (pending : List RequestKey) (above : PendingAbove pending type.shape) :
    Emission.Gives promise pending (encode settings type) fun unit handling =>
      handling.Encodes unit settings.bridgedReferences type.shape := by
  cases type with
  | bytes => exact handlingOf_gives_encoder promised _ above fun name => bytesEncoder_gives name
  | string => exact handlingOf_gives_encoder promised _ above fun name => bytesEncoder_gives name
  | array base length =>
    refine handlingOf_gives_encoder promised _ above fun name => ?_
    refine arrayEncoder_gives base.shape length name ?_
    refine encode_gives promised base _ (above.part ?_ .encode)
    simp [SolType.shape]
    omega
  | struct name members =>
    refine handlingOf_gives_encoder promised _ above fun routineName => ?_
    have same : encodeAt settings.bridgedReferences (SolType.struct name members).shape =
        encodeComposite (segmentsOf settings.bridgedReferences (SolType.struct name members).shape)
          (SolType.shapes members) fun pointer target size =>
            encodeParts settings.bridgedReferences pointer target 0 0 size (SolType.shapes members) := rfl
    rw [same]
    refine structEncoder_gives (.inl ⟨name, rfl⟩) routineName
      (map_fst_zip_encodeEach members).symm ?_
    exact encodeEach_gives promised members _ fun shape listed =>
      above.part (sizeOf_lt_struct listed name) .encode
  | tuple members =>
    refine handlingOf_gives_encoder promised _ above fun routineName => ?_
    have same : encodeAt settings.bridgedReferences (SolType.tuple members).shape =
        encodeComposite (segmentsOf settings.bridgedReferences (SolType.tuple members).shape)
          (SolType.shapes members) fun pointer target size =>
            encodeParts settings.bridgedReferences pointer target 0 0 size (SolType.shapes members) := rfl
    rw [same]
    refine structEncoder_gives (.inr rfl) routineName
      (map_fst_zip_encodeEach members).symm ?_
    exact encodeEach_gives promised members _ fun shape listed =>
      above.part (sizeOf_lt_tuple listed) .encode
  | _ => exact handlingOf_gives_encoder promised _ above fun name => .throw _
/-- The same for several parts. -/
theorem encodeEach_gives (promised : PromisesEncoding promise settings.bridgedReferences)
    (members : List (Labelled SolType)) (pending : List RequestKey)
    (above : ∀ shape ∈ SolType.shapes members, PendingAbove pending shape) :
    ∀ part ∈ (SolType.shapes members).zip (encodeEach settings members),
      Emission.Gives promise pending part.2 fun unit handling =>
        handling.Encodes unit settings.bridgedReferences part.1 := by
  cases members with
  | nil =>
    intro part listed
    cases listed
  | cons first rest =>
    intro part listed
    rcases List.mem_cons.mp listed with same | listed
    · subst same
      exact encode_gives promised first.type pending (above _ List.mem_cons_self)
    · exact encodeEach_gives promised rest pending
        (fun shape listed => above shape (List.mem_cons_of_mem _ listed)) part listed
end

end

end YulAbi.Codec
