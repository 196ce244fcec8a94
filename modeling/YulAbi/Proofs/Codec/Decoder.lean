import YulAbi.Proofs.Codec.Decoder.Tails
import YulAbi.Proofs.Emission

/-!
# Decoders that are requested

Every request for a decoder that succeeds answers with a handling that does what `decodeAt`
says. The proof follows the type; the request of a type is never pending while its parts are
generated for a type that it contains, because shapes get smaller.

The decoder of a struct or tuple copies segments first and decodes the references then. None
of its statements changes a variable, so each of them is known by what it does on the machine.
-/

namespace YulAbi.Codec

open Yul (Expr Stmt Block Routine Frame Scope)

section

variable {promise : Promise} {pending : List RequestKey} {settings : Settings} {unit : CodeUnit}
  {type : SolType} {members : List Shape} {name : String} {target source : Word} {cap : Nat}

/-- The variables of a decoder of a struct or tuple. -/
def compositeFrame (name : String) (target source : Word) : Frame :=
  decoderFrame name "cdPtr" "mPtr" [] target source

/-- The result of a decoder of a struct or tuple. -/
theorem mPtr_acts : Expr.Acts unit (compositeFrame name target source) (.ident "mPtr") (pure target) :=
  .ident rfl

/-- The parameter of a decoder of a struct or tuple. -/
theorem cdPtr_acts : Expr.Acts unit (compositeFrame name target source) (.ident "cdPtr") (pure source) :=
  .ident rfl

/-- The copy of one segment. -/
theorem decodeSegment_acts {segment : Segment} {callOffset memoryOffset : Expr}
    (called : callOffset.IsNumber unit (Word.ofNat (Shape.headBytesSum (members.take segment.start))))
    (placed : memoryOffset.IsNumber unit (Word.ofNat (segment.start * wordBytes))) :
    (segment.length = 1 → Stmt.Acts unit (compositeFrame name target source)
      (.mstore (.add (.ident "mPtr") memoryOffset) (.calldataload (.add (.ident "cdPtr") callOffset)))
      (decodeSegment members target source segment) fun _ => compositeFrame name target source) ∧
    (segment.length ≠ 1 → ∀ size, size.IsNumber unit (Word.ofNat segment.byteLength) →
      Stmt.Acts unit (compositeFrame name target source)
        (.calldatacopy (.add (.ident "mPtr") memoryOffset) (.add (.ident "cdPtr") callOffset) size)
        (decodeSegment members target source segment) fun _ => compositeFrame name target source) := by
  have toward : Expr.Acts unit (compositeFrame name target source) (.add (.ident "mPtr") memoryOffset)
      (pure (target + Word.ofNat (segment.start * wordBytes))) := Expr.Acts.sum mPtr_acts (placed _)
  have origin : Expr.Acts unit (compositeFrame name target source) (.add (.ident "cdPtr") callOffset)
      (pure (source + Word.ofNat (Shape.headBytesSum (members.take segment.start)))) :=
    Expr.Acts.sum cdPtr_acts (called _)
  constructor
  · intro single
    unfold decodeSegment
    rw [if_pos single]
    exact Stmt.Acts.mstoreAt toward (Expr.Acts.calldataloadAt origin)
  · intro several size measured
    unfold decodeSegment
    rw [if_neg several]
    exact Stmt.Acts.calldatacopy toward origin (measured _)

/-- The copies of segments. -/
theorem copySegments_gives (composite : type.shape.IsComposite members) (segments : List Segment) :
    Emission.Gives promise pending (copySegments settings type segments) fun unit stmts =>
      ∀ name target source, Block.Does unit (compositeFrame name target source) stmts
        (decodeSegments members target source segments) := by
  induction segments with
  | nil => exact .pure fun unit name target source => Block.Does.nil
  | cons segment rest ih =>
    refine (callOffset_gives composite segment.start).andThen fun callOffset => ?_
    refine (memoryOffset_gives composite segment.start).andThen fun memoryOffset => ?_
    dsimp only
    split
    · rename_i single
      refine ih.andThen fun others => .pure ?_
      intro unit does placed called name target source
      exact Block.Does.cons ((decodeSegment_acts called placed).1 single) (does name target source)
    · rename_i several
      refine (Offsets.words_gives _ segment.byteLength).andThen fun size => ?_
      refine ih.andThen fun others => .pure ?_
      intro unit does measured placed called name target source
      exact Block.Does.cons ((decodeSegment_acts called placed).2 several size measured)
        (does name target source)

/-- The address of the encoding of a member. -/
theorem partSource_gives (composite : type.shape.IsComposite members) (index : Nat) (part : Shape)
    (head : Expr) :
    Emission.Gives promise pending (partSource settings type index part head) fun unit address =>
      ∀ frame source, Expr.Acts unit frame head (pure source) → Expr.Acts unit frame address
        (partAt part.isDynamicallyEncoded source
          (source + Word.ofNat (Shape.headBytesSum (members.take index)))) := by
  refine (callOffset_gives composite index).andThen fun offset => .pure ?_
  intro unit called frame source acts
  have slot := Expr.Acts.sum acts (called frame)
  by_cases dynamic : part.isDynamicallyEncoded
  · have behind := Expr.Acts.add acts (Expr.Acts.calldataloadAt slot)
    simpa [partAt, dynamic] using behind
  · simpa [partAt, dynamic] using slot

/-- The references among members, the first of which stand behind others. -/
theorem decodeReferences_gives (composite : type.shape.IsComposite members)
    (parts : List (Shape × Emission Handling)) (before : List Shape)
    (all : members = before ++ parts.map Prod.fst)
    (handled : ∀ part ∈ parts, Emission.Gives promise pending part.2 fun unit handling =>
      handling.Decodes unit cap part.1) :
    Emission.Gives promise pending (decodeReferences settings type before.length parts)
      fun unit stmts => ∀ name target source, Block.Does unit (compositeFrame name target source) stmts
        (decodeParts cap target source before.length (Shape.headBytesSum before) (parts.map Prod.fst)) := by
  induction parts generalizing before with
  | nil => exact .pure fun unit name target source => Block.Does.nil
  | cons part rest ih =>
    obtain ⟨member, decodeMember⟩ := part
    have offset : Shape.headBytesSum (members.take before.length) = Shape.headBytesSum before := by
      rw [all, List.take_left']
      rfl
    have next := ih (before ++ [member]) (by simpa using all)
      fun part listed => handled part (List.mem_cons_of_mem _ listed)
    simp only [List.length_append, List.length_singleton, Shape.headBytesSum_append] at next
    unfold decodeReferences
    split
    · rename_i reference
      refine (partSource_gives composite before.length member _).andThen fun address => ?_
      refine (handled (member, decodeMember) List.mem_cons_self).andThen fun handling => ?_
      refine (memoryOffset_gives composite before.length).andThen fun memoryOffset => ?_
      refine next.andThen fun others => .pure ?_
      intro unit does placed decodes located name target source
      have slot : Expr.Acts unit (compositeFrame name target source) (.add (.ident "mPtr") memoryOffset)
          (pure (target + Word.ofNat (before.length * wordBytes))) :=
        Expr.Acts.sum mPtr_acts (placed _)
      have word := decodedWord_acts decodes (located (compositeFrame name target source) source cdPtr_acts)
      have both := Block.Does.cons (Stmt.Acts.mstoreAt slot word) (does name target source)
      rw [offset] at both
      simpa only [List.map_cons, decodeParts, reference, if_true, bind_assoc,
        Shape.headBytesSum, Nat.add_zero] using both
    · rename_i plain
      refine next.weaken fun unit stmts does name target source => ?_
      simpa only [List.map_cons, decodeParts, plain, Bool.false_eq_true, if_false, pure_bind,
        Shape.headBytesSum, Nat.add_zero] using does name target source

/-- The decoder of a struct or tuple. -/
theorem structDecoder_gives (composite : type.shape.IsComposite members)
    {decodeMembers : List (Emission Handling)} (name : String)
    (all : members = (type.shape.members.zip decodeMembers).map Prod.fst)
    (handled : ∀ part ∈ type.shape.members.zip decodeMembers,
      Emission.Gives promise pending part.2 fun unit handling => handling.Decodes unit cap part.1) :
    Emission.Gives promise pending (structDecoder settings type decodeMembers name)
      (ServesDecoding name (decodeComposite (segmentsOf settings.bridgedReferences type.shape) members
        fun source target => decodeParts cap target source 0 0 members)) := by
  refine (Offsets.fixed_gives _ .freePointerSlot).andThen fun freePointer => ?_
  refine (Offsets.memoryHead_gives _ type.shape).andThen fun headSize => ?_
  refine (Emission.Gives.lift (type.shape.segmentation settings.bridgedReferences)).andThen
    fun segmentation => ?_
  refine (copySegments_gives composite segmentation.segments).andThen fun segments => ?_
  refine (decodeReferences_gives composite _ [] (by simpa using all) handled).andThen
    fun references => .pure ?_
  intro unit decodes copies split measured pointed
  obtain ⟨size, measured, isSize⟩ := measured
  rw [Shape.memorySize_composite composite] at measured
  cases measured
  have same : segmentsOf settings.bridgedReferences type.shape = .ok segmentation.segments := by
    rw [segmentsOf, split]
  rw [same]
  refine ServesDecoding.of_runs (by decide) fun source => ?_
  rw [decodeComposite_ok]
  refine Block.Runs.cons (Stmt.Acts.assignTo (Expr.Acts.mloadAt (pointed _)) fun target => rfl)
    fun target => ?_
  refine Block.Runs.cons (Stmt.Acts.store (pointed _)
    (Expr.Acts.sum mPtr_acts (isSize _))) fun _ => ?_
  have ends : Block.Runs unit (compositeFrame name target source) [] (pure target)
      fun target => ⟨name, [[("mPtr", target), ("cdPtr", source)]]⟩ := Block.Runs.nil target rfl
  have decoded := decodes name target source _ _ _ _ ends
  rw [List.append_nil, ← all] at decoded
  exact copies name target source _ _ _ _ decoded

end

/-! ### Requests -/

section

variable {promise : Promise} {pending : List RequestKey} {settings : Settings}

/-- Whether a promise about a decoder is that it does what `decodeAt` says. -/
def PromisesDecoding (promise : Promise) (cap : Nat) : Prop :=
  ∀ unit shape name, promise unit (.decode, shape) name ↔
    Handling.Decodes unit cap shape (.routine name)

/-- The answer to a request for a decoder. -/
theorem handlingOf_gives_decoder {cap : Nat} (promised : PromisesDecoding promise cap) {shape : Shape}
    (task : Task) {generate : String → Emission Yul.Routine} (above : PendingAbove pending shape)
    (generated : ∀ name, Emission.Gives promise ((.decode, shape) :: pending) (generate name)
      (ServesDecoding name (decodeAt cap shape))) :
    Emission.Gives promise pending (handlingOf .decode task shape generate) fun unit handling =>
      handling.Decodes unit cap shape := by
  unfold handlingOf
  split
  · exact .pure fun unit => by assumption
  · split
    · have served := Emission.Gives.routineFor (above.settled .decode) fun name =>
        (generated name).weaken fun unit routine given =>
          ⟨given.1, fun found => (promised unit shape name).mpr (given.2 found)⟩
      exact served.andThen fun name => .pure fun unit given => (promised unit shape name).mp given
    · exact .throw _

/-- There is one request for each part. -/
theorem map_fst_zip_decodeEach (members : List (Labelled SolType)) :
    ((SolType.shapes members).zip (decodeEach settings members)).map Prod.fst = SolType.shapes members := by
  induction members with
  | nil => rfl
  | cons part rest ih => simp [SolType.shapes, decodeEach, ih]

mutual
/-- Every request for a decoder that succeeds answers with what decodes the type. -/
theorem decode_gives (promised : PromisesDecoding promise settings.bridgedReferences)
    (type : SolType) (pending : List RequestKey) (above : PendingAbove pending type.shape) :
    Emission.Gives promise pending (decode settings type) fun unit handling =>
      handling.Decodes unit settings.bridgedReferences type.shape := by
  cases type with
  | bytes => exact handlingOf_gives_decoder promised _ above fun name => bytesDecoder_gives name
  | string => exact handlingOf_gives_decoder promised _ above fun name => bytesDecoder_gives name
  | array base length =>
    refine handlingOf_gives_decoder promised _ above fun name => ?_
    refine arrayDecoder_gives base.shape length name ?_
    refine decode_gives promised base _ (above.part ?_ .decode)
    simp [SolType.shape]
    omega
  | struct name members =>
    refine handlingOf_gives_decoder promised _ above fun routineName => ?_
    have same : decodeAt settings.bridgedReferences (SolType.struct name members).shape =
        decodeComposite (segmentsOf settings.bridgedReferences (SolType.struct name members).shape)
          (SolType.shapes members) fun source target =>
            decodeParts settings.bridgedReferences target source 0 0 (SolType.shapes members) := rfl
    rw [same]
    refine structDecoder_gives (.inl ⟨name, rfl⟩) routineName
      (map_fst_zip_decodeEach members).symm ?_
    exact decodeEach_gives promised members _ fun shape listed =>
      above.part (sizeOf_lt_struct listed name) .decode
  | tuple members =>
    refine handlingOf_gives_decoder promised _ above fun routineName => ?_
    have same : decodeAt settings.bridgedReferences (SolType.tuple members).shape =
        decodeComposite (segmentsOf settings.bridgedReferences (SolType.tuple members).shape)
          (SolType.shapes members) fun source target =>
            decodeParts settings.bridgedReferences target source 0 0 (SolType.shapes members) := rfl
    rw [same]
    refine structDecoder_gives (.inr rfl) routineName
      (map_fst_zip_decodeEach members).symm ?_
    exact decodeEach_gives promised members _ fun shape listed =>
      above.part (sizeOf_lt_tuple listed) .decode
  | _ => exact handlingOf_gives_decoder promised _ above fun name => .throw _
/-- The same for several parts. -/
theorem decodeEach_gives (promised : PromisesDecoding promise settings.bridgedReferences)
    (members : List (Labelled SolType)) (pending : List RequestKey)
    (above : ∀ shape ∈ SolType.shapes members, PendingAbove pending shape) :
    ∀ part ∈ (SolType.shapes members).zip (decodeEach settings members),
      Emission.Gives promise pending part.2 fun unit handling =>
        handling.Decodes unit settings.bridgedReferences part.1 := by
  cases members with
  | nil =>
    intro part listed
    cases listed
  | cons first rest =>
    intro part listed
    rcases List.mem_cons.mp listed with same | listed
    · subst same
      exact decode_gives promised first.type pending (above _ List.mem_cons_self)
    · exact decodeEach_gives promised rest pending
        (fun shape listed => above shape (List.mem_cons_of_mem _ listed)) part listed
end

end

end YulAbi.Codec
