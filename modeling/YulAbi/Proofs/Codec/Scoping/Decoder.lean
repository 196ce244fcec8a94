import YulAbi.Codec.Decoder
import YulAbi.Proofs.Codec.Scoping.Request
import YulAbi.Proofs.Emission

/-!
# Scoping of decoders

Every decoder that the generator writes finds all that it needs: what a frame opens is
visible behind the opening, the counter of a loop is visible in its body, and the routines
that are called for elements and members are those that their requests were answered with.
-/

namespace YulAbi.Codec

open Yul (Expr Stmt Block Routine)

section

variable {foreign : Routine → Prop} {promise : Promise} {pending : List RequestKey} {settings : Settings}
  {unit : CodeUnit} {visible : List String} {shape : Shape}

/-- A routine with one parameter and one result fits a decoder's request if its body is scoped. -/
theorem Fits.of_decoder {name param result : String} {body : Block}
    (inner : Block.Scoped unit [result, param] body) :
    Fits (.decode, shape) name unit (.ofBody name [param] [result] body) :=
  ⟨rfl, (Routine.scoped_ofBody _ _ _ _).mpr inner, rfl, rfl⟩

/-- A revert on a condition needs what the condition needs. -/
@[simp]
theorem scoped_revertIf (condition : Expr) :
    (revertIf condition).Scoped unit visible ↔ condition.Scoped unit visible 1 := by
  simp [revertIf]

/-- The decoder of bytes and text. -/
theorem bytesDecoder_delivers (name : String) :
    Emission.Delivers foreign promise pending (bytesDecoder settings name)
      (fun routine => routine.name = name) (Fits (.decode, shape) name) := by
  refine (Offsets.fixed_delivers _ .freePointerSlot).andThen fun freePointer => ?_
  refine (paddedBytesSize_delivers _).andThen fun size => .pure rfl fun unit measured pointed => ?_
  exact .of_decoder (by simp [measured, pointed _])

/-- The decoder of arrays of words. -/
theorem wordArrayDecoder_delivers (freePointer : Expr) (length : Option Nat) (name : String) :
    Emission.Delivers foreign promise pending (wordArrayDecoder settings freePointer length name)
      (fun routine => routine.name = name) fun unit routine => freePointer.Closed unit →
        Fits (.decode, shape) name unit routine := by
  unfold wordArrayDecoder
  cases length with
  | none =>
    refine .pure rfl fun unit pointed => ?_
    exact .of_decoder (by simp [pointed _])
  | some count =>
    refine (Offsets.words_delivers _ _).andThen fun size => .pure rfl fun unit measured pointed => ?_
    exact .of_decoder (by simp [measured _, pointed _])

/-! ### Arrays with a frame -/

/-- Whether a frame is one of those that arrays are decoded with; its sizes need nothing but their
constants. -/
inductive ArrayFrame.Made (unit : CodeUnit) (freePointer : Expr) : ArrayFrame → Prop where
  /-- The frame of arrays whose length varies. -/
  | varying {oneWord : Expr} (one : oneWord.Closed unit) :
    Made unit freePointer ⟨"cdPtrLength", "mPtrLength", .ident "length", .ident "cdPtrHead", .ident "mPtrHead",
      .shl (.number 5) (.ident "length"), true,
      [.assignTo "mPtrLength" (.mload freePointer),
       .declareAs "length" (.calldataload (.ident "cdPtrLength")),
       .declareAs "cdPtrHead" (.add (.ident "cdPtrLength") oneWord)]⟩
  /-- The frame of arrays with a fixed length. -/
  | fixed (count : Nat) {headSize : Expr} (measured : headSize.Closed unit) :
    Made unit freePointer ⟨"cdPtr", "mPtr", .number count, .ident "cdPtr", .ident "mPtr", headSize, false,
      [.assignTo "mPtr" (.mload freePointer)]⟩

/-- The frame that is made for arrays of a length. -/
theorem decodeFrame_delivers (freePointer : Expr) (length : Option Nat) :
    Emission.Delivers foreign promise pending (decodeFrame settings freePointer length) (fun _ => True)
      fun unit frame => frame.Made unit freePointer := by
  unfold decodeFrame
  cases length with
  | none => exact (Offsets.words_delivers _ _).andThen fun oneWord => .pure trivial fun unit one => .varying one
  | some count =>
    exact (Offsets.words_delivers _ _).andThen fun headSize => .pure trivial fun unit measured =>
      .fixed count measured

/-- Whether a block stores the length word of a frame that has one. -/
def ArrayFrame.LengthStored (unit : CodeUnit) (frame : ArrayFrame) (block : Block) : Prop :=
  if frame.dynamic then ∃ oneWord, Expr.Closed unit oneWord ∧
    block = [.mstore (.ident "mPtrLength") (.ident "length"),
      .declareAs "mPtrHead" (.add (.ident "mPtrLength") oneWord)]
  else block = []

/-- The length word is stored where there is one. -/
theorem storeLength_delivers (frame : ArrayFrame) :
    Emission.Delivers foreign promise pending (storeLength settings frame) (fun _ => True)
      fun unit block => frame.LengthStored unit block := by
  unfold storeLength ArrayFrame.LengthStored
  split
  · exact (Offsets.words_delivers _ _).andThen fun oneWord => .pure trivial fun unit one => ⟨oneWord, one, rfl⟩
  · exact .pure trivial fun _ => rfl

/-- The decoder of arrays of static elements. -/
theorem staticTailDecoder_delivers (freePointer : Expr) (frame : ArrayFrame) (base : Shape) (name : String) :
    Emission.Delivers foreign promise pending (staticTailDecoder settings freePointer frame base name)
      (fun routine => routine.name = name) fun unit routine => frame.Made unit freePointer →
        freePointer.Closed unit → Fits (.decode, shape) name unit routine := by
  refine (Emission.Delivers.lift (Shape.encodedSize_measures base)).andThen fun size => ?_
  refine (Offsets.words_delivers _ _).andThen fun element => ?_
  refine (storeLength_delivers frame).andThen fun lengthPart => .pure rfl ?_
  intro unit stores sized _ made pointed
  refine .of_decoder ?_
  cases made with
  | varying one =>
    obtain ⟨oneWord, one', rfl⟩ := stores
    simp [pointed _, one _, one' _, sized _]
  | fixed count measured =>
    cases stores
    simp [pointed _, measured _, sized _]

/-- The decoder of arrays of one dynamic level. -/
theorem dynamicTailDecoder_delivers (freePointer : Expr) (frame : ArrayFrame) (base : Shape) (name : String) :
    Emission.Delivers foreign promise pending (dynamicTailDecoder settings freePointer frame base name)
      (fun routine => routine.name = name) fun unit routine => frame.Made unit freePointer →
        freePointer.Closed unit → Fits (.decode, shape) name unit routine := by
  refine (Offsets.fixed_delivers _ .maxLength).andThen fun maxLength => ?_
  refine (elementTailSize_delivers base _).andThen fun elementSize => ?_
  dsimp only
  by_cases dynamic : frame.dynamic
  · simp only [dynamic, if_true]
    refine (Offsets.words_delivers _ _).andThen fun oneWord => .pure rfl ?_
    intro unit one sized bounded made pointed
    have size : ∀ visible, "elemLength" ∈ visible → elementSize.Scoped unit visible 1 :=
      fun visible declared => sized visible ⟨declared, rfl⟩
    refine .of_decoder ?_
    cases made with
    | varying one' => simp [pointed _, one _, one' _, bounded _, size]
    | fixed count measured => cases dynamic
  · simp only [dynamic]
    refine .pure rfl fun unit sized bounded made pointed => .of_decoder ?_
    have size : ∀ visible, "elemLength" ∈ visible → elementSize.Scoped unit visible 1 :=
      fun visible declared => sized visible ⟨declared, rfl⟩
    cases made with
    | varying one => exact absurd rfl dynamic
    | fixed count measured => simp [pointed _, measured _, bounded _, size]

/-- A decoded word needs what the address of its encoding needs. -/
theorem scoped_decodedWord {handling : Handling} (callable : handling.Callable unit 1) {source : Expr}
    (inner : source.Scoped unit visible 1) : (decodedWord handling source).Scoped unit visible 1 := by
  cases handling with
  | inline => exact (Expr.scoped_calldataload source).mpr inner
  | routine name => exact scoped_call callable ⟨inner, trivial⟩

/-- The body of the decoder of arrays whose elements are decoded one by one. -/
theorem separateTail_scoped {freePointer source : Expr} {frame : ArrayFrame} {lengthPart : Block}
    {handling : Handling} (made : frame.Made unit freePointer) (stores : frame.LengthStored unit lengthPart)
    (pointed : freePointer.Closed unit) (callable : handling.Callable unit 1)
    (located : ∀ visible, frame.callHead.Scoped unit visible 1 → "i" ∈ visible → source.Scoped unit visible 1) :
    Block.Scoped unit [frame.result, frame.param] (frame.opening ++ (lengthPart ++
      [.mstore freePointer (.add frame.memoryHead frame.headSize),
       .count "i" frame.length
         [.declareAs "cdPtrElem" source,
          .mstore (headSlot frame.memoryHead) (decodedWord handling (.ident "cdPtrElem"))]])) := by
  have word : ∀ visible, "cdPtrElem" ∈ visible →
      (decodedWord handling (.ident "cdPtrElem")).Scoped unit visible 1 :=
    fun visible declared => scoped_decodedWord callable ⟨declared, rfl⟩
  cases made with
  | varying one =>
    obtain ⟨oneWord, one', rfl⟩ := stores
    have address : ∀ visible, "cdPtrHead" ∈ visible → "i" ∈ visible → source.Scoped unit visible 1 :=
      fun visible declared => located visible ⟨declared, rfl⟩
    simp [pointed _, one _, one' _, address, word]
  | fixed count measured =>
    cases stores
    have address : ∀ visible, "cdPtr" ∈ visible → "i" ∈ visible → source.Scoped unit visible 1 :=
      fun visible declared => located visible ⟨declared, rfl⟩
    simp [pointed _, measured _, address, word]

/-- The decoder of arrays whose elements are decoded one by one. -/
theorem separateTailDecoder_delivers (freePointer : Expr) (frame : ArrayFrame) (base : Shape)
    {decodeElement : Emission Handling} (name : String)
    (part : Emission.Delivers foreign promise pending decodeElement (fun _ => True) fun unit handling =>
      handling.Callable unit 1) :
    Emission.Delivers foreign promise pending
      (separateTailDecoder settings freePointer frame base decodeElement name)
      (fun routine => routine.name = name) fun unit routine => frame.Made unit freePointer →
        freePointer.Closed unit → Fits (.decode, shape) name unit routine := by
  refine (storeLength_delivers frame).andThen fun lengthPart => ?_
  by_cases dynamic : base.isDynamicallyEncoded
  · simp only [dynamic, if_true]
    refine part.andThen fun handling => .pure rfl fun unit callable stores made pointed => .of_decoder ?_
    exact separateTail_scoped made stores pointed callable fun visible inner counted => by simp [inner, counted]
  · simp only [dynamic]
    refine (Emission.Delivers.lift (Shape.headSize_measures base)).andThen fun size => ?_
    refine (Offsets.words_delivers _ _).andThen fun stride => ?_
    refine part.andThen fun handling => .pure rfl ?_
    intro unit callable measured _ stores made pointed
    refine .of_decoder (separateTail_scoped made stores pointed callable fun visible inner counted => ?_)
    simp [inner, counted, measured _]

/-- The decoder of an array. -/
theorem arrayDecoder_delivers (base : Shape) (length : Option Nat) {decodeElement : Emission Handling}
    (name : String)
    (part : Emission.Delivers foreign promise pending decodeElement (fun _ => True) fun unit handling =>
      handling.Callable unit 1) :
    Emission.Delivers foreign promise pending (arrayDecoder settings base length decodeElement name)
      (fun routine => routine.name = name) (Fits (.decode, shape) name) := by
  refine (Offsets.fixed_delivers _ .freePointerSlot).andThen fun freePointer => ?_
  split
  · exact wordArrayDecoder_delivers freePointer length name
  · exact (decodeFrame_delivers freePointer length).andThen fun frame =>
      staticTailDecoder_delivers freePointer frame base name
  · exact (decodeFrame_delivers freePointer length).andThen fun frame =>
      dynamicTailDecoder_delivers freePointer frame base name
  · exact (decodeFrame_delivers freePointer length).andThen fun frame =>
      separateTailDecoder_delivers freePointer frame base name part

/-! ### Structs -/

/-- The address of the encoding of a part needs what the address of the heads needs. -/
theorem partSource_delivers (owner : SolType) (index : Nat) (part : Shape) (head : Expr) :
    Emission.Delivers foreign promise pending (partSource settings owner index part head) (fun _ => True)
      fun unit source => ∀ visible, head.Scoped unit visible 1 → source.Scoped unit visible 1 := by
  refine (Offsets.member_delivers _ _ _ (by decide)).andThen fun offset => .pure trivial ?_
  intro unit measured visible inner
  split <;> simp [inner, measured _]

/-- Segments are copied between the parameter and the result. -/
theorem copySegments_delivers (type : SolType) (segments : List Segment) :
    Emission.Delivers foreign promise pending (copySegments settings type segments) (fun _ => True)
      fun unit block => Block.declared block = [] ∧ Block.Scoped unit ["mPtr", "cdPtr"] block := by
  induction segments with
  | nil => exact .pure trivial fun unit => ⟨rfl, trivial⟩
  | cons segment rest ih =>
    refine (Offsets.member_delivers _ _ _ (by decide)).andThen fun callOffset => ?_
    refine (Offsets.member_delivers _ _ _ (by decide)).andThen fun memoryOffset => ?_
    dsimp only
    split
    · refine ih.andThen fun others => .pure trivial fun unit rest stored called => ?_
      simp [called _, stored _, rest.1, rest.2]
    · refine (Offsets.words_delivers _ _).andThen fun size => ?_
      refine ih.andThen fun others => .pure trivial fun unit rest sized stored called => ?_
      simp [called _, stored _, sized _, rest.1, rest.2]

/-- References are decoded between the parameter and the result. -/
theorem decodeReferences_delivers (type : SolType) (index : Nat) (parts : List (Shape × Emission Handling))
    (decoded : ∀ part ∈ parts, Emission.Delivers foreign promise pending part.2 (fun _ => True)
      fun unit handling => handling.Callable unit 1) :
    Emission.Delivers foreign promise pending (decodeReferences settings type index parts) (fun _ => True)
      fun unit block => Block.Scoped unit ["mPtr", "cdPtr"] block := by
  induction parts generalizing index with
  | nil => exact .pure trivial fun unit => trivial
  | cons part rest ih =>
    have others := ih (index + 1) fun part listed => decoded part (List.mem_cons_of_mem _ listed)
    unfold decodeReferences
    split
    · refine (partSource_delivers type index part.1 _).andThen fun source => ?_
      refine (decoded part List.mem_cons_self).andThen fun handling => ?_
      refine (Offsets.member_delivers _ _ _ (by decide)).andThen fun memoryOffset => ?_
      refine others.andThen fun block => .pure trivial fun unit inner stored callable located => ?_
      have word := scoped_decodedWord callable (located ["mPtr", "cdPtr"] (by simp))
      simp [inner, stored _, word]
    · exact others

/-- The decoder of a struct or tuple. -/
theorem structDecoder_delivers (type : SolType) {decodeMembers : List (Emission Handling)} (name : String)
    (decoded : ∀ part ∈ type.shape.members.zip decodeMembers,
      Emission.Delivers foreign promise pending part.2 (fun _ => True)
        fun unit handling => handling.Callable unit 1) :
    Emission.Delivers foreign promise pending (structDecoder settings type decodeMembers name)
      (fun routine => routine.name = name) (Fits (.decode, shape) name) := by
  refine (Offsets.fixed_delivers _ .freePointerSlot).andThen fun freePointer => ?_
  refine (Offsets.memoryHead_delivers _ _).andThen fun headSize => ?_
  refine (Emission.Delivers.lift (Shape.segmentation_measures _ _)).andThen fun segmentation => ?_
  refine (copySegments_delivers _ _).andThen fun segments => ?_
  refine (decodeReferences_delivers _ _ _ decoded).andThen fun references => .pure rfl ?_
  intro unit inner copied _ measured pointed
  exact .of_decoder (by simp [inner, copied.1, copied.2, measured _, pointed _])

end

/-! ### Requests -/

section

variable {foreign : Routine → Prop} {settings : Settings}

mutual
/-- Every request for a decoder generates one that fits. The proof follows the type; parts are smaller
than what is pending. -/
theorem decode_requests (type : SolType) (pending : List RequestKey) (above : PendingAbove pending type.shape) :
    Requests foreign pending .decode .decode type.shape (decode settings type) := by
  cases type with
  | bytes => exact ⟨_, rfl, fun name => bytesDecoder_delivers name⟩
  | string => exact ⟨_, rfl, fun name => bytesDecoder_delivers name⟩
  | array base length =>
    refine ⟨_, rfl, fun name => arrayDecoder_delivers base.shape length name ?_⟩
    have smaller : sizeOf base.shape < sizeOf (SolType.array base length).shape := by
      simp [SolType.shape]
      omega
    have inner := above.part smaller .decode
    exact (decode_requests base _ inner).delivers (inner.settled _) rfl
  | struct name members =>
    refine ⟨_, rfl, fun routineName => structDecoder_delivers (.struct name members) routineName ?_⟩
    exact decodeEach_delivers members _ fun shape listed => above.part (sizeOf_lt_struct listed name) .decode
  | tuple members =>
    refine ⟨_, rfl, fun routineName => structDecoder_delivers (.tuple members) routineName ?_⟩
    exact decodeEach_delivers members _ fun shape listed => above.part (sizeOf_lt_tuple listed) .decode
  | _ => exact ⟨_, rfl, fun name => unsupported_delivers _ _ _ _⟩
/-- The parts of a composite may be called once they are generated. -/
theorem decodeEach_delivers (members : List (Labelled SolType)) (pending : List RequestKey)
    (above : ∀ shape ∈ SolType.shapes members, PendingAbove pending shape) :
    ∀ part ∈ (SolType.shapes members).zip (decodeEach settings members),
      Emission.Delivers foreign scopingPromise pending part.2 (fun _ => True)
        fun unit handling => handling.Callable unit 1 := by
  cases members with
  | nil =>
    intro part listed
    cases listed
  | cons first rest =>
    intro part listed
    rcases List.mem_cons.mp listed with same | listed
    · subst same
      have inner := above _ List.mem_cons_self
      exact (decode_requests first.type pending inner).delivers (inner.settled _) rfl
    · exact decodeEach_delivers rest pending
        (fun shape listed => above shape (List.mem_cons_of_mem _ listed)) part listed
end

/-- Every request for a decoder delivers one that may be called with an address. -/
theorem decode_delivers (type : SolType) (pending : List RequestKey) (above : PendingAbove pending type.shape) :
    Emission.Delivers foreign scopingPromise pending (decode settings type) (fun _ => True)
      fun unit handling => handling.Callable unit 1 :=
  (decode_requests type pending above).delivers (above.settled _) rfl

end

end YulAbi.Codec
