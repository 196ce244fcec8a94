import YulAbi.Codec.Encoder
import YulAbi.Proofs.Codec.Scoping.Request
import YulAbi.Proofs.Emission

/-!
# Scoping of encoders

Every encoder that the generator writes finds all that it needs. An encoder has two
parameters, the address of the value and the address to write to, and returns a size.
-/

namespace YulAbi.Codec

open Yul (Expr Stmt Block Routine)

section

variable {foreign : Routine → Prop} {promise : Promise} {pending : List RequestKey} {settings : Settings}
  {unit : CodeUnit} {visible : List String} {shape : Shape}

/-- A routine with two parameters and one result fits an encoder's request if its body is scoped. -/
theorem Fits.of_encoder {name param : String} {body : Block}
    (inner : Block.Scoped unit ["size", param, "dst"] body) :
    Fits (.encode, shape) name unit (.ofBody name [param, "dst"] ["size"] body) :=
  ⟨rfl, (Routine.scoped_ofBody _ _ _ _).mpr inner, rfl, rfl⟩

/-- A dropped value needs what it needs. -/
@[simp]
theorem scoped_drop (value : Expr) : (drop value).Scoped unit visible ↔ value.Scoped unit visible 1 := by
  simp [drop, Yul.Builtin.arity, Yul.Builtin.valueCount]

/-- The encoder of bytes and text. -/
theorem bytesEncoder_delivers (name : String) :
    Emission.Delivers foreign promise pending (bytesEncoder settings name)
      (fun routine => routine.name = name) (Fits (.encode, shape) name) := by
  refine (Offsets.words_delivers _ _).andThen fun oneWord => ?_
  refine (paddedBytesSize_delivers _).andThen fun size => .pure rfl fun unit measured one => ?_
  have padded : ∀ visible, "length" ∈ visible → size.Scoped unit visible 1 :=
    fun visible declared => measured visible ⟨declared, rfl⟩
  exact .of_encoder (by simp [padded, one _])

/-- The encoder of arrays of words. -/
theorem wordArrayEncoder_delivers (length : Option Nat) (name : String) :
    Emission.Delivers foreign promise pending (wordArrayEncoder settings length name)
      (fun routine => routine.name = name) (Fits (.encode, shape) name) := by
  unfold wordArrayEncoder
  cases length with
  | none => exact .pure rfl fun unit => .of_encoder (by simp)
  | some count =>
    refine (Offsets.words_delivers _ _).andThen fun size => .pure rfl fun unit measured => ?_
    exact .of_encoder (by simp [measured _])

/-! ### Arrays with a frame -/

/-- Whether a frame is one of those that arrays are encoded with; its sizes need nothing but their
constants. -/
inductive EncodeFrame.Made (unit : CodeUnit) : EncodeFrame → Prop where
  /-- The frame of arrays whose length varies. -/
  | varying {oneWord : Expr} (one : oneWord.Closed unit) :
    Made unit ⟨"mPtrLength", .ident "length", .ident "mPtrHead", .ident "dstHead",
      .shl (.number 5) (.ident "length"), oneWord,
      [.declareAs "length" (.mload (.ident "mPtrLength")),
       .declareAs "mPtrHead" (.add (.ident "mPtrLength") oneWord),
       .mstore (.ident "dst") (.ident "length"),
       .declareAs "dstHead" (.add (.ident "dst") oneWord)]⟩
  /-- The frame of arrays with a fixed length. -/
  | fixed (count : Nat) {headSize : Expr} (measured : headSize.Closed unit) :
    Made unit ⟨"mPtr", .number count, .ident "mPtr", .ident "dst", headSize, .number 0, []⟩

/-- The frame that is made for arrays of a length. -/
theorem encodeFrame_delivers (oneWord : Expr) (length : Option Nat) :
    Emission.Delivers foreign promise pending (encodeFrame settings oneWord length) (fun _ => True)
      fun unit frame => oneWord.Closed unit → frame.Made unit := by
  unfold encodeFrame
  cases length with
  | none => exact .pure trivial fun unit one => .varying one
  | some count =>
    exact (Offsets.words_delivers _ _).andThen fun headSize => .pure trivial fun unit measured _ =>
      .fixed count measured

/-- The encoder of arrays of static elements. -/
theorem staticTailEncoder_delivers (frame : EncodeFrame) (base : Shape) (name : String) :
    Emission.Delivers foreign promise pending (staticTailEncoder settings frame base name)
      (fun routine => routine.name = name) fun unit routine => frame.Made unit →
        Fits (.encode, shape) name unit routine := by
  refine (Emission.Delivers.lift (Shape.encodedSize_measures base)).andThen fun size => ?_
  refine (Offsets.words_delivers _ _).andThen fun element => .pure rfl fun unit sized _ made => ?_
  refine .of_encoder ?_
  cases made with
  | varying one => simp [EncodeFrame.elementPointer, EncodeFrame.assignSize, one _, sized _]
  | fixed count measured => simp [EncodeFrame.elementPointer, EncodeFrame.assignSize, sized _]

/-- The encoder of arrays of one dynamic level. -/
theorem dynamicTailEncoder_delivers (oneWord : Expr) (frame : EncodeFrame) (base : Shape) (name : String) :
    Emission.Delivers foreign promise pending (dynamicTailEncoder settings oneWord frame base name)
      (fun routine => routine.name = name) fun unit routine => frame.Made unit → oneWord.Closed unit →
        Fits (.encode, shape) name unit routine := by
  refine (elementTailSize_delivers base _).andThen fun elementSize => .pure rfl fun unit sized made one => ?_
  have size : ∀ visible, "elemLength" ∈ visible → elementSize.Scoped unit visible 1 :=
    fun visible declared => sized visible ⟨declared, rfl⟩
  refine .of_encoder ?_
  cases made with
  | varying one' =>
    cases base.isBytesLike <;>
      simp [EncodeFrame.elementPointer, EncodeFrame.assignSize, one _, one' _, size]
  | fixed count measured =>
    cases base.isBytesLike <;>
      simp [EncodeFrame.elementPointer, EncodeFrame.assignSize, one _, measured _, size]

/-- The encoder of arrays whose elements are encoded one by one. -/
theorem separateTailEncoder_delivers (frame : EncodeFrame) (base : Shape)
    {encodeElement : Emission Handling} (name : String)
    (part : Emission.Delivers foreign promise pending encodeElement (fun _ => True) fun unit handling =>
      handling.Callable unit 2) :
    Emission.Delivers foreign promise pending (separateTailEncoder settings frame base encodeElement name)
      (fun routine => routine.name = name) fun unit routine => frame.Made unit →
        Fits (.encode, shape) name unit routine := by
  refine part.andThen fun handling => ?_
  cases handling with
  | inline => exact unsupported_delivers _ _ _ _
  | routine encoder =>
    dsimp only
    by_cases dynamic : base.isDynamicallyEncoded
    · simp only [dynamic, if_true]
      refine .pure rfl fun unit callable made => .of_encoder ?_
      obtain ⟨callee, found, taken, given⟩ := callable
      cases made with
      | varying one => simp [EncodeFrame.elementPointer, EncodeFrame.assignSize, one _, found, taken, given]
      | fixed count measured =>
        simp [EncodeFrame.elementPointer, EncodeFrame.assignSize, measured _, found, taken, given]
    · simp only [dynamic]
      refine (Emission.Delivers.lift (Shape.headSize_measures base)).andThen fun size => ?_
      refine (Offsets.words_delivers _ _).andThen fun stride => .pure rfl ?_
      intro unit strided _ callable made
      obtain ⟨callee, found, taken, given⟩ := callable
      refine .of_encoder ?_
      cases made with
      | varying one => simp [EncodeFrame.elementPointer, EncodeFrame.assignSize, one _, strided _, found, taken, given]
      | fixed count measured =>
        simp [EncodeFrame.elementPointer, EncodeFrame.assignSize, strided _, found, taken, given]

/-- The encoder of an array. -/
theorem arrayEncoder_delivers (base : Shape) (length : Option Nat) {encodeElement : Emission Handling}
    (name : String)
    (part : Emission.Delivers foreign promise pending encodeElement (fun _ => True) fun unit handling =>
      handling.Callable unit 2) :
    Emission.Delivers foreign promise pending (arrayEncoder settings base length encodeElement name)
      (fun routine => routine.name = name) (Fits (.encode, shape) name) := by
  refine (Offsets.words_delivers _ _).andThen fun oneWord => ?_
  split
  · exact (wordArrayEncoder_delivers length name).weaken fun _ _ fits _ => fits
  · refine (encodeFrame_delivers oneWord length).andThen fun frame => ?_
    exact (staticTailEncoder_delivers frame base name).weaken fun _ _ fits made one => fits (made one)
  · refine (encodeFrame_delivers oneWord length).andThen fun frame => ?_
    exact (dynamicTailEncoder_delivers oneWord frame base name).weaken fun _ _ fits made one =>
      fits (made one) one
  · refine (encodeFrame_delivers oneWord length).andThen fun frame => ?_
    exact (separateTailEncoder_delivers frame base name part).weaken fun _ _ fits made one => fits (made one)

/-! ### Structs -/

/-- Segments are copied between the parameters. -/
theorem writeSegments_delivers (type : SolType) (segments : List Segment) :
    Emission.Delivers foreign promise pending (writeSegments settings type segments) (fun _ => True)
      fun unit block => Block.declared block = [] ∧ Block.Scoped unit ["size", "mPtr", "dst"] block := by
  induction segments with
  | nil => exact .pure trivial fun unit => ⟨rfl, trivial⟩
  | cons segment rest ih =>
    refine (Offsets.member_delivers _ _ _ (by decide)).andThen fun callOffset => ?_
    refine (Offsets.member_delivers _ _ _ (by decide)).andThen fun memoryOffset => ?_
    dsimp only
    split
    · refine ih.andThen fun others => .pure trivial fun unit rest stored called => ?_
      simp [called _, stored _, rest.1, rest.2]
    · refine (Offsets.words_delivers _ _).andThen fun size => ?_
      refine ih.andThen fun others => .pure trivial fun unit rest sized stored called => ?_
      simp [called _, stored _, sized _, rest.1, rest.2]

/-- A part is written wherever the target and the running size are visible. -/
theorem writePart_delivers (owner : SolType) (index : Nat) (part : Shape) {encodePart : Emission Handling}
    (value : Expr)
    (encoded : Emission.Delivers foreign promise pending encodePart (fun _ => True) fun unit handling =>
      handling.Callable unit 2) :
    Emission.Delivers foreign promise pending (writePart settings owner index part encodePart value)
      (fun _ => True) fun unit block => Block.declared block = [] ∧ ∀ visible, "dst" ∈ visible →
        "size" ∈ visible → value.Scoped unit visible 1 → Block.Scoped unit visible block := by
  refine (Offsets.member_delivers _ _ _ (by decide)).andThen fun offset => ?_
  refine encoded.andThen fun handling => ?_
  cases handling with
  | inline =>
    refine .pure trivial fun unit _ measured => ⟨rfl, fun visible target running inner => ?_⟩
    simp [measured _, target, inner]
  | routine encoder =>
    dsimp only
    split
    · refine .pure trivial fun unit callable measured => ⟨rfl, fun visible target running inner => ?_⟩
      obtain ⟨callee, found, taken, given⟩ := callable
      simp [measured _, target, running, inner, found, taken, given]
    · refine .pure trivial fun unit callable measured => ⟨rfl, fun visible target running inner => ?_⟩
      obtain ⟨callee, found, taken, given⟩ := callable
      simp [measured _, target, inner, found, taken, given]

/-- References are encoded between the parameters. -/
theorem writeReferences_delivers (type : SolType) (index : Nat) (parts : List (Shape × Emission Handling))
    (encoded : ∀ part ∈ parts, Emission.Delivers foreign promise pending part.2 (fun _ => True)
      fun unit handling => handling.Callable unit 2) :
    Emission.Delivers foreign promise pending (writeReferences settings type index parts) (fun _ => True)
      fun unit block => Block.Scoped unit ["size", "mPtr", "dst"] block := by
  induction parts generalizing index with
  | nil => exact .pure trivial fun unit => trivial
  | cons part rest ih =>
    have others := ih (index + 1) fun part listed => encoded part (List.mem_cons_of_mem _ listed)
    unfold writeReferences
    split
    · refine (Offsets.member_delivers _ _ _ (by decide)).andThen fun memoryOffset => ?_
      refine (writePart_delivers type index part.1 _ (encoded part List.mem_cons_self)).andThen fun block => ?_
      refine others.andThen fun rest => .pure trivial fun unit inner written stored => ?_
      have first := written.2 ["size", "mPtr", "dst"] (by simp) (by simp) (by simp [stored _])
      simp [first, written.1, inner]
    · exact others

/-- The encoder of a struct or tuple. -/
theorem structEncoder_delivers (type : SolType) {encodeMembers : List (Emission Handling)} (name : String)
    (encoded : ∀ part ∈ type.shape.members.zip encodeMembers,
      Emission.Delivers foreign promise pending part.2 (fun _ => True)
        fun unit handling => handling.Callable unit 2) :
    Emission.Delivers foreign promise pending (structEncoder settings type encodeMembers name)
      (fun routine => routine.name = name) (Fits (.encode, shape) name) := by
  refine (Offsets.callHead_delivers _ _).andThen fun headSize => ?_
  refine (Emission.Delivers.lift (Shape.segmentation_measures _ _)).andThen fun segmentation => ?_
  refine (writeSegments_delivers _ _).andThen fun segments => ?_
  refine (writeReferences_delivers _ _ _ encoded).andThen fun references => .pure rfl ?_
  intro unit inner copied _ measured
  exact .of_encoder (by simp [inner, copied.1, copied.2, measured _])

end

/-! ### Requests -/

section

variable {foreign : Routine → Prop} {settings : Settings}

mutual
/-- Every request for an encoder generates one that fits. The proof follows the type; parts are smaller
than what is pending. -/
theorem encode_requests (type : SolType) (pending : List RequestKey) (above : PendingAbove pending type.shape) :
    Requests foreign pending .encode .encode type.shape (encode settings type) := by
  cases type with
  | bytes => exact ⟨_, rfl, fun name => bytesEncoder_delivers name⟩
  | string => exact ⟨_, rfl, fun name => bytesEncoder_delivers name⟩
  | array base length =>
    refine ⟨_, rfl, fun name => arrayEncoder_delivers base.shape length name ?_⟩
    have smaller : sizeOf base.shape < sizeOf (SolType.array base length).shape := by
      simp [SolType.shape]
      omega
    have inner := above.part smaller .encode
    exact (encode_requests base _ inner).delivers (inner.settled _) rfl
  | struct name members =>
    refine ⟨_, rfl, fun routineName => structEncoder_delivers (.struct name members) routineName ?_⟩
    exact encodeEach_delivers members _ fun shape listed => above.part (sizeOf_lt_struct listed name) .encode
  | tuple members =>
    refine ⟨_, rfl, fun routineName => structEncoder_delivers (.tuple members) routineName ?_⟩
    exact encodeEach_delivers members _ fun shape listed => above.part (sizeOf_lt_tuple listed) .encode
  | _ => exact ⟨_, rfl, fun name => unsupported_delivers _ _ _ _⟩
/-- The parts of a composite may be called once they are generated. -/
theorem encodeEach_delivers (members : List (Labelled SolType)) (pending : List RequestKey)
    (above : ∀ shape ∈ SolType.shapes members, PendingAbove pending shape) :
    ∀ part ∈ (SolType.shapes members).zip (encodeEach settings members),
      Emission.Delivers foreign scopingPromise pending part.2 (fun _ => True)
        fun unit handling => handling.Callable unit 2 := by
  cases members with
  | nil =>
    intro part listed
    cases listed
  | cons first rest =>
    intro part listed
    rcases List.mem_cons.mp listed with same | listed
    · subst same
      have inner := above _ List.mem_cons_self
      exact (encode_requests first.type pending inner).delivers (inner.settled _) rfl
    · exact encodeEach_delivers rest pending
        (fun shape listed => above shape (List.mem_cons_of_mem _ listed)) part listed
end

/-- Every request for an encoder delivers one that may be called with two addresses. -/
theorem encode_delivers (type : SolType) (pending : List RequestKey) (above : PendingAbove pending type.shape) :
    Emission.Delivers foreign scopingPromise pending (encode settings type) (fun _ => True)
      fun unit handling => handling.Callable unit 2 :=
  (encode_requests type pending above).delivers (above.settled _) rfl

end

end YulAbi.Codec
