import YulAbi.Proofs.Codec.EncodeStep
import YulAbi.Proofs.Codec.Request

/-!
# Generated encoders of arrays

What it means that a generated routine encodes, and the encoders of bytes, text and arrays
whose elements are encoded in place. Bytes, text and arrays of words are one copy. As for
decoders, the variables that say where another array lies stay as they are, and `Sees` says
which values expressions have as long as they do.
-/

namespace YulAbi

open Yul (Expr Stmt Block Routine Frame Scope)

/-- Whether values of a shape are encoded as `encodeAt` says. -/
def Handling.Encodes (unit : CodeUnit) (cap : Nat) (shape : Shape) : Handling → Prop
  | .inline => shape.isValueType = true
  | .routine name => ∀ pointer target, unit.CallActs name [pointer, target] (do
    let size ← Codec.encodeAt cap shape pointer target
    return [size])

namespace Codec

/-- Whether a routine has a name and, once it is there, takes a pointer and an address to the size that
a step answers with. -/
def ServesEncoding (name : String) (step : Word → Word → MachineStep Word) (unit : CodeUnit)
    (routine : Routine) : Prop :=
  routine.name = name ∧ (unit.routine? name = some routine →
    ∀ pointer target, unit.CallActs name [pointer, target] (do
      let size ← step pointer target
      return [size]))

/-- The variables of an encoder: its own, its result and its parameters. -/
def encoderFrame (name param : String) (own : Scope) (size pointer target : Word) : Frame :=
  ⟨name, [own, [("size", size), ("dst", target), (param, pointer)]]⟩

section

variable {promise : Promise} {pending : List RequestKey} {settings : Settings} {unit : CodeUnit}
  {name param : String} {own : Scope} {size pointer target : Word}

/-- A routine encodes if its body does. -/
theorem ServesEncoding.of_runs {body : Block} {step : Word → Word → MachineStep Word}
    (different : param ≠ "dst" ∧ param ≠ "size")
    (runs : ∀ pointer target, Block.Runs unit (encoderFrame name param [] 0#256 pointer target) body
      (step pointer target) fun size => ⟨name, [[("size", size), ("dst", target), (param, pointer)]]⟩) :
    ServesEncoding name step unit (.ofBody name [param, "dst"] ["size"] body) := by
  refine ⟨rfl, fun found pointer target => ?_⟩
  have entered : ((Routine.ofBody name [param, "dst"] ["size"] body).entry [pointer, target]).opened =
      encoderFrame name param [] 0#256 pointer target := by
    simp [Routine.entry, Routine.ofBody, Frame.declareAll, Frame.declare, Scope.declare, Frame.opened,
      encoderFrame, Yul.RoutineParameter.word, different]
  refine CodeUnit.CallActs.of_routine found rfl (entered ▸ runs pointer target) fun size => ?_
  simp [Routine.ofBody, Yul.RoutineParameter.word, Frame.find?, Scope.find?]

/-- The result of an encoder can be assigned to unless it is hidden. -/
theorem assignIn_size (visible : own.find? "size" = none) (later : Word) :
    Frame.assignIn "size" later (encoderFrame name param own size pointer target).scopes =
      some [own, Scope.declare [("size", size), ("dst", target), (param, pointer)] "size" later] :=
  Frame.assignIn_cons visible later rfl

/-- The result of an encoder replaces what it was before. -/
theorem declare_size (different : param ≠ "size") (later : Word) :
    Scope.declare [("size", size), ("dst", target), (param, pointer)] "size" later =
      [("size", later), ("dst", target), (param, pointer)] := by
  simp [Scope.declare, different]

/-- The encoder of bytes and text. -/
theorem bytesEncoder_gives (name : String) :
    Emission.Gives promise pending (bytesEncoder settings name) (ServesEncoding name encodeBytesAt) := by
  refine (Offsets.words_gives _ wordBytes).andThen fun oneWord => ?_
  refine (paddedBytesSize_gives _).andThen fun size => .pure fun unit measured one => ?_
  refine ServesEncoding.of_runs (by decide) fun pointer target => ?_
  refine Block.Runs.cons (Stmt.Acts.declareAs (Expr.Acts.mloadAt (.ident rfl))) fun length => ?_
  have isSize := measured (encoderFrame name "mPtrLength" [("length", length)] 0#256 pointer target)
    (pure length) (.ident rfl)
  rw [pure_bind] at isSize
  refine Block.Runs.consValue (Stmt.Acts.assignTo isSize fun size => rfl) ?_
  let ready := encoderFrame name "mPtrLength" [("length", length)] (paddedExtent length) pointer target
  have last : Expr.Acts unit ready (.add (.ident "dst") (.sub (.ident "size") oneWord))
      (pure (target + (paddedExtent length - 32#256))) :=
    Expr.Acts.sum (.ident rfl) (Expr.Acts.difference (.ident rfl) (one _))
  have whole : Expr.Acts unit ready (.add (.ident "length") oneWord) (pure (length + 32#256)) :=
    Expr.Acts.sum (.ident rfl) (one _)
  refine Block.Runs.cons (Stmt.Acts.store last (Expr.Acts.number 0)) fun _ => ?_
  refine Block.Runs.cons (Stmt.Acts.mcopy (.ident rfl) (.ident rfl) whole) fun _ => ?_
  exact Block.Runs.nil (paddedExtent length) rfl

/-- A body that copies everything in one go. -/
theorem encodeCopy_runs {extent : MachineStep Word} {size : Expr}
    (different : param ≠ "dst" ∧ param ≠ "size")
    (measured : Expr.Acts unit (encoderFrame name param [] 0#256 pointer target) size extent) :
    Block.Runs unit (encoderFrame name param [] 0#256 pointer target)
      [.assignTo "size" size, .mcopy (.ident "dst") (.ident param) (.ident "size")] (do
        let size ← extent
        Machine.mcopy target pointer size
        return size) fun size => ⟨name, [[("size", size), ("dst", target), (param, pointer)]]⟩ := by
  refine Block.Runs.cons (Stmt.Acts.assignTo measured (assignIn_size rfl)) fun size => ?_
  rw [declare_size different.2]
  have isPointer : Expr.Acts unit (encoderFrame name param [] size pointer target) (.ident param)
      (pure pointer) := by
    refine .ident ?_
    simp [encoderFrame, Frame.find?, Scope.find?, List.findSome?_cons, Ne.symm different.1,
      Ne.symm different.2]
  refine Block.Runs.cons (Stmt.Acts.mcopy
    (.ident rfl) isPointer (.ident rfl)) fun _ => ?_
  exact Block.Runs.nil size rfl

/-- The encoder of arrays of words. -/
theorem wordArrayEncoder_gives (length : Option Nat) (name : String) :
    Emission.Gives promise pending (wordArrayEncoder settings length name)
      (ServesEncoding name (encodeWordsAt length)) := by
  unfold wordArrayEncoder
  cases length with
  | none =>
    refine .pure fun unit => ServesEncoding.of_runs (by decide) fun pointer target => ?_
    refine encodeCopy_runs (by decide) ?_
    have loaded : Expr.Acts unit (encoderFrame name "mPtrLength" [] 0#256 pointer target)
        (.mload (.ident "mPtrLength")) (Machine.mload pointer) := Expr.Acts.mloadAt (.ident rfl)
    have extent := Expr.Acts.words (Expr.Acts.add loaded (Expr.Acts.number 1))
    simpa [wordsExtentIn, wordsExtent] using extent
  | some count =>
    refine (Offsets.words_gives _ (count * wordBytes)).andThen fun size => .pure fun unit measured => ?_
    exact ServesEncoding.of_runs (by decide) fun pointer target =>
      encodeCopy_runs (by decide) (measured _)

end

end Codec

end YulAbi

namespace YulAbi.Codec

/-! ### Arrays whose elements are not words -/

open Yul (Expr Stmt Block Routine Frame Scope)

/-- The variables that tell where an array and its encoding lie. -/
def encodeNames : List String := ["length", "mPtrHead", "dstHead", "mPtrLength", "mPtr", "dst"]

/-- Whether a frame is that of arrays of a length. -/
def EncodeFrame.Stands (unit : CodeUnit) (frame : EncodeFrame) : Option Nat → Prop
  | none => ∃ oneWord, oneWord.IsNumber unit 32#256 ∧
    frame = ⟨"mPtrLength", .ident "length", .ident "mPtrHead", .ident "dstHead",
      .shl (.number 5) (.ident "length"), oneWord,
      [.declareAs "length" (.mload (.ident "mPtrLength")),
       .declareAs "mPtrHead" (.add (.ident "mPtrLength") oneWord),
       .mstore (.ident "dst") (.ident "length"),
       .declareAs "dstHead" (.add (.ident "dst") oneWord)]⟩
  | some count => ∃ headSize, headSize.IsNumber unit (Word.ofNat (count * wordBytes)) ∧
    frame = ⟨"mPtr", .number count, .ident "mPtr", .ident "dst", headSize, .number 0, []⟩

/-- What expressions of a frame are as long as the variables of the array stay. -/
structure EncodeFrame.Sees (unit : CodeUnit) (length : Option Nat) (frame : EncodeFrame)
    (count pointer target : Word) (current : Frame) : Prop where
  /-- The number of elements. -/
  counted : ∀ later, current.AgreesOn encodeNames later → Expr.Acts unit later frame.length (pure count)
  /-- The address of the element words. -/
  memoryHead : ∀ later, current.AgreesOn encodeNames later →
    Expr.Acts unit later frame.memoryHead (pure (pointer + leadSize length))
  /-- The address of the encoded heads. -/
  targetHead : ∀ later, current.AgreesOn encodeNames later →
    Expr.Acts unit later frame.targetHead (pure (target + leadSize length))
  /-- The size of as many words as there are elements. -/
  headSize : ∀ later, current.AgreesOn encodeNames later →
    Expr.Acts unit later frame.headSize (pure (count * 32#256))
  /-- The size of the length word. -/
  lead : frame.lengthSize.IsNumber unit (leadSize length)

section

variable {promise : Promise} {pending : List RequestKey} {settings : Settings} {unit : CodeUnit}
  {length : Option Nat} {frame : EncodeFrame} {count pointer target : Word} {current : Frame}
  {name : String} {own : Scope}

/-- What a frame sees is seen as long as the variables of the array stay. -/
theorem EncodeFrame.Sees.later (h : frame.Sees unit length count pointer target current) {later : Frame}
    (same : current.AgreesOn encodeNames later) : frame.Sees unit length count pointer target later :=
  ⟨fun last same' => h.counted last (same.trans same'), fun last same' => h.memoryHead last (same.trans same'),
    fun last same' => h.targetHead last (same.trans same'), fun last same' => h.headSize last (same.trans same'),
    h.lead⟩

/-- The frame that is made for arrays of a length. -/
theorem encodeFrame_gives (oneWord : Expr) (length : Option Nat) :
    Emission.Gives promise pending (encodeFrame settings oneWord length) fun unit frame =>
      oneWord.IsNumber unit 32#256 → frame.Stands unit length := by
  unfold encodeFrame
  cases length with
  | none => exact .pure fun unit one => ⟨oneWord, one, rfl⟩
  | some count =>
    exact (Offsets.words_gives _ (count * wordBytes)).andThen fun headSize => .pure
      fun unit measured _ => ⟨headSize, measured, rfl⟩

/-- The parameter of a frame has a name of its own. -/
theorem EncodeFrame.Stands.different (h : frame.Stands unit length) :
    frame.param ≠ "dst" ∧ frame.param ≠ "size" := by
  cases length with
  | none =>
    obtain ⟨_, _, rfl⟩ := h
    exact ⟨(by decide : "mPtrLength" ≠ "dst"), (by decide : "mPtrLength" ≠ "size")⟩
  | some count =>
    obtain ⟨_, _, rfl⟩ := h
    exact ⟨(by decide : "mPtr" ≠ "dst"), (by decide : "mPtr" ≠ "size")⟩

/-- What follows the opening of a frame sees where the array lies. -/
theorem EncodeFrame.Stands.opening_runs (h : frame.Stands unit length) (name : String)
    (pointer target : Word) {body : Block} {rest : Word → MachineStep Word} {after : Word → Frame}
    (continued : ∀ count own, own.find? "size" = none →
      frame.Sees unit length count pointer target (encoderFrame name frame.param own 0#256 pointer target) →
      Block.Runs unit (encoderFrame name frame.param own 0#256 pointer target) body (rest count) after) :
    Block.Runs unit (encoderFrame name frame.param [] 0#256 pointer target) (frame.opening ++ body)
      (do
        let count ← encodeCount length pointer target
        rest count) after := by
  cases length with
  | none =>
    obtain ⟨oneWord, one, rfl⟩ := h
    simp only [encodeCount, bind_assoc, pure_bind]
    refine Block.Runs.cons (Stmt.Acts.declareAs (Expr.Acts.mloadAt (.ident rfl))) fun count => ?_
    refine Block.Runs.consValue
      (Stmt.Acts.declareAs (Expr.Acts.sum (x := pointer) (.ident rfl) (one _))) ?_
    refine Block.Runs.cons (Stmt.Acts.store (x := target) (y := count) (.ident rfl) (.ident rfl)) fun _ => ?_
    refine Block.Runs.consValue
      (Stmt.Acts.declareAs (Expr.Acts.sum (x := target) (.ident rfl) (one _))) ?_
    refine continued count [("dstHead", target + 32#256), ("mPtrHead", pointer + 32#256), ("length", count)]
      rfl ⟨?_, ?_, ?_, ?_, one⟩
    · exact fun later same => .ident (same "length" (by decide))
    · exact fun later same => .ident (same "mPtrHead" (by decide))
    · exact fun later same => .ident (same "dstHead" (by decide))
    · exact fun later same => .wordsOf (.ident (same "length" (by decide)))
  | some count =>
    obtain ⟨headSize, measured, rfl⟩ := h
    simp only [encodeCount, pure_bind]
    refine continued (Word.ofNat count) [] rfl ⟨?_, ?_, ?_, ?_, ?_⟩
    · exact fun later same => .number count
    · exact fun later same => .ident ((same "mPtr" (by decide)).trans (by simp [leadSize]; rfl))
    · exact fun later same => .ident ((same "dst" (by decide)).trans (by simp [leadSize]; rfl))
    · exact fun later same => ofNat_words count ▸ measured later
    · exact fun later => Expr.Acts.number 0

/-- The last statement of an encoder of an array assigns its size. -/
theorem EncodeFrame.Sees.assignSize_runs {size : Expr} {x : Word} (different : frame.param ≠ "size")
    (visible : own.find? "size" = none)
    (sees : frame.Sees unit length count pointer target
      (encoderFrame name frame.param own 0#256 pointer target))
    (measured : Expr.Acts unit (encoderFrame name frame.param own 0#256 pointer target) size (pure x)) :
    Block.Runs unit (encoderFrame name frame.param own 0#256 pointer target) [frame.assignSize size]
      (pure (x + leadSize length))
      fun size => ⟨name, [[("size", size), ("dst", target), (frame.param, pointer)]]⟩ := by
  have assigned := Stmt.Acts.assignTo (Expr.Acts.sum measured (sees.lead _)) (assignIn_size visible)
  refine Block.Runs.last assigned fun size => ?_
  rw [declare_size different]
  rfl

/-- The pointer to the element with the index of a loop. -/
theorem EncodeFrame.Sees.elementPointer_acts {inner : Frame} {index : Word}
    (sees : frame.Sees unit length count pointer target current) (entered : current.AgreesOn encodeNames inner)
    (indexed : inner.find? "i" = some index) :
    Expr.Acts unit inner frame.elementPointer
      (Machine.mload (wordSlot (pointer + leadSize length) index)) :=
  Expr.Acts.mloadAt (headSlot_acts (sees.memoryHead inner entered) indexed)

/-- The encoder of arrays of static elements. -/
theorem staticTailEncoder_gives (frame : EncodeFrame) (base : Shape) (name : String) :
    Emission.Gives promise pending (staticTailEncoder settings frame base name) fun unit routine =>
      ∀ length, frame.Stands unit length →
        ServesEncoding name (encodeStaticTail length (Word.ofNat base.staticBytes)) unit routine := by
  refine (Emission.Gives.lift base.encodedSize).andThen fun size => ?_
  refine (Offsets.words_gives _ size).andThen fun element => .pure ?_
  intro unit strided measured length stands
  rw [← (Shape.encodedSize_eq measured).1]
  refine ServesEncoding.of_runs stands.different fun pointer target => ?_
  refine stands.opening_runs name pointer target fun count own visible sees => ?_
  have looped : Stmt.Acts unit (encoderFrame name frame.param own 0#256 pointer target) (.count "i" frame.length
      [.mcopy (.add frame.targetHead (.mul (.ident "i") element)) frame.elementPointer element])
      (Machine.rounds (fun index _ => do
        let part ← Machine.mload (wordSlot (pointer + leadSize length) index)
        Machine.mcopy (target + leadSize length + index * Word.ofNat size) part (Word.ofNat size))
        count.toNat 0#256 ()) fun _ => encoderFrame name frame.param own 0#256 pointer target := by
    refine Stmt.Acts.count (fun _ : Unit => encoderFrame name frame.param own 0#256 pointer target) _
      (fun _ index => sees.counted _ ((Frame.AgreesOn.refl _ _).counting index (by decide))) ?_ ()
    intro _ index
    have entered := agreesOn_loop (encoderFrame name frame.param own 0#256 pointer target) encodeNames index
      (by decide)
    have indexed := find?_index (encoderFrame name frame.param own 0#256 pointer target) index
    exact Block.Runs.last (Stmt.Acts.mcopyFrom
      (Expr.Acts.sum (sees.targetHead _ entered) (Expr.Acts.product (.ident indexed) (strided _)))
      (sees.elementPointer_acts entered indexed) (strided _)) fun _ => rfl
  refine Block.Runs.cons looped fun _ => ?_
  exact sees.assignSize_runs stands.different.2 visible
    (Expr.Acts.product (sees.counted _ (.refl _ _)) (strided _))

end

end YulAbi.Codec
