import YulAbi.Proofs.Codec.Request

/-!
# Generated decoders of arrays

What it means that a generated routine decodes, and the decoders of bytes, text and arrays
whose elements are decoded in place. The statements hold for every request that succeeds,
whatever the names of constants and the other content of the unit are.

Bytes, text and arrays of words are one copy. All other decoders of arrays begin by looking
up the length, and they differ in what follows. While a decoder runs its own variables
change, but those that say where the array lies do not; `Sees` and `SeesMemory` say which
values expressions have as long as these variables stay.
-/

namespace YulAbi

open Yul (Expr Stmt Block Routine Frame Scope)

/-- Whether values of a shape are decoded as `decodeAt` says. -/
def Handling.Decodes (unit : CodeUnit) (cap : Nat) (shape : Shape) : Handling → Prop
  | .inline => shape.isValueType = true
  | .routine name => ∀ source, unit.CallActs name [source] (do
    let word ← Codec.decodeAt cap shape source
    return [word])

namespace Codec

/-- Whether a routine has a name and, once it is there, takes an address to the word that a step
answers with. -/
def ServesDecoding (name : String) (step : Word → MachineStep Word) (unit : CodeUnit)
    (routine : Routine) : Prop :=
  routine.name = name ∧ (unit.routine? name = some routine →
    ∀ source, unit.CallActs name [source] (do
      let word ← step source
      return [word]))

/-- The variables of a decoder: its own, its result and its parameter. -/
def decoderFrame (name param result : String) (own : Scope) (target source : Word) : Frame :=
  ⟨name, [own, [(result, target), (param, source)]]⟩

section

variable {promise : Promise} {pending : List RequestKey} {settings : Settings} {unit : CodeUnit}

/-- The result of a decoder is found unless it is hidden. -/
theorem find?_result {name param result : String} {own : Scope} {target source : Word}
    (visible : own.find? result = none) :
    (decoderFrame name param result own target source).find? result = some target := by
  simp only [decoderFrame, Frame.find?, List.findSome?_cons, visible]
  simp [Scope.find?]

/-- The parameter of a decoder is found unless it is hidden. -/
theorem find?_param {name param result : String} {own : Scope} {target source : Word}
    (visible : own.find? param = none) (different : param ≠ result) :
    (decoderFrame name param result own target source).find? param = some source := by
  simp only [decoderFrame, Frame.find?, List.findSome?_cons, visible]
  simp [Scope.find?, Ne.symm different]

/-- A routine decodes if its body does. -/
theorem ServesDecoding.of_runs {name param result : String} {body : Block}
    {step : Word → MachineStep Word} (different : param ≠ result)
    (runs : ∀ source, Block.Runs unit (decoderFrame name param result [] 0#256 source) body (step source)
      fun target => ⟨name, [[(result, target), (param, source)]]⟩) :
    ServesDecoding name step unit (.ofBody name [param] [result] body) := by
  refine ⟨rfl, fun found source => ?_⟩
  have entered : ((Routine.ofBody name [param] [result] body).entry [source]).opened =
      decoderFrame name param result [] 0#256 source := by
    simp [Routine.entry, Routine.ofBody, Frame.declareAll, Frame.declare, Scope.declare, Frame.opened,
      decoderFrame, Yul.RoutineParameter.word, different]
  refine CodeUnit.CallActs.of_routine found rfl (entered ▸ runs source) fun target => ?_
  simp [Routine.ofBody, Yul.RoutineParameter.word, Frame.find?, Scope.find?]

/-- A body that copies everything in one go. -/
theorem copyBody_runs {name param result : String} {freePointer size : Expr}
    {extent : Word → MachineStep Word} (different : param ≠ result ∧ param ≠ "size" ∧ result ≠ "size")
    (pointed : freePointer.IsNumber unit freeSlot)
    (measured : ∀ target source,
      Expr.Acts unit (decoderFrame name param result [] target source) size (extent source))
    (source : Word) :
    Block.Runs unit (decoderFrame name param result [] 0#256 source)
      [.assignTo result (.mload freePointer), .declareAs "size" size,
       .calldatacopy (.ident result) (.ident param) (.ident "size"),
       .mstore freePointer (.add (.ident result) (.ident "size"))]
      (decodeCopy extent source) fun target => ⟨name, [[(result, target), (param, source)]]⟩ := by
  have assigned : ∀ target, Frame.assignIn result target
      (decoderFrame name param result [] 0#256 source).scopes =
        some [[], [(result, target), (param, source)]] := by
    intro target
    simp [decoderFrame, Frame.assignIn, Scope.assign?, Scope.find?, Scope.declare, different]
  refine Block.Runs.cons (Stmt.Acts.assignTo (Expr.Acts.mloadAt (pointed _)) assigned) fun target => ?_
  refine Block.Runs.cons (Stmt.Acts.declareAs (measured target source)) fun size => ?_
  have isTarget : Expr.Acts unit (decoderFrame name param result [("size", size)] target source)
      (.ident result) (pure target) :=
    .ident (find?_result (by simp [Scope.find?, Ne.symm different.2.2]))
  have isSource : Expr.Acts unit (decoderFrame name param result [("size", size)] target source)
      (.ident param) (pure source) :=
    .ident (find?_param (by simp [Scope.find?, Ne.symm different.2.1]) different.1)
  have isSize : Expr.Acts unit (decoderFrame name param result [("size", size)] target source)
      (.ident "size") (pure size) :=
    .ident rfl
  refine Block.Runs.cons (Stmt.Acts.calldatacopy isTarget isSource isSize) fun _ => ?_
  refine Block.Runs.cons (Stmt.Acts.store (pointed _) (Expr.Acts.sum isTarget isSize)) fun _ => ?_
  exact Block.Runs.nil target rfl

/-- The decoder of bytes and text. -/
theorem bytesDecoder_gives (name : String) :
    Emission.Gives promise pending (bytesDecoder settings name)
      (ServesDecoding name (decodeCopy bytesExtentAt)) := by
  refine (Offsets.fixed_gives _ .freePointerSlot).andThen fun freePointer => ?_
  refine (paddedBytesSize_gives _).andThen fun size => .pure fun unit measured pointed => ?_
  refine ServesDecoding.of_runs (by decide) (copyBody_runs (by decide) pointed fun target source => ?_)
  exact measured _ _ (Expr.Acts.calldataloadAt (.ident rfl))

/-- The decoder of arrays of words. -/
theorem wordArrayDecoder_gives (freePointer : Expr) (length : Option Nat) (name : String) :
    Emission.Gives promise pending (wordArrayDecoder settings freePointer length name)
      fun unit routine => freePointer.IsNumber unit freeSlot →
        ServesDecoding name (decodeCopy (wordsExtentAt length)) unit routine := by
  unfold wordArrayDecoder
  cases length with
  | none =>
    refine .pure fun unit pointed => ?_
    refine ServesDecoding.of_runs (by decide) (copyBody_runs (by decide) pointed fun target source => ?_)
    have loaded : Expr.Acts unit (decoderFrame name "cdPtrLength" "mPtrLength" [] target source)
        (.calldataload (.ident "cdPtrLength")) (Machine.calldataload source) :=
      Expr.Acts.calldataloadAt (.ident rfl)
    have extent := Expr.Acts.words (Expr.Acts.add loaded (Expr.Acts.number 1))
    simpa [wordsExtentAt, wordsExtent] using extent
  | some count =>
    refine (Offsets.words_gives _ (count * wordBytes)).andThen fun size => .pure fun unit measured pointed => ?_
    exact ServesDecoding.of_runs (by decide)
      (copyBody_runs (by decide) pointed fun target source => measured _)

end

end Codec

end YulAbi

namespace YulAbi.Codec

/-! ### Arrays whose elements are not words -/

open Yul (Expr Stmt Block Routine Frame Scope)

/-- The variables that tell where an encoded array lies. -/
def callNames : List String := ["length", "cdPtrHead", "cdPtrLength", "mPtrLength", "cdPtr", "mPtr"]

/-- The variables that also tell where its elements lie in memory. -/
def placeNames : List String := "mPtrHead" :: callNames

/-- Whether a frame is that of arrays of a length. -/
def ArrayFrame.Stands (unit : CodeUnit) (freePointer : Expr) (frame : ArrayFrame) : Option Nat → Prop
  | none => ∃ oneWord, oneWord.IsNumber unit 32#256 ∧
    frame = ⟨"cdPtrLength", "mPtrLength", .ident "length", .ident "cdPtrHead", .ident "mPtrHead",
      .shl (.number 5) (.ident "length"), true,
      [.assignTo "mPtrLength" (.mload freePointer),
       .declareAs "length" (.calldataload (.ident "cdPtrLength")),
       .declareAs "cdPtrHead" (.add (.ident "cdPtrLength") oneWord)]⟩
  | some count => ∃ headSize, headSize.IsNumber unit (Word.ofNat (count * wordBytes)) ∧
    frame = ⟨"cdPtr", "mPtr", .number count, .ident "cdPtr", .ident "mPtr", headSize, false,
      [.assignTo "mPtr" (.mload freePointer)]⟩

/-- What expressions of a frame are as long as the variables of the encoded array stay. -/
structure ArrayFrame.Sees (unit : CodeUnit) (length : Option Nat) (frame : ArrayFrame)
    (target count source : Word) (current : Frame) : Prop where
  /-- The number of elements. -/
  counted : ∀ later, current.AgreesOn callNames later → Expr.Acts unit later frame.length (pure count)
  /-- The address of the encoded heads. -/
  callHead : ∀ later, current.AgreesOn callNames later →
    Expr.Acts unit later frame.callHead (pure (source + leadSize length))
  /-- The size of as many words as there are elements. -/
  headSize : ∀ later, current.AgreesOn callNames later →
    Expr.Acts unit later frame.headSize (pure (count * 32#256))
  /-- The parameter. -/
  param : ∀ later, current.AgreesOn callNames later →
    Expr.Acts unit later (.ident frame.param) (pure source)
  /-- The result. -/
  result : ∀ later, current.AgreesOn callNames later →
    Expr.Acts unit later (.ident frame.result) (pure target)

/-- Whether the address of the element words is known as long as the variables of the array stay. -/
def ArrayFrame.SeesMemory (unit : CodeUnit) (length : Option Nat) (frame : ArrayFrame) (target : Word)
    (current : Frame) : Prop :=
  ∀ later, current.AgreesOn placeNames later →
    Expr.Acts unit later frame.memoryHead (pure (target + leadSize length))

section

variable {promise : Promise} {pending : List RequestKey} {settings : Settings} {unit : CodeUnit}
  {freePointer : Expr} {length : Option Nat} {frame : ArrayFrame} {target count source : Word}
  {current : Frame}

/-- The frame that is made for arrays of a length. -/
theorem decodeFrame_gives (freePointer : Expr) (length : Option Nat) :
    Emission.Gives promise pending (decodeFrame settings freePointer length) fun unit frame =>
      frame.Stands unit freePointer length := by
  unfold decodeFrame
  cases length with
  | none =>
    exact (Offsets.words_gives _ wordBytes).andThen fun oneWord => .pure fun unit one =>
      ⟨oneWord, one, rfl⟩
  | some count =>
    exact (Offsets.words_gives _ (count * wordBytes)).andThen fun headSize => .pure fun unit measured =>
      ⟨headSize, measured, rfl⟩

/-- The parameter and the result of a frame have different names. -/
theorem ArrayFrame.Stands.different (h : frame.Stands unit freePointer length) :
    frame.param ≠ frame.result := by
  cases length with
  | none =>
    obtain ⟨_, _, rfl⟩ := h
    exact (by decide : "cdPtrLength" ≠ "mPtrLength")
  | some count =>
    obtain ⟨_, _, rfl⟩ := h
    exact (by decide : "cdPtr" ≠ "mPtr")

/-- What follows the opening of a frame sees where the array lies. -/
theorem ArrayFrame.Stands.opening_runs (h : frame.Stands unit freePointer length)
    (pointed : freePointer.IsNumber unit freeSlot) (name : String) (source : Word) {body : Block}
    {rest : Word → Word → MachineStep Word} {after : Word → Frame}
    (continued : ∀ target count current, frame.Sees unit length target count source current →
      current.closed = ⟨name, [[(frame.result, target), (frame.param, source)]]⟩ →
      current.scopes ≠ [] → Block.Runs unit current body (rest target count) after) :
    Block.Runs unit (decoderFrame name frame.param frame.result [] 0#256 source) (frame.opening ++ body)
      (do
        let target ← Machine.mload freeSlot
        let count ← countAt length source
        rest target count) after := by
  cases length with
  | none =>
    obtain ⟨oneWord, one, rfl⟩ := h
    refine Block.Runs.cons (Stmt.Acts.assignTo (Expr.Acts.mloadAt (pointed _)) fun target => rfl)
      fun target => ?_
    refine Block.Runs.cons (Stmt.Acts.declareAs (Expr.Acts.calldataloadAt (.ident rfl))) fun count => ?_
    refine Block.Runs.consValue
      (Stmt.Acts.declareAs (Expr.Acts.sum (x := source) (.ident rfl) (one _))) ?_
    refine continued target count _ ⟨?_, ?_, ?_, ?_, ?_⟩ rfl (by simp [Frame.declare])
    · exact fun later same => .ident (same "length" (by decide))
    · exact fun later same => .ident (same "cdPtrHead" (by decide))
    · exact fun later same => .wordsOf (.ident (same "length" (by decide)))
    · exact fun later same => .ident (same "cdPtrLength" (by decide))
    · exact fun later same => .ident (same "mPtrLength" (by decide))
  | some count =>
    obtain ⟨headSize, measured, rfl⟩ := h
    refine Block.Runs.cons (Stmt.Acts.assignTo (Expr.Acts.mloadAt (pointed _)) fun target => rfl)
      fun target => ?_
    have seen : Block.Runs unit ⟨name, [[], [("mPtr", target), ("cdPtr", source)]]⟩ body
        (rest target (Word.ofNat count)) after := by
      refine continued target (Word.ofNat count) _ ⟨?_, ?_, ?_, ?_, ?_⟩ rfl (by simp)
      · exact fun later same => .number count
      · exact fun later same => .ident ((same "cdPtr" (by decide)).trans (by simp [leadSize]; rfl))
      · exact fun later same => ofNat_words count ▸ measured later
      · exact fun later same => .ident (same "cdPtr" (by decide))
      · exact fun later same => .ident (same "mPtr" (by decide))
    simp only [countAt, pure_bind]
    exact seen

/-- What a frame sees is seen as long as the variables of the encoded array stay. -/
theorem ArrayFrame.Sees.later (h : frame.Sees unit length target count source current) {later : Frame}
    (same : current.AgreesOn callNames later) : frame.Sees unit length target count source later :=
  ⟨fun last same' => h.counted last (same.trans same'), fun last same' => h.callHead last (same.trans same'),
    fun last same' => h.headSize last (same.trans same'), fun last same' => h.param last (same.trans same'),
    fun last same' => h.result last (same.trans same')⟩

/-- The address of the element words of an array of fixed length is its own address. -/
theorem ArrayFrame.Sees.seesMemory {fixed : Nat} (h : frame.Sees unit (some fixed) target count source current)
    (stands : frame.Stands unit freePointer (some fixed)) :
    frame.SeesMemory unit (some fixed) target current := by
  obtain ⟨headSize, -, rfl⟩ := stands
  intro later same
  simpa [leadSize] using h.result later (same.mono (List.subset_cons_self _ _))

/-- A declaration makes the address of the element words known for arrays that vary in size. -/
theorem ArrayFrame.Sees.declareHead {oneWord : Expr} {body : Block} {effect : MachineStep Word}
    {after : Word → Frame} (h : frame.Sees unit none target count source current)
    (stands : frame.Stands unit freePointer none) (one : oneWord.IsNumber unit 32#256)
    (inside : current.scopes ≠ [])
    (continued : ∀ later, frame.Sees unit none target count source later →
      frame.SeesMemory unit none target later → later.closed = current.closed → later.scopes ≠ [] →
      Block.Runs unit later body effect after) :
    Block.Runs unit current (.declareAs "mPtrHead" (.add (.ident "mPtrLength") oneWord) :: body) effect
      after := by
  obtain ⟨_, _, rfl⟩ := stands
  have target_known : Expr.Acts unit current (.ident "mPtrLength") (pure target) :=
    h.result current (.refl _ _)
  refine Block.Runs.consValue (Stmt.Acts.declareAs (Expr.Acts.sum target_known (one _))) ?_
  refine continued _ (h.later ((Frame.AgreesOn.refl _ _).declare _ _ (by decide))) ?_
    (Frame.closed_declare _ _ _) (Frame.scopes_declare_ne_nil inside _ _)
  intro later same
  refine .ident ((same "mPtrHead" (by decide)).trans ?_)
  exact Frame.find?_declare_self _ _ inside

/-- Whether statements store the length of an array and make the address of its words known. -/
def ArrayFrame.StoresLength (unit : CodeUnit) (frame : ArrayFrame) (part : Block) : Prop :=
  ∀ {freePointer : Expr} {length : Option Nat} {target count source : Word} {current : Frame},
    frame.Stands unit freePointer length → frame.Sees unit length target count source current →
    current.scopes ≠ [] →
    ∀ {body : Block} {effect : MachineStep Word} {after : Word → Frame},
      (∀ later, frame.Sees unit length target count source later →
        frame.SeesMemory unit length target later → later.closed = current.closed →
        later.scopes ≠ [] → Block.Runs unit later body effect after) →
      Block.Runs unit current (part ++ body) (do
        storeCount length target count
        effect) after

/-- The statements that store the length. -/
theorem storeLength_gives (frame : ArrayFrame) :
    Emission.Gives promise pending (storeLength settings frame) (frame.StoresLength) := by
  unfold storeLength
  split
  · rename_i dynamic
    refine (Offsets.words_gives _ wordBytes).andThen fun oneWord => .pure ?_
    intro unit one freePointer length target count source current stands sees inside body effect after
      continued
    cases length with
    | some fixed =>
      obtain ⟨headSize, -, rfl⟩ := stands
      cases dynamic
    | none =>
      obtain ⟨word, known, rfl⟩ := id stands
      refine Block.Runs.cons (Stmt.Acts.store (sees.result current (.refl _ _))
        (sees.counted current (.refl _ _))) fun _ => ?_
      exact sees.declareHead stands one inside continued
  · rename_i fixed
    refine .pure ?_
    intro unit freePointer length target count source current stands sees inside body effect after
      continued
    cases length with
    | none =>
      obtain ⟨oneWord, -, rfl⟩ := stands
      exact absurd rfl fixed
    | some count =>
      exact continued current sees (sees.seesMemory stands) rfl inside

/-- The decoder of arrays of static elements. -/
theorem staticTailDecoder_gives (freePointer : Expr) (frame : ArrayFrame) (base : Shape) (name : String) :
    Emission.Gives promise pending (staticTailDecoder settings freePointer frame base name)
      fun unit routine => ∀ length, freePointer.IsNumber unit freeSlot →
        frame.Stands unit freePointer length →
        ServesDecoding name (decodeStaticTail length (Word.ofNat base.staticBytes)) unit routine := by
  refine (Emission.Gives.lift base.encodedSize).andThen fun size => ?_
  refine (Offsets.words_gives _ size).andThen fun element => ?_
  refine (storeLength_gives frame).andThen fun lengthPart => .pure ?_
  intro unit stored strided measured length pointed stands
  rw [← (Shape.encodedSize_eq measured).1]
  refine ServesDecoding.of_runs (stands.different) fun source => ?_
  refine stands.opening_runs pointed name source fun target count current sees closed inside => ?_
  refine stored stands sees inside fun later sees seesMemory ended inside => ?_
  let tail := target + leadSize length + count * 32#256
  let size' := count * Word.ofNat size
  refine Block.Runs.consValue (Stmt.Acts.declareAs (Expr.Acts.sum (seesMemory later (.refl _ _))
    (sees.headSize later (.refl _ _)))) ?_
  refine Block.Runs.consValue (Stmt.Acts.declareAs (Expr.Acts.product
    (sees.counted _ ((Frame.AgreesOn.refl _ _).declare _ _ (by decide))) (strided _))) ?_
  have inside' := Frame.scopes_declare_ne_nil inside "mPtrTail" tail
  have placed : later.AgreesOn placeNames ((later.declare "mPtrTail" tail).declare "tailSize" size') :=
    ((Frame.AgreesOn.refl _ _).declare _ _ (by decide)).declare _ _ (by decide)
  have isTail := (Frame.find?_declare_of_ne (later.declare "mPtrTail" tail) size'
    (show "mPtrTail" ≠ "tailSize" by decide)).trans (Frame.find?_declare_self "mPtrTail" tail inside)
  have isSize := Frame.find?_declare_self "tailSize" size' inside'
  have closes : ((later.declare "mPtrTail" tail).declare "tailSize" size').closed = current.closed := by
    rw [Frame.closed_declare, Frame.closed_declare, ended]
  generalize (later.declare "mPtrTail" tail).declare "tailSize" size' = ready at *
  have seen : later.AgreesOn callNames ready := placed.mono (List.subset_cons_self _ _)
  refine Block.Runs.cons (Stmt.Acts.calldatacopy (.ident isTail) (sees.callHead ready seen)
    (.ident isSize)) fun _ => ?_
  refine Block.Runs.cons (Stmt.Acts.store (pointed _) (Expr.Acts.sum (.ident isTail) (.ident isSize)))
    fun _ => ?_
  have looped : Stmt.Acts unit ready (.count "i" frame.length
      [.mstore (headSlot frame.memoryHead) (.add (.ident "mPtrTail") (.mul (.ident "i") element))])
      (Machine.rounds (fun index _ => Machine.mstore (wordSlot (target + leadSize length) index)
        (tail + index * Word.ofNat size)) count.toNat 0#256 ()) fun _ => ready := by
    refine Stmt.Acts.count (fun _ : Unit => ready) _
      (fun _ index => sees.counted _ (seen.counting index (by decide))) ?_ ()
    intro _ index
    have inLoop := placed.trans (agreesOn_loop _ _ index (by decide))
    have isTail' : (ready.counting "i" index).opened.find? "mPtrTail" = some tail := by
      rw [Frame.find?_opened, Frame.find?_counting_of_ne _ _ (by decide), isTail]
    exact Block.Runs.last (Stmt.Acts.store (headSlot_acts (seesMemory _ inLoop) (find?_index _ _))
      (Expr.Acts.sum (.ident isTail') (Expr.Acts.product (.ident (find?_index _ _)) (strided _))))
      fun _ => rfl
  refine Block.Runs.cons looped fun _ => Block.Runs.nil target ?_
  rw [closes, closed]

end

end YulAbi.Codec
