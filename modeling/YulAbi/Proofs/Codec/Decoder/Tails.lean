import YulAbi.Proofs.Codec.Decoder.Array

/-!
# Generated decoders of arrays with tails

The decoder of arrays of one dynamic level, the decoder of arrays whose elements are decoded
one by one, and the choice between the decoders of arrays. The first loop of the former keeps
a running offset in a variable; the round that checks one element is `checkTail`, and the
variable holds what the rounds so far have answered. What decodes an element in the latter is
any handling that does what `decodeAt` says.
-/

namespace YulAbi.Codec

open Yul (Expr Stmt Block Routine Frame Scope)

section

variable {promise : Promise} {pending : List RequestKey} {settings : Settings} {unit : CodeUnit}
  {freePointer : Expr} {length : Option Nat} {frame : ArrayFrame} {target count source : Word}
  {current : Frame}

/-- The check of the length of an array that varies in size. -/
theorem checkCount_runs {maxLengthExpr : Expr} (stands : frame.Stands unit freePointer length)
    (sees : frame.Sees unit length target count source current)
    (bounded : maxLengthExpr.IsNumber unit maxLength) {body : Block} {effect : MachineStep Word}
    {after : Word → Frame} (continued : Block.Runs unit current body effect after) :
    Block.Runs unit current
      ((if frame.dynamic then [revertIf (.gt (.ident "length") maxLengthExpr)] else []) ++ body) (do
        checkCount length count
        effect) after := by
  cases length with
  | none =>
    obtain ⟨_, _, rfl⟩ := stands
    have above := Expr.Acts.above (sees.counted current (.refl _ _)) (bounded current)
    exact Block.Runs.cons (Stmt.Acts.refuse above) fun _ => continued
  | some fixed =>
    obtain ⟨_, _, rfl⟩ := stands
    exact continued

/-- The check of the tails of all elements. -/
theorem checkTails_runs {maxLengthExpr elementSize : Expr} {extent : Word → Word}
    (sees : frame.Sees unit length target count source current) (inside : current.scopes ≠ [])
    (bounded : maxLengthExpr.IsNumber unit maxLength)
    (measured : ∀ later value, Expr.Acts unit later (.ident "elemLength") (pure value) →
      Expr.Acts unit later elementSize (pure (extent value))) (start : Word) :
    Stmt.Acts unit (current.declare "tailOffset" start)
      (.count "i" frame.length
        [.declareAs "offset" (.calldataload (headSlot frame.callHead)),
         revertIf (.iszero (.eq (.ident "offset") (.ident "tailOffset"))),
         .declareAs "elemLength" (.calldataload (.add frame.callHead (.ident "offset"))),
         revertIf (.gt (.ident "elemLength") maxLengthExpr),
         .assignTo "tailOffset" (.add (.ident "tailOffset") elementSize)])
      (Machine.rounds (checkTail extent (source + leadSize length)) count.toNat 0#256 start)
      fun last => current.declare "tailOffset" last := by
  have seen : ∀ last, current.AgreesOn callNames (current.declare "tailOffset" last) :=
    fun last => (Frame.AgreesOn.refl _ _).declare _ _ (by decide)
  refine Stmt.Acts.count _ _
    (fun last index => sees.counted _ ((seen last).counting index (by decide))) (fun last index => ?_) start
  have entered : current.AgreesOn callNames ((current.declare "tailOffset" last).counting "i" index).opened :=
    ((seen last).counting index (by decide)).opened
  have summed : ((current.declare "tailOffset" last).counting "i" index).opened.find? "tailOffset" =
      some last := by
    rw [Frame.find?_opened, Frame.find?_counting_of_ne _ _ (by decide),
      Frame.find?_declare_self _ _ inside]
  have indexed := find?_index (current.declare "tailOffset" last) index
  have assigned : ∀ offset elemLength next, Frame.assignIn "tailOffset" next
      ((((current.declare "tailOffset" last).counting "i" index).opened.declare "offset" offset).declare
        "elemLength" elemLength).scopes =
      some ((((current.declare "tailOffset" next).counting "i" index).opened.declare "offset" offset).declare
        "elemLength" elemLength).scopes := fun offset elemLength next =>
    Frame.assignIn_cons rfl next (Frame.assignIn_cons rfl next
      (Frame.assignIn_declare inside "tailOffset" last next))
  have opened' : ((current.declare "tailOffset" last).counting "i" index).opened.scopes ≠ [] := by
    simp [Frame.opened]
  have named : ((current.declare "tailOffset" last).counting "i" index).opened.routine = current.routine :=
    Frame.routine_declare current "tailOffset" last
  generalize ((current.declare "tailOffset" last).counting "i" index).opened = round at *
  refine Block.Runs.cons (Stmt.Acts.declareAs (Expr.Acts.calldataloadAt
    (headSlot_acts (sees.callHead _ entered) indexed))) fun offset => ?_
  have summed := (Frame.find?_declare_of_ne round offset (show "tailOffset" ≠ "offset" by decide)).trans summed
  have isOffset := Frame.find?_declare_self "offset" offset opened'
  have entered := entered.declare "offset" offset (by decide)
  refine Block.Runs.cons (Stmt.Acts.refuse (Expr.Acts.differ (.ident isOffset) (.ident summed)))
    fun _ => ?_
  refine Block.Runs.cons (Stmt.Acts.declareAs (Expr.Acts.calldataloadAt
    (Expr.Acts.sum (sees.callHead _ entered) (.ident isOffset)))) fun elemLength => ?_
  have summed := (Frame.find?_declare_of_ne (round.declare "offset" offset) elemLength
    (show "tailOffset" ≠ "elemLength" by decide)).trans summed
  have isLength := Frame.find?_declare_self "elemLength" elemLength
    (Frame.scopes_declare_ne_nil opened' "offset" offset)
  refine Block.Runs.cons (Stmt.Acts.refuse (Expr.Acts.above (.ident isLength) (bounded _)))
    fun _ => ?_
  have next := Stmt.Acts.assignTo (Expr.Acts.sum (.ident summed) (measured _ _ (.ident isLength)))
    (assigned offset elemLength)
  refine Block.Runs.consValue next (Block.Runs.nil _ ?_)
  simp only [Frame.routine_declare, named]
  simp only [Frame.closed, Frame.counting, Frame.routine_declare]
  rfl

/-- The loop that turns the offsets of elements into pointers. -/
theorem linkTails_acts (sees : frame.Sees unit length target count source current)
    (seesMemory : frame.SeesMemory unit length target current) :
    Stmt.Acts unit current
      (.count "i" frame.length
        [.declareAs "mPtrElem" (headSlot frame.memoryHead),
         .mstore (.ident "mPtrElem") (.add frame.memoryHead (.mload (.ident "mPtrElem")))])
      (Machine.rounds (fun index _ => linkTail (target + leadSize length) index) count.toNat 0#256 ())
      fun _ => current := by
  refine Stmt.Acts.count _ _
    (fun _ index => sees.counted _ ((Frame.AgreesOn.refl _ _).counting index (by decide)))
    (fun _ index => ?_) ()
  have entered : current.AgreesOn placeNames (current.counting "i" index).opened :=
    agreesOn_loop _ _ index (by decide)
  refine Block.Runs.consValue (Stmt.Acts.declareAs
    (headSlot_acts (seesMemory _ entered) (find?_index current index))) ?_
  have inside : (current.counting "i" index).opened.scopes ≠ [] := by simp [Frame.opened]
  have slot := Frame.find?_declare_self "mPtrElem" (wordSlot (target + leadSize length) index) inside
  have entered := entered.declare "mPtrElem" (wordSlot (target + leadSize length) index) (by decide)
  have linked := Stmt.Acts.mstoreAt (.ident slot)
    (Expr.Acts.add (seesMemory _ entered) (Expr.Acts.mloadAt (.ident slot)))
  simp only [pure_bind, bind_assoc] at linked
  exact Block.Runs.last linked fun _ => rfl

/-- The code of a decoder that checks tails, given the expressions that were emitted for it. -/
theorem dynamicTail_serves {bound elementSize oneWord : Expr} {extent : Word → Word} (name : String)
    (pointed : freePointer.IsNumber unit freeSlot) (stands : frame.Stands unit freePointer length)
    (bounded : bound.IsNumber unit maxLength) (lead : oneWord.IsNumber unit (leadSize length))
    (measured : ∀ later value, Expr.Acts unit later (.ident "elemLength") (pure value) →
      Expr.Acts unit later elementSize (pure (extent value))) :
    ServesDecoding name (decodeDynamicTail length extent) unit
      (frame.routine name
        ((if frame.dynamic then [revertIf (.gt (.ident "length") bound)] else []) ++
          [.declareAs "tailOffset" frame.headSize,
           .count "i" frame.length
            [.declareAs "offset" (.calldataload (headSlot frame.callHead)),
             revertIf (.iszero (.eq (.ident "offset") (.ident "tailOffset"))),
             .declareAs "elemLength" (.calldataload (.add frame.callHead (.ident "offset"))),
             revertIf (.gt (.ident "elemLength") bound),
             .assignTo "tailOffset" (.add (.ident "tailOffset") elementSize)]] ++
          [.declareAs "size" (.add (.ident "tailOffset") oneWord),
           revertIf (.gt (.add (.ident frame.param) (.ident "size")) .calldatasize),
           .calldatacopy (.ident frame.result) (.ident frame.param) (.ident "size"),
           .mstore freePointer (.add (.ident frame.result) (.ident "size"))] ++
          (if frame.dynamic then [.declareAs "mPtrHead" (.add (.ident "mPtrLength") oneWord)] else []) ++
          [.count "i" frame.length
            [.declareAs "mPtrElem" (headSlot frame.memoryHead),
             .mstore (.ident "mPtrElem") (.add frame.memoryHead (.mload (.ident "mPtrElem")))]])) := by
  refine ServesDecoding.of_runs stands.different fun source => ?_
  refine stands.opening_runs pointed name source fun target count current sees closed inside => ?_
  simp only [List.append_assoc]
  refine checkCount_runs stands sees bounded ?_
  refine Block.Runs.consValue (Stmt.Acts.declareAs (sees.headSize current (.refl _ _))) ?_
  refine Block.Runs.cons (checkTails_runs sees inside bounded measured _) fun tailOffset => ?_
  let size := tailOffset + leadSize length
  have summed := Frame.find?_declare_self "tailOffset" tailOffset inside
  have inside' := Frame.scopes_declare_ne_nil inside "tailOffset" tailOffset
  refine Block.Runs.consValue (Stmt.Acts.declareAs (Expr.Acts.sum (.ident summed) (lead _))) ?_
  have sees := sees.later (((Frame.AgreesOn.refl callNames current).declare "tailOffset" tailOffset
    (by decide)).declare "size" size (by decide))
  have isSize := Frame.find?_declare_self "size" size inside'
  have closes : ((current.declare "tailOffset" tailOffset).declare "size" size).closed =
      ⟨name, [[(frame.result, target), (frame.param, source)]]⟩ := by
    rw [Frame.closed_declare, Frame.closed_declare, closed]
  have inside := Frame.scopes_declare_ne_nil inside' "size" size
  generalize (current.declare "tailOffset" tailOffset).declare "size" size = current at *
  have fits := Stmt.Acts.revertIf (Expr.Acts.greater
    (Expr.Acts.sum (sees.param current (.refl _ _)) (.ident isSize)) Expr.Acts.calldatasize)
  simp only [pure_bind, bind_assoc] at fits
  have rest : Block.Runs unit current
      ([.calldatacopy (.ident frame.result) (.ident frame.param) (.ident "size"),
          .mstore freePointer (.add (.ident frame.result) (.ident "size"))] ++
        ((if frame.dynamic then [.declareAs "mPtrHead" (.add (.ident "mPtrLength") oneWord)] else []) ++
          [.count "i" frame.length
            [.declareAs "mPtrElem" (headSlot frame.memoryHead),
             .mstore (.ident "mPtrElem") (.add frame.memoryHead (.mload (.ident "mPtrElem")))]]))
      (do
        Machine.calldatacopy target source size
        Machine.mstore freeSlot (target + size)
        Machine.rounds (fun index _ => linkTail (target + leadSize length) index) count.toNat 0#256 ()
        return target) fun target => ⟨name, [[(frame.result, target), (frame.param, source)]]⟩ := by
    refine Block.Runs.cons (Stmt.Acts.calldatacopy (sees.result current (.refl _ _))
      (sees.param current (.refl _ _)) (.ident isSize)) fun _ => ?_
    refine Block.Runs.cons (Stmt.Acts.store (pointed _)
      (Expr.Acts.sum (sees.result current (.refl _ _)) (.ident isSize))) fun _ => ?_
    cases length with
    | none =>
      have dynamic : frame.dynamic = true := by
        obtain ⟨_, _, rfl⟩ := stands
        rfl
      rw [dynamic]
      refine sees.declareHead stands lead inside fun later sees seesMemory ended _ => ?_
      exact Block.Runs.cons (linkTails_acts sees seesMemory) fun _ => Block.Runs.nil target (ended.trans closes)
    | some fixed =>
      have static : frame.dynamic = false := by
        obtain ⟨_, _, rfl⟩ := stands
        rfl
      rw [static]
      exact Block.Runs.cons (linkTails_acts sees (sees.seesMemory stands)) fun _ =>
        Block.Runs.nil target closes
  have whole := Block.Runs.cons fits fun _ => rest
  simp only [bind_assoc] at whole
  exact whole

/-- The decoder of arrays of one dynamic level. -/
theorem dynamicTailDecoder_gives (freePointer : Expr) (frame : ArrayFrame) (base : Shape) (name : String) :
    Emission.Gives promise pending (dynamicTailDecoder settings freePointer frame base name)
      fun unit routine => ∀ length, freePointer.IsNumber unit freeSlot →
        frame.Stands unit freePointer length →
        ServesDecoding name (decodeDynamicTail length (tailExtent base)) unit routine := by
  refine (Offsets.fixed_gives _ .maxLength).andThen fun bound => ?_
  refine (elementTailSize_gives base _).andThen fun elementSize => ?_
  dsimp only
  by_cases dynamic : frame.dynamic
  · simp only [dynamic, if_true]
    refine (Offsets.words_gives _ wordBytes).andThen fun oneWord => .pure ?_
    intro unit one measured bounded length pointed stands
    have lead : oneWord.IsNumber unit (leadSize length) := by
      cases length with
      | none => exact one
      | some count =>
        obtain ⟨_, _, rfl⟩ := stands
        cases dynamic
    have serves := dynamicTail_serves name pointed stands bounded lead measured
    simp only [dynamic, if_true] at serves
    exact serves
  · simp only [dynamic]
    refine .pure fun unit measured bounded length pointed stands => ?_
    have lead : (Expr.number 0).IsNumber unit (leadSize length) := by
      cases length with
      | none =>
        obtain ⟨_, _, rfl⟩ := stands
        exact absurd rfl dynamic
      | some count => exact fun _ => Expr.Acts.number 0
    have serves := dynamicTail_serves name pointed stands bounded lead measured
    simp only [dynamic] at serves
    exact serves

end

/-! ### Elements that are decoded by others -/

section

variable {promise : Promise} {pending : List RequestKey} {settings : Settings} {unit : CodeUnit}
  {freePointer : Expr} {length : Option Nat} {frame : ArrayFrame} {target count source : Word}
  {current : Frame} {cap : Nat}

/-- The word of a decoded value, behind whatever gives the address of its encoding. -/
theorem decodedWord_acts {shape : Shape} {handling : Handling} (h : handling.Decodes unit cap shape)
    {address : Expr} {effect : MachineStep Word} (acts : Expr.Acts unit current address effect) :
    Expr.Acts unit current (decodedWord handling address) (effect >>= decodeAt cap shape) := by
  cases handling with
  | inline =>
    have loaded := Expr.Acts.calldataload acts
    have same : decodeAt cap shape = Machine.calldataload := funext (decodeAt_of_isValueType h)
    rw [same]
    exact loaded
  | routine name => exact Expr.Acts.call (Expr.ArgsAct.one acts) h

/-- Whether an expression gives the address of an encoded element, given the address of the heads. -/
def LocatesElement (unit : CodeUnit) (base : Shape) (callHead element : Expr) : Prop :=
  ∀ inner head index, Expr.Acts unit inner callHead (pure head) → inner.find? "i" = some index →
    Expr.Acts unit inner element
      (partAt base.isDynamicallyEncoded head (head + index * Word.ofNat base.headBytes))

/-- An element that is encoded dynamically lies behind the offset in its head. -/
theorem LocatesElement.dynamic {base : Shape} (dynamic : base.isDynamicallyEncoded = true) (callHead : Expr) :
    LocatesElement unit base callHead (.add callHead (.calldataload (headSlot callHead))) := by
  intro inner head index acts found
  have element := Expr.Acts.add acts (Expr.Acts.calldataloadAt (headSlot_acts acts found))
  have bytes : base.headBytes = 32 := by simp [Shape.headBytes, dynamic, wordBytes]
  simpa [partAt, dynamic, bytes, wordSlot] using element

/-- An element that is encoded statically lies in place. -/
theorem LocatesElement.static {base : Shape} (static : ¬ base.isDynamicallyEncoded = true) {size : Nat}
    (measured : base.headSize = .ok size) {stride : Expr} (strided : stride.IsNumber unit (Word.ofNat size))
    (callHead : Expr) :
    LocatesElement unit base callHead (.add callHead (.mul (.ident "i") stride)) := by
  intro inner head index acts found
  have element := Expr.Acts.sum acts (Expr.Acts.product (.ident found) (strided inner))
  rw [← Shape.headSize_eq measured]
  simpa [partAt, static] using element

/-- The code of a decoder that calls others, given the expressions that were emitted for it. -/
theorem separateTail_serves {base : Shape} {lengthPart : Block} {element : Expr} {handling : Handling}
    (name : String) (pointed : freePointer.IsNumber unit freeSlot)
    (stands : frame.Stands unit freePointer length) (stored : frame.StoresLength unit lengthPart)
    (located : LocatesElement unit base frame.callHead element) (decodes : handling.Decodes unit cap base) :
    ServesDecoding name (decodeSeparate length base (decodeAt cap base)) unit
      (frame.routine name (lengthPart ++
        [.mstore freePointer (.add frame.memoryHead frame.headSize),
         .count "i" frame.length
           [.declareAs "cdPtrElem" element,
            .mstore (headSlot frame.memoryHead) (decodedWord handling (.ident "cdPtrElem"))]])) := by
  refine ServesDecoding.of_runs stands.different fun source => ?_
  refine stands.opening_runs pointed name source fun target count current sees closed inside => ?_
  refine stored stands sees inside fun later sees seesMemory ended inside => ?_
  refine Block.Runs.cons (Stmt.Acts.store (pointed _) (Expr.Acts.sum (seesMemory later (.refl _ _))
    (sees.headSize later (.refl _ _)))) fun _ => ?_
  have looped : Stmt.Acts unit later (.count "i" frame.length [.declareAs "cdPtrElem" element,
      .mstore (headSlot frame.memoryHead) (decodedWord handling (.ident "cdPtrElem"))])
      (Machine.rounds (fun index _ => do
        let part ← partAt base.isDynamicallyEncoded (source + leadSize length)
          (source + leadSize length + index * Word.ofNat base.headBytes)
        let word ← decodeAt cap base part
        Machine.mstore (wordSlot (target + leadSize length) index) word) count.toNat 0#256 ()) fun _ => later := by
    refine Stmt.Acts.count (fun _ : Unit => later) _
      (fun _ index => sees.counted _ ((Frame.AgreesOn.refl _ _).counting index (by decide))) ?_ ()
    intro _ index
    have entered : later.AgreesOn placeNames (later.counting "i" index).opened :=
      agreesOn_loop _ _ index (by decide)
    have seen := sees.callHead _ (entered.mono (List.subset_cons_self _ _))
    refine Block.Runs.cons (Stmt.Acts.declareAs (located _ _ index seen (find?_index later index)))
      fun part => ?_
    have isPart : ((later.counting "i" index).opened.declare "cdPtrElem" part).find? "cdPtrElem" = some part :=
      Frame.find?_declare_self "cdPtrElem" part (by simp [Frame.opened])
    have indexed := (Frame.find?_declare_of_ne (later.counting "i" index).opened part
      (show "i" ≠ "cdPtrElem" by decide)).trans (find?_index later index)
    have entered := entered.declare "cdPtrElem" part (by decide)
    have decoded := decodedWord_acts decodes (Expr.Acts.ident isPart)
    rw [pure_bind] at decoded
    exact Block.Runs.last (Stmt.Acts.mstoreAt (headSlot_acts (seesMemory _ entered) indexed) decoded)
      fun _ => rfl
  exact Block.Runs.cons looped fun _ => Block.Runs.nil target (ended.trans closed)

/-- The decoder of arrays whose elements are decoded one by one. -/
theorem separateTailDecoder_gives (freePointer : Expr) (frame : ArrayFrame) (base : Shape)
    {decodeElement : Emission Handling} (name : String)
    (handled : Emission.Gives promise pending decodeElement fun unit handling =>
      handling.Decodes unit cap base) :
    Emission.Gives promise pending
      (separateTailDecoder settings freePointer frame base decodeElement name)
      fun unit routine => ∀ length, freePointer.IsNumber unit freeSlot →
        frame.Stands unit freePointer length →
        ServesDecoding name (decodeSeparate length base (decodeAt cap base)) unit routine := by
  refine (storeLength_gives frame).andThen fun lengthPart => ?_
  by_cases dynamic : base.isDynamicallyEncoded
  · simp only [dynamic, if_true]
    refine handled.andThen fun handling => .pure ?_
    intro unit decodes stored length pointed stands
    exact separateTail_serves name pointed stands stored (.dynamic dynamic _) decodes
  · simp only [dynamic]
    refine (Emission.Gives.lift base.headSize).andThen fun size => ?_
    refine (Offsets.words_gives _ size).andThen fun stride => ?_
    refine handled.andThen fun handling => .pure ?_
    intro unit decodes strided measured stored length pointed stands
    exact separateTail_serves name pointed stands stored (.static dynamic measured strided _) decodes

/-- The decoder of an array. -/
theorem arrayDecoder_gives (base : Shape) (length : Option Nat) {decodeElement : Emission Handling}
    (name : String) (handled : Emission.Gives promise pending decodeElement fun unit handling =>
      handling.Decodes unit cap base) :
    Emission.Gives promise pending (arrayDecoder settings base length decodeElement name)
      (ServesDecoding name (decodeAt cap (.array base length))) := by
  refine (Offsets.fixed_gives _ .freePointerSlot).andThen fun freePointer => ?_
  cases strategy : base.elementStrategy with
  | valueInline =>
    have same : decodeAt cap (.array base length) = decodeCopy (wordsExtentAt length) := by
      funext source
      simp only [decodeAt, strategy]
    rw [same]
    exact wordArrayDecoder_gives freePointer length name
  | combinedStaticTail =>
    have same : decodeAt cap (.array base length) =
        decodeStaticTail length (Word.ofNat base.staticBytes) := by
      funext source
      simp only [decodeAt, strategy]
    rw [same]
    refine (decodeFrame_gives freePointer length).andThen fun frame => ?_
    exact (staticTailDecoder_gives freePointer frame base name).weaken
      fun unit routine given stands pointed => given length pointed stands
  | combinedDynamicTail =>
    have same : decodeAt cap (.array base length) = decodeDynamicTail length (tailExtent base) := by
      funext source
      simp only [decodeAt, strategy]
    rw [same]
    refine (decodeFrame_gives freePointer length).andThen fun frame => ?_
    exact (dynamicTailDecoder_gives freePointer frame base name).weaken
      fun unit routine given stands pointed => given length pointed stands
  | separateTail =>
    have same : decodeAt cap (.array base length) = decodeSeparate length base (decodeAt cap base) := by
      funext source
      simp only [decodeAt, strategy]
    rw [same]
    refine (decodeFrame_gives freePointer length).andThen fun frame => ?_
    exact (separateTailDecoder_gives freePointer frame base name handled).weaken
      fun unit routine given stands pointed => given length pointed stands

end

end YulAbi.Codec
