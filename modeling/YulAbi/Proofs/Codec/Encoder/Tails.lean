import YulAbi.Proofs.Codec.Encoder.Array

/-!
# Generated encoders of arrays with tails

The encoder of arrays whose elements are bytes, text or arrays of words, the encoder of arrays
whose elements are encoded one by one, and the choice between the encoders of arrays. In the
former a variable keeps where the next tail begins; each round writes this into the head of
one element and copies the element there. What encodes an element in the latter is any routine
that does what `encodeAt` says.
-/

namespace YulAbi.Codec

open Yul (Expr Stmt Block Routine Frame Scope)

section

variable {promise : Promise} {pending : List RequestKey} {settings : Settings} {unit : CodeUnit}
  {length : Option Nat} {frame : EncodeFrame} {count pointer target : Word} {current : Frame}
  {name : String} {own : Scope}

/-- The statements that copy one tail. -/
def copyStmts (bytesLike : Bool) (tail oneWord : Expr) : Block :=
  if bytesLike then
    [Stmt.mstore (.add tail (.sub (.ident "elemSize") oneWord)) (.number 0),
     Stmt.mcopy tail (.ident "mPtrElem") (.add (.ident "elemLength") oneWord)]
  else [Stmt.mcopy tail (.ident "mPtrElem") (.ident "elemSize")]

/-- The copy of one tail. -/
theorem copyTail_does {tail oneWord : Expr} {address part length size : Word} (bytesLike : Bool)
    (one : oneWord.IsNumber unit 32#256) (placed : Expr.Acts unit current tail (pure address))
    (isPart : current.find? "mPtrElem" = some part) (isLength : current.find? "elemLength" = some length)
    (isSize : current.find? "elemSize" = some size) :
    Block.Does unit current (copyStmts bytesLike tail oneWord)
      (copyTail bytesLike part length size address) := by
  cases bytesLike with
  | true =>
    have last := Expr.Acts.sum placed (Expr.Acts.difference (Expr.Acts.ident isSize) (one current))
    have zeroed := Stmt.Acts.store last (Expr.Acts.number 0)
    have copied := Stmt.Acts.mcopy placed (.ident isPart) (Expr.Acts.sum (.ident isLength) (one current))
    exact Block.Does.cons zeroed (by simpa using Block.Does.cons copied Block.Does.nil)
  | false =>
    have copied := Stmt.Acts.mcopy placed (.ident isPart) (.ident isSize)
    have does := Block.Does.cons copied Block.Does.nil
    rw [bind_pure_unit] at does
    exact does

/-- The round that writes one element. -/
theorem encodeTail_runs {elementSize oneWord : Expr} {extent : Word → Word} (bytesLike : Bool)
    (one : oneWord.IsNumber unit 32#256)
    (sees : frame.Sees unit length count pointer target current) (inside : current.scopes ≠ [])
    (measured : ∀ later value, Expr.Acts unit later (.ident "elemLength") (pure value) →
      Expr.Acts unit later elementSize (pure (extent value))) (index last : Word) :
    Block.Runs unit ((current.declare "tailOffset" last).counting "i" index).opened
      ([.declareAs "mPtrElem" frame.elementPointer,
        .mstore (headSlot frame.targetHead) (.ident "tailOffset"),
        .declareAs "elemLength" (.mload (.ident "mPtrElem")),
        .declareAs "elemSize" elementSize] ++
        copyStmts bytesLike (.add frame.targetHead (.ident "tailOffset")) oneWord ++
        [.assignTo "tailOffset" (.add (.ident "tailOffset") (.ident "elemSize"))])
      (encodeTail bytesLike extent (pointer + leadSize length) (target + leadSize length) index last)
      fun next => (current.declare "tailOffset" next).counting "i" index := by
  have entered : current.AgreesOn encodeNames ((current.declare "tailOffset" last).counting "i" index).opened :=
    ((Frame.AgreesOn.refl _ _).declare _ last (by decide)).trans
      (agreesOn_loop _ _ index (by decide))
  have indexed := find?_index (current.declare "tailOffset" last) index
  have summed : ((current.declare "tailOffset" last).counting "i" index).opened.find? "tailOffset" =
      some last := by
    rw [Frame.find?_opened, Frame.find?_counting_of_ne _ _ (by decide),
      Frame.find?_declare_self _ _ inside]
  have assigned : ∀ part elemLength elemSize next, Frame.assignIn "tailOffset" next
      (((((current.declare "tailOffset" last).counting "i" index).opened.declare "mPtrElem" part).declare
        "elemLength" elemLength).declare "elemSize" elemSize).scopes =
      some (((((current.declare "tailOffset" next).counting "i" index).opened.declare "mPtrElem" part).declare
        "elemLength" elemLength).declare "elemSize" elemSize).scopes := fun part elemLength elemSize next =>
    Frame.assignIn_cons rfl next (Frame.assignIn_cons rfl next
      (Frame.assignIn_declare inside "tailOffset" last next))
  have opened' : ((current.declare "tailOffset" last).counting "i" index).opened.scopes ≠ [] := by
    simp [Frame.opened]
  have named : ((current.declare "tailOffset" last).counting "i" index).opened.routine = current.routine :=
    Frame.routine_declare current "tailOffset" last
  generalize ((current.declare "tailOffset" last).counting "i" index).opened = round at *
  unfold encodeTail
  refine Block.Runs.cons (Stmt.Acts.declareAs (sees.elementPointer_acts entered indexed)) fun part => ?_
  have summed := (Frame.find?_declare_of_ne round part (show "tailOffset" ≠ "mPtrElem" by decide)).trans summed
  have indexed := (Frame.find?_declare_of_ne round part (show "i" ≠ "mPtrElem" by decide)).trans indexed
  have isPart := Frame.find?_declare_self "mPtrElem" part opened'
  have entered := entered.declare "mPtrElem" part (by decide)
  have inside' := Frame.scopes_declare_ne_nil opened' "mPtrElem" part
  refine Block.Runs.cons (Stmt.Acts.store (headSlot_acts (sees.targetHead _ entered) indexed)
    (.ident summed)) fun _ => ?_
  refine Block.Runs.cons (Stmt.Acts.declareAs (Expr.Acts.mloadAt (.ident isPart))) fun elemLength => ?_
  have isLength := Frame.find?_declare_self "elemLength" elemLength inside'
  refine Block.Runs.consValue (Stmt.Acts.declareAs (measured _ _ (.ident isLength))) ?_
  have named' : (((round.declare "mPtrElem" part).declare "elemLength" elemLength).declare "elemSize"
      (extent elemLength)).routine = current.routine := by
    simp only [Frame.routine_declare, named]
  have isSize := Frame.find?_declare_self "elemSize" (extent elemLength)
    (Frame.scopes_declare_ne_nil inside' "elemLength" elemLength)
  have isLength := (Frame.find?_declare_of_ne _ (extent elemLength)
    (show "elemLength" ≠ "elemSize" by decide)).trans isLength
  have summed := ((Frame.find?_declare_of_ne _ (extent elemLength)
    (show "tailOffset" ≠ "elemSize" by decide)).trans
      (Frame.find?_declare_of_ne _ elemLength (show "tailOffset" ≠ "elemLength" by decide))).trans summed
  have isPart := ((Frame.find?_declare_of_ne _ (extent elemLength)
    (show "mPtrElem" ≠ "elemSize" by decide)).trans
      (Frame.find?_declare_of_ne _ elemLength (show "mPtrElem" ≠ "elemLength" by decide))).trans isPart
  have entered := (entered.declare "elemLength" elemLength (by decide)).declare "elemSize"
    (extent elemLength) (by decide)
  refine copyTail_does bytesLike one (Expr.Acts.sum (sees.targetHead _ entered) (.ident summed))
    isPart isLength isSize _ _ _ _ ?_
  have sum : Expr.Acts unit _ (.add (.ident "tailOffset") (.ident "elemSize")) (pure (last + extent elemLength)) :=
    Expr.Acts.sum (.ident summed) (.ident isSize)
  have next := Stmt.Acts.assignTo sum (assigned part elemLength (extent elemLength))
  refine Block.Runs.consValue next (Block.Runs.nil _ ?_)
  rw [named']
  simp only [Frame.closed, Frame.counting, Frame.routine_declare]
  rfl

/-- The encoder of arrays of one dynamic level. -/
theorem dynamicTailEncoder_gives (oneWord : Expr) (frame : EncodeFrame) (base : Shape) (name : String) :
    Emission.Gives promise pending (dynamicTailEncoder settings oneWord frame base name)
      fun unit routine => ∀ length, oneWord.IsNumber unit 32#256 → frame.Stands unit length →
        ServesEncoding name (encodeDynamicTail length base.isBytesLike (tailExtent base)) unit routine := by
  refine (elementTailSize_gives base _).andThen fun elementSize => .pure ?_
  intro unit measured length one stands
  refine ServesEncoding.of_runs stands.different fun pointer target => ?_
  refine stands.opening_runs name pointer target fun count own visible sees => ?_
  let current := encoderFrame name frame.param own 0#256 pointer target
  have inside : current.scopes ≠ [] := by simp [current, encoderFrame]
  refine Block.Runs.consValue (Stmt.Acts.declareAs (sees.headSize current (.refl _ _))) ?_
  have looped := Stmt.Acts.count _ _
    (fun last index => sees.counted _ (((Frame.AgreesOn.refl _ _).declare _ last (by decide)).counting index
      (by decide)))
    (fun last index => encodeTail_runs base.isBytesLike one sees inside measured index last)
    (count * 32#256)
  refine Block.Runs.cons looped fun last => ?_
  have hidden : (Scope.declare own "tailOffset" last).find? "size" = none :=
    (Scope.find?_declare_of_ne own last (by decide)).trans visible
  have later : frame.Sees unit length count pointer target
      (encoderFrame name frame.param (own.declare "tailOffset" last) 0#256 pointer target) :=
    sees.later ((Frame.AgreesOn.refl _ _).declare _ last (by decide))
  exact later.assignSize_runs stands.different.2 hidden
    (.ident (Frame.find?_declare_self "tailOffset" last inside))

end

/-! ### Elements that are encoded by others -/

section

variable {promise : Promise} {pending : List RequestKey} {settings : Settings} {unit : CodeUnit}
  {length : Option Nat} {frame : EncodeFrame} {count pointer target : Word} {current : Frame}
  {name : String} {own : Scope} {cap : Nat}

/-- A call of an encoder; the address acts before the pointer. -/
theorem encoderCall_acts {shape : Shape} {encoder : String}
    (encodes : Handling.Encodes unit cap shape (.routine encoder)) {value address : Expr}
    {effect : MachineStep Word} {x : Word} (pointed : Expr.Acts unit current value effect)
    (placed : Expr.Acts unit current address (pure x)) :
    Expr.Acts unit current (.call encoder [value, address])
      (effect >>= fun part => encodeAt cap shape part x) := by
  have args := Expr.ArgsAct.two pointed placed
  rw [pure_bind] at args
  exact Expr.Acts.call args fun part => encodes part x

/-- The round that encodes one element behind the others. -/
theorem encodeBehind_runs {base : Shape} {encoder : String}
    (sees : frame.Sees unit length count pointer target current) (inside : current.scopes ≠ [])
    (encodes : Handling.Encodes unit cap base (.routine encoder)) (index last : Word) :
    Block.Runs unit ((current.declare "tailOffset" last).counting "i" index).opened
      [.mstore (headSlot frame.targetHead) (.ident "tailOffset"),
       .assignTo "tailOffset" (.add (.ident "tailOffset")
         (.call encoder [frame.elementPointer, .add frame.targetHead (.ident "tailOffset")]))]
      (encodeBehind (encodeAt cap base) (pointer + leadSize length) (target + leadSize length) index last)
      fun next => (current.declare "tailOffset" next).counting "i" index := by
  have entered : current.AgreesOn encodeNames ((current.declare "tailOffset" last).counting "i" index).opened :=
    ((Frame.AgreesOn.refl _ _).declare _ last (by decide)).trans
      (agreesOn_loop _ _ index (by decide))
  have indexed := find?_index (current.declare "tailOffset" last) index
  have summed : ((current.declare "tailOffset" last).counting "i" index).opened.find? "tailOffset" =
      some last := by
    rw [Frame.find?_opened, Frame.find?_counting_of_ne _ _ (by decide),
      Frame.find?_declare_self _ _ inside]
  have assigned : ∀ next, Frame.assignIn "tailOffset" next
      ((current.declare "tailOffset" last).counting "i" index).opened.scopes =
      some ((current.declare "tailOffset" next).counting "i" index).opened.scopes := fun next =>
    Frame.assignIn_cons rfl next (Frame.assignIn_cons rfl next
      (Frame.assignIn_declare inside "tailOffset" last next))
  have named : ((current.declare "tailOffset" last).counting "i" index).opened.routine = current.routine :=
    Frame.routine_declare current "tailOffset" last
  generalize ((current.declare "tailOffset" last).counting "i" index).opened = round at *
  refine Block.Runs.cons (Stmt.Acts.store (headSlot_acts (sees.targetHead _ entered) indexed)
    (.ident summed)) fun _ => ?_
  have written := Expr.Acts.add (Expr.Acts.ident summed) (encoderCall_acts encodes
    (sees.elementPointer_acts entered indexed) (Expr.Acts.sum (sees.targetHead _ entered) (.ident summed)))
  simp only [pure_bind, bind_assoc] at written
  refine Block.Runs.last (Stmt.Acts.assignTo written assigned) fun next => ?_
  rw [named]
  simp only [Frame.closed, Frame.counting, Frame.routine_declare]
  rfl

/-- The encoder of arrays whose elements are encoded one by one. -/
theorem separateTailEncoder_gives (frame : EncodeFrame) (base : Shape) {encodeElement : Emission Handling}
    (name : String) (handled : Emission.Gives promise pending encodeElement fun unit handling =>
      handling.Encodes unit cap base) :
    Emission.Gives promise pending (separateTailEncoder settings frame base encodeElement name)
      fun unit routine => ∀ length, frame.Stands unit length →
        ServesEncoding name (encodeSeparate length base (encodeAt cap base)) unit routine := by
  refine handled.andThen fun handling => ?_
  cases handling with
  | inline => exact Emission.Gives.throw (.unsupportedShape base.identifier .encode)
  | routine encoder =>
    simp only [pure_bind]
    by_cases dynamic : base.isDynamicallyEncoded
    · simp only [dynamic, if_true]
      refine .pure fun unit encodes length stands => ?_
      refine ServesEncoding.of_runs stands.different fun pointer target => ?_
      simp only [encodeSeparate, dynamic, if_true]
      refine stands.opening_runs name pointer target fun count own visible sees => ?_
      let current := encoderFrame name frame.param own 0#256 pointer target
      have inside : current.scopes ≠ [] := by simp [current, encoderFrame]
      refine Block.Runs.consValue (Stmt.Acts.declareAs (sees.headSize current (.refl _ _))) ?_
      have looped := Stmt.Acts.count _ _
        (fun last index => sees.counted _ (((Frame.AgreesOn.refl _ _).declare _ last (by decide)).counting
          index (by decide)))
        (fun last index => encodeBehind_runs sees inside encodes index last) (count * 32#256)
      refine Block.Runs.cons looped fun last => ?_
      have hidden : (Scope.declare own "tailOffset" last).find? "size" = none :=
        (Scope.find?_declare_of_ne own last (by decide)).trans visible
      have later : frame.Sees unit length count pointer target
          (encoderFrame name frame.param (own.declare "tailOffset" last) 0#256 pointer target) :=
        sees.later ((Frame.AgreesOn.refl _ _).declare _ last (by decide))
      exact later.assignSize_runs stands.different.2 hidden
        (.ident (Frame.find?_declare_self "tailOffset" last inside))
    · simp only [dynamic]
      refine (Emission.Gives.lift base.headSize).andThen fun size => ?_
      refine (Offsets.words_gives _ size).andThen fun stride => .pure ?_
      intro unit strided measured encodes length stands
      rw [Shape.headSize_eq measured] at strided
      refine ServesEncoding.of_runs stands.different fun pointer target => ?_
      simp only [encodeSeparate, dynamic]
      refine stands.opening_runs name pointer target fun count own visible sees => ?_
      let current := encoderFrame name frame.param own 0#256 pointer target
      have looped : Stmt.Acts unit current (.count "i" frame.length
          [drop (.call encoder [frame.elementPointer, .add frame.targetHead (.mul (.ident "i") stride)])])
          (Machine.rounds (fun index _ => encodeInPlace (encodeAt cap base) (Word.ofNat base.headBytes)
            (pointer + leadSize length) (target + leadSize length) index) count.toNat 0#256 ())
          fun _ => current := by
        refine Stmt.Acts.count (fun _ : Unit => current) _
          (fun _ index => sees.counted _ ((Frame.AgreesOn.refl _ _).counting index (by decide))) ?_ ()
        intro _ index
        have entered := agreesOn_loop current encodeNames index (by decide)
        have indexed := find?_index current index
        have written := encoderCall_acts encodes (sees.elementPointer_acts entered indexed)
          (Expr.Acts.sum (sees.targetHead _ entered) (Expr.Acts.product (.ident indexed) (strided _)))
        have ended : Block.Runs unit (current.counting "i" index).opened [] (pure ())
            fun _ => current.counting "i" index := Block.Runs.nil () rfl
        have dropped := Block.Runs.cons (Stmt.Acts.drop written) fun _ => ended
        rw [bind_assoc] at dropped
        exact dropped
      refine Block.Runs.cons looped fun _ => ?_
      exact sees.assignSize_runs stands.different.2 visible
        (Expr.Acts.product (sees.counted _ (.refl _ _)) (strided _))

/-- The encoder of an array. -/
theorem arrayEncoder_gives (base : Shape) (length : Option Nat) {encodeElement : Emission Handling}
    (name : String) (handled : Emission.Gives promise pending encodeElement fun unit handling =>
      handling.Encodes unit cap base) :
    Emission.Gives promise pending (arrayEncoder settings base length encodeElement name)
      (ServesEncoding name (encodeAt cap (.array base length))) := by
  refine (Offsets.words_gives _ wordBytes).andThen fun oneWord => ?_
  cases strategy : base.elementStrategy with
  | valueInline =>
    have same : encodeAt cap (.array base length) = encodeWordsAt length := by
      funext pointer target
      simp only [encodeAt, strategy]
    rw [same]
    exact (wordArrayEncoder_gives length name).weaken fun unit routine given _ => given
  | combinedStaticTail =>
    have same : encodeAt cap (.array base length) =
        encodeStaticTail length (Word.ofNat base.staticBytes) := by
      funext pointer target
      simp only [encodeAt, strategy]
    rw [same]
    refine (encodeFrame_gives oneWord length).andThen fun frame => ?_
    exact (staticTailEncoder_gives frame base name).weaken
      fun unit routine given stands one => given length (stands one)
  | combinedDynamicTail =>
    have same : encodeAt cap (.array base length) =
        encodeDynamicTail length base.isBytesLike (tailExtent base) := by
      funext pointer target
      simp only [encodeAt, strategy]
    rw [same]
    refine (encodeFrame_gives oneWord length).andThen fun frame => ?_
    exact (dynamicTailEncoder_gives oneWord frame base name).weaken
      fun unit routine given stands one => given length one (stands one)
  | separateTail =>
    have same : encodeAt cap (.array base length) = encodeSeparate length base (encodeAt cap base) := by
      funext pointer target
      simp only [encodeAt, strategy]
    rw [same]
    refine (encodeFrame_gives oneWord length).andThen fun frame => ?_
    exact (separateTailEncoder_gives frame base name handled).weaken
      fun unit routine given stands one => given length (stands one)

end

end YulAbi.Codec
