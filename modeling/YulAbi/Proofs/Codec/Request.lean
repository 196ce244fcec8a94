import YulAbi.Proofs.Codec.DecodeStep
import YulAbi.Proofs.Offsets
import YulAbi.Proofs.Shape.Strategy

/-!
# Pieces of generated code

What the pieces of code that decoders and encoders share are worth: sizes of padded
bytes and of tails, the slots of a loop over elements and the offsets of members.
-/

namespace YulAbi.Codec

open Yul (Expr Stmt Block Routine Frame)

section

variable {promise : Promise} {pending : List RequestKey} {settings : Settings} {unit : CodeUnit}

/-- The size of a fixed number of words. -/
theorem ofNat_words (count : Nat) : Word.ofNat (count * wordBytes) = Word.ofNat count * 32#256 := by
  simp [Word.ofNat, wordBytes, BitVec.ofNat_mul]

/-- The size of padded bytes behind whatever gives their length. -/
theorem paddedBytesSize_gives (length : Expr) :
    Emission.Gives promise pending (paddedBytesSize settings length) fun unit size =>
      ∀ frame effect, Expr.Acts unit frame length effect →
        Expr.Acts unit frame size (do
          let value ← effect
          return paddedExtent value) := by
  refine (Offsets.fixed_gives _ .almostTwoWords).andThen fun almostTwo => ?_
  refine (Offsets.fixed_gives _ .fullWordMask).andThen fun mask => .pure ?_
  intro unit masked counted frame effect acts
  have sum := Expr.Acts.add acts (counted frame)
  have both := Expr.Acts.common sum (masked frame)
  simpa [paddedExtent, FixedConstant.value] using both

/-- The size of the tail of an element behind whatever gives its length. -/
theorem elementTailSize_gives (element : Shape) (length : Expr) :
    Emission.Gives promise pending (elementTailSize settings element length) fun unit size =>
      ∀ frame value, Expr.Acts unit frame length (pure value) →
        Expr.Acts unit frame size (pure (tailExtent element value)) := by
  have padded : Emission.Gives promise pending (paddedBytesSize settings length) fun unit size =>
      ∀ frame value, Expr.Acts unit frame length (pure value) →
        Expr.Acts unit frame size (pure (paddedExtent value)) := by
    refine (paddedBytesSize_gives length).weaken fun unit size given frame value acts => ?_
    simpa using given frame _ acts
  unfold elementTailSize
  split
  · exact padded
  · exact padded
  · split
    · exact .pure fun unit frame value acts =>
        Expr.Acts.wordsOf (Expr.Acts.sum acts (Expr.Acts.number 1))
    · exact .throw _
  · exact .throw _

/-- The size of padded bytes is there unless the name of one of its two constants stands for another value. -/
theorem paddedBytesSize_fails {length : Expr} {before : Workspace} {cause : GenerationError}
    (h : ((paddedBytesSize settings length).runOn before).1 = .error cause) :
    settings.namedConstants = true ∧ ∃ constant ∈ [FixedConstant.almostTwoWords, .fullWordMask], ∃ bound,
      before.unit.constant? constant.name = some bound ∧ bound ≠ constant.value ∧
        cause = .constantConflict constant.name bound constant.value := by
  rw [paddedBytesSize, Emission.runOn_bind] at h
  rcases Offsets.fixed_outcome settings.namedConstants .almostTwoWords before with
    ⟨almostTwo, reached, first, others⟩ | ⟨useNames, bound, found, apart, first⟩
  · rw [first] at h
    dsimp only at h
    rw [Emission.runOn_bind] at h
    rcases Offsets.fixed_outcome settings.namedConstants .fullWordMask reached with
      ⟨mask, after, second, -⟩ | ⟨useNames, bound, found, apart, second⟩
    · rw [second] at h
      cases h
    · rw [second] at h
      cases h
      rw [others _ (by decide)] at found
      exact ⟨useNames, .fullWordMask, by simp, bound, found, apart, rfl⟩
  · rw [first] at h
    cases h
    exact ⟨useNames, .almostTwoWords, by simp, bound, found, apart, rfl⟩

/-- So is the size of the tail of an element that is a run whose number of words varies. -/
theorem elementTailSize_fails {element : Shape} (run : element.isVaryingRun = true) {length : Expr} {before : Workspace}
    {cause : GenerationError} (h : ((elementTailSize settings element length).runOn before).1 = .error cause) :
    settings.namedConstants = true ∧ ∃ constant ∈ [FixedConstant.almostTwoWords, .fullWordMask], ∃ bound,
      before.unit.constant? constant.name = some bound ∧ bound ≠ constant.value ∧
        cause = .constantConflict constant.name bound constant.value := by
  cases element with
  | bytes | string => exact paddedBytesSize_fails h
  | array base size =>
    cases size with
    | none =>
      have value : base.isValueType = true := run
      rw [elementTailSize, if_pos value] at h
      cases h
    | some count => cases run
  | _ => cases run

/-- The address of the head word with the index of a loop. -/
theorem headSlot_acts {inner : Frame} {head : Expr} {x index : Word}
    (h : Expr.Acts unit inner head (pure x)) (found : inner.find? "i" = some index) :
    Expr.Acts unit inner (headSlot head) (pure (wordSlot x index)) :=
  Expr.Acts.sum h (Expr.Acts.wordsOf (.ident found))

/-- The variables of a loop over elements, without those of its body. -/
theorem find?_index (outer : Frame) (index : Word) : (outer.counting "i" index).opened.find? "i" = some index :=
  (Frame.find?_opened _ _).trans (Frame.find?_counting _ _ _)

/-- The loop over elements leaves the variables of an array. -/
theorem agreesOn_loop (outer : Frame) (names : List String) (index : Word) (apart : "i" ∉ names) :
    outer.AgreesOn names (outer.counting "i" index).opened :=
  ((Frame.AgreesOn.refl _ _).counting index apart).opened

end

section

variable {promise : Promise} {pending : List RequestKey} {settings : Settings} {type : SolType}
  {members : List Shape}

/-- The offset of the head of a member. -/
theorem callOffset_gives (composite : type.shape.IsComposite members) (index : Nat) :
    Emission.Gives promise pending (Offsets.member settings.namedConstants type index .calldata)
      fun unit offset =>
        offset.IsNumber unit (Word.ofNat (Shape.headBytesSum (members.take index))) := by
  refine (Offsets.member_gives _ type index .calldata).weaken fun unit offset given => ?_
  obtain ⟨size, measured, isNumber⟩ := given
  rw [(Shape.memberOffset_calldata composite measured).2] at isNumber
  exact isNumber

/-- The offset of the word of a member in memory. -/
theorem memoryOffset_gives (composite : type.shape.IsComposite members) (index : Nat) :
    Emission.Gives promise pending (Offsets.member settings.namedConstants type index .memory)
      fun unit offset => offset.IsNumber unit (Word.ofNat (index * wordBytes)) := by
  refine (Offsets.member_gives _ type index .memory).weaken fun unit offset given => ?_
  obtain ⟨size, measured, isNumber⟩ := given
  rw [(Shape.memberOffset_memory composite measured).2] at isNumber
  exact isNumber

end

end YulAbi.Codec
