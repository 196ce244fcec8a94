import YulAbi.Shape.Segments

/-!
# What measuring may fail with

Sizes, offsets and segments that do not exist are reported as such. In particular none of
them is mistaken for a conflict between routines or constants.
-/

namespace YulAbi

/-- Whether a name was in use already, for another routine or another value. -/
def GenerationError.isConflict : GenerationError → Bool
  | .routineConflict _ | .constantConflict .. => true
  | _ => false

/-- Whether a failure, if there is one, is no conflict. -/
def Measures {α : Type} (answer : Generated α) : Prop := ∀ cause, answer = .error cause → cause.isConflict = false

namespace Measures

variable {α β : Type}

/-- An answer is no failure. -/
theorem ok (value : α) : Measures (.ok value) := fun _ failed => nomatch failed

/-- A failure that is no conflict. -/
theorem error {cause : GenerationError} (clean : cause.isConflict = false) : Measures (.error cause : Generated α) := by
  rintro _ ⟨⟩
  exact clean

/-- Answers in a row. -/
theorem bind {first : Generated α} {next : α → Generated β} (h : Measures first)
    (h' : ∀ value, Measures (next value)) : Measures (first >>= next) := by
  intro cause failed
  cases first with
  | ok value => exact h' value cause failed
  | error earlier => exact h cause (by cases failed; rfl)

/-- No routine is in the way. -/
theorem routines {answer : Generated α} (h : Measures answer) (name : String) :
    answer ≠ .error (.routineConflict name) := fun failed => nomatch h _ failed

/-- No constant is in the way. -/
theorem constants {answer : Generated α} (h : Measures answer) (name : String) (existing requested : Word) :
    answer ≠ .error (.constantConflict name existing requested) := fun failed => nomatch h _ failed

end Measures

namespace Shape

/-- A size that does not exist. -/
theorem undefinedSize_measures {α : Type} (shape : Shape) (query : SizeQuery) :
    Measures (shape.undefinedSize query : Generated α) := .error rfl

/-- A product that is too large. -/
theorem checkedProduct_measures (shape : Shape) (left right : Nat) :
    Measures (shape.checkedProduct left right) := by
  unfold checkedProduct
  split
  · exact .ok _
  · exact .error rfl

mutual
/-- The size of a static encoding. -/
theorem encodedSize_measures (shape : Shape) : Measures shape.encodedSize := by
  rw [encodedSize.eq_def]
  split
  · exact undefinedSize_measures _ _
  · cases shape with
    | array base length =>
      cases length with
      | none => exact .ok _
      | some length => exact (encodedSize_measures base).bind fun _ => checkedProduct_measures _ _ _
    | struct name members => exact encodedSizeSum_measures members
    | tuple members => exact encodedSizeSum_measures members
    | error name parameters => exact encodedSizeSum_measures parameters
    | event name parameters indexed anonymous => exact encodedSizeSum_measures parameters
    | _ => exact .ok _
/-- The total size of static encodings. -/
theorem encodedSizeSum_measures (shapes : List Shape) : Measures (encodedSizeSum shapes) := by
  cases shapes with
  | nil => exact .ok _
  | cons shape rest =>
    rw [encodedSizeSum]
    exact (encodedSize_measures shape).bind fun _ => (encodedSizeSum_measures rest).bind fun _ => .ok _
end

/-- The size of a head. -/
theorem headSize_measures (shape : Shape) : Measures shape.headSize := by
  unfold headSize
  split
  · exact .ok _
  · exact encodedSize_measures shape

/-- The total size of heads. -/
theorem headSizeSum_measures (shapes : List Shape) : Measures (headSizeSum shapes) := by
  induction shapes with
  | nil => exact .ok _
  | cons shape rest ih =>
    rw [headSizeSum]
    exact (headSize_measures shape).bind fun _ => ih.bind fun _ => .ok _

/-- The size of the fixed part of a dynamic encoding. -/
theorem tailSize_measures (shape : Shape) : Measures shape.tailSize := by
  unfold tailSize
  split
  · split
    · exact .ok _
    · exact .ok _
    · exact .ok _
    · exact (headSize_measures _).bind fun _ => checkedProduct_measures _ _ _
    · exact headSizeSum_measures _
    · exact headSizeSum_measures _
    · exact headSizeSum_measures _
    · exact headSizeSum_measures _
    · exact undefinedSize_measures _ _
  · exact undefinedSize_measures _ _

/-- The size of the memory that a value owns directly. -/
theorem memorySize_measures (shape : Shape) : Measures shape.memorySize := by
  unfold memorySize
  split
  all_goals first
    | exact undefinedSize_measures _ _
    | exact checkedProduct_measures _ _ _
    | exact .ok _

/-- The size of the region of encoded heads. -/
theorem headRegion_measures (shape : Shape) : Measures shape.headRegion := by
  have size : ∀ composite : Shape, Measures
      (if composite.isDynamicallyEncoded then composite.tailSize else composite.encodedSize) := by
    intro composite
    split
    · exact tailSize_measures composite
    · exact encodedSize_measures composite
  unfold headRegion
  split
  all_goals first
    | exact undefinedSize_measures _ _
    | exact size _

section

variable {regime : Regime}

/-- The offset of a member, in bytes. -/
theorem compositeOffset_measures (unpacked : regime ≠ .packed) (owner : Shape) (members : List Shape)
    (index : Nat) : Measures (owner.compositeOffset members index regime) := by
  unfold compositeOffset
  split
  · cases regime with
    | calldata => exact headSizeSum_measures _
    | memory => exact .ok _
    | packed => exact absurd rfl unpacked
  · exact .error rfl

/-- The offset of an element, in bytes. -/
theorem elementOffset_measures (unpacked : regime ≠ .packed) (array base : Shape) (length : Option Nat)
    (index : Nat) : Measures (array.elementOffset base length index regime) := by
  unfold elementOffset
  split
  · exact .error rfl
  · cases regime with
    | calldata => exact (headSize_measures base).bind fun _ => checkedProduct_measures _ _ _
    | memory => exact checkedProduct_measures _ _ _
    | packed => exact absurd rfl unpacked

/-- The offset of a part, in bytes. -/
theorem memberOffset_measures (unpacked : regime ≠ .packed) (shape : Shape) (index : Nat) :
    Measures (shape.memberOffset index regime) := by
  unfold memberOffset
  split
  · exact compositeOffset_measures unpacked _ _ _
  · exact compositeOffset_measures unpacked _ _ _
  · exact elementOffset_measures unpacked _ _ _ _
  · split
    · exact .ok _
    · exact undefinedSize_measures _ _
  · exact compositeOffset_measures unpacked _ _ _
  · exact compositeOffset_measures unpacked _ _ _
  · exact undefinedSize_measures _ _

end

/-- The number of members that a segment takes. -/
theorem segmentExtent_measures (cap bridged taken kept : Nat) (members : List Shape) :
    Measures (segmentExtent cap bridged taken kept members) := by
  induction members generalizing bridged taken kept with
  | nil => exact .ok _
  | cons member rest ih =>
    rw [segmentExtent]
    refine (headSize_measures member).bind fun size => ?_
    split
    · exact .ok _
    · split
      · exact ih _ _ _
      · split
        · exact .ok _
        · exact ih _ _ _

/-- The check of a segment. -/
theorem checkSteps_measures (owner : Shape) (callStart memoryStart index step count : Nat) :
    Measures (owner.checkSteps callStart memoryStart index step count) := by
  induction count generalizing index step with
  | zero => exact .ok _
  | succ count ih =>
    rw [checkSteps]
    refine (memberOffset_measures (by decide) owner index).bind fun _ => ?_
    refine (memberOffset_measures (by decide) owner index).bind fun _ => ?_
    dsimp only
    split
    · exact ih _ _
    · exact .error rfl

/-- One segment. -/
theorem segmentAt_measures (owner : Shape) (start stop : Nat) : Measures (owner.segmentAt start stop) :=
  (memberOffset_measures (by decide) owner start).bind fun _ =>
    (memberOffset_measures (by decide) owner start).bind fun _ =>
      (checkSteps_measures owner _ _ _ _ _).bind fun _ => .ok _

/-- The segments of members. The induction is on their number: a segment takes members off the front. -/
theorem segmentsFrom_measures (owner : Shape) (cap index : Nat) (members : List Shape) :
    Measures (owner.segmentsFrom cap index members) := by
  induction bound : members.length using Nat.strongRecOn generalizing index members with
  | ind count ih =>
    rw [segmentsFrom.eq_def]
    cases members with
    | nil => exact .ok _
    | cons member rest =>
      dsimp only
      split
      · refine (segmentExtent_measures _ _ _ _ _).bind fun extent => ?_
        refine (segmentAt_measures _ _ _).bind fun segment => ?_
        have fewer : (rest.drop extent).length < count := by
          rw [← bound, List.length_drop, List.length_cons]
          omega
        exact (ih _ fewer _ _ rfl).bind fun _ => .ok _
      · have fewer : rest.length < count := by simp [← bound]
        exact (ih _ fewer _ _ rfl).bind fun _ => .ok _

/-- The segments of a struct. -/
theorem segmentation_measures (shape : Shape) (cap : Nat) : Measures (shape.segmentation cap) := by
  unfold segmentation
  split
  · exact segmentsFrom_measures _ _ _ _
  · exact segmentsFrom_measures _ _ _ _
  · exact .error rfl

end Shape

end YulAbi
