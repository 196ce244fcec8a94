import YulAbi.Proofs.Shape.Kinds
import YulAbi.Proofs.Step

/-!
# Sizes as numbers

Every size that a shape has is a plain sum or product. Here these are functions
without failures, and a size that exists is shown to be their value.
-/

namespace YulAbi.Shape

mutual
/-- The number of bytes of an encoding without tails. -/
def staticBytes : Shape → Nat
  | .array base (some length) => length * base.staticBytes
  | .struct _ members => staticBytesSum members
  | .tuple members => staticBytesSum members
  | .error _ parameters => staticBytesSum parameters
  | .event _ parameters _ _ => staticBytesSum parameters
  | _ => wordBytes
/-- The number of bytes of several encodings without tails. -/
def staticBytesSum : List Shape → Nat
  | [] => 0
  | shape :: rest => shape.staticBytes + staticBytesSum rest
end

/-- The number of bytes of a head. -/
def headBytes (shape : Shape) : Nat :=
  if shape.isDynamicallyEncoded then wordBytes else shape.staticBytes

/-- The number of bytes of several heads. -/
def headBytesSum : List Shape → Nat
  | [] => 0
  | shape :: rest => shape.headBytes + headBytesSum rest

/-- Words take one word. -/
theorem staticBytes_word {shape : Shape} (valueType : shape.isValueType = true) : shape.staticBytes = wordBytes := by
  cases shape with
  | bytes | string | array _ _ | struct _ _ | tuple _ | error _ _ | event _ _ _ _ => cases valueType
  | _ => simp [staticBytes]

/-- The head of a word is the word. -/
theorem headBytes_word {shape : Shape} (valueType : shape.isValueType = true) : shape.headBytes = wordBytes := by
  rw [headBytes, isDynamicallyEncoded_of_isValueType valueType, if_neg Bool.false_ne_true, staticBytes_word valueType]

/-- The encoding of a word is the word. -/
theorem encodedSize_word {shape : Shape} (valueType : shape.isValueType = true) : shape.encodedSize = .ok wordBytes := by
  rw [encodedSize.eq_def, isDynamicallyEncoded_of_isValueType valueType, if_neg Bool.false_ne_true]
  cases shape with
  | bytes | string | array _ _ | struct _ _ | tuple _ | error _ _ | event _ _ _ _ => cases valueType
  | _ => rfl

/-- So is its head. -/
theorem headSize_word {shape : Shape} (valueType : shape.isValueType = true) : shape.headSize = .ok wordBytes := by
  rw [headSize, isDynamicallyEncoded_of_isValueType valueType, if_neg Bool.false_ne_true, encodedSize_word valueType]

/-- The head of a dynamic encoding is an offset. -/
theorem headBytes_dynamic {shape : Shape} (dynamic : shape.isDynamicallyEncoded = true) :
    shape.headBytes = wordBytes := by
  rw [headBytes, if_pos dynamic]

/-- The head of a static encoding is the encoding. -/
theorem headBytes_static {shape : Shape} (static : shape.isDynamicallyEncoded = false) :
    shape.headBytes = shape.staticBytes := by
  rw [headBytes, static, if_neg Bool.false_ne_true]

/-- A product within 64 bits is a product. -/
theorem checkedProduct_eq_ok {shape : Shape} {left right size : Nat}
    (h : shape.checkedProduct left right = .ok size) : size = left * right ∧ left * right < 2 ^ 64 := by
  unfold checkedProduct at h
  split at h
  · cases h
    exact ⟨rfl, ‹_›⟩
  · cases h

mutual
/-- The size of a static encoding, where it exists. -/
theorem encodedSize_eq {shape : Shape} {size : Nat} (h : shape.encodedSize = .ok size) :
    size = shape.staticBytes ∧ shape.isDynamicallyEncoded = false := by
  rw [encodedSize.eq_def] at h
  split at h
  · cases h
  · rename_i static
    refine ⟨?_, by simpa using static⟩
    cases shape with
    | array base length =>
      cases length with
      | none => simp [isDynamicallyEncoded] at static
      | some length =>
        obtain ⟨element, measured, product⟩ := Attempt.bind_eq_ok.mp h
        obtain ⟨same, -⟩ := encodedSize_eq measured
        obtain ⟨equal, -⟩ := checkedProduct_eq_ok product
        rw [equal, same, staticBytes]
    | struct name members => exact encodedSizeSum_eq h
    | tuple members => exact encodedSizeSum_eq h
    | error name parameters => exact encodedSizeSum_eq h
    | event name parameters indexed anonymous => exact encodedSizeSum_eq h
    | _ =>
      cases h
      simp [staticBytes]
/-- The total size of static encodings, where it exists. -/
theorem encodedSizeSum_eq {shapes : List Shape} {size : Nat} (h : encodedSizeSum shapes = .ok size) :
    size = staticBytesSum shapes := by
  cases shapes with
  | nil =>
    cases h
    rfl
  | cons shape rest =>
    rw [encodedSizeSum] at h
    obtain ⟨own, measured, h⟩ := Attempt.bind_eq_ok.mp h
    obtain ⟨others, summed, h⟩ := Attempt.bind_eq_ok.mp h
    cases h
    rw [staticBytesSum, ← (encodedSize_eq measured).1, ← encodedSizeSum_eq summed]
end

/-- The size of a head, where it exists. -/
theorem headSize_eq {shape : Shape} {size : Nat} (h : shape.headSize = .ok size) :
    size = shape.headBytes := by
  unfold headSize at h
  unfold headBytes
  split at h
  · cases h
    rw [if_pos ‹_›]
  · rw [if_neg ‹_›]
    exact (encodedSize_eq h).1

/-- The total size of heads, where it exists. -/
theorem headSizeSum_eq {shapes : List Shape} {size : Nat} (h : headSizeSum shapes = .ok size) :
    size = headBytesSum shapes := by
  induction shapes generalizing size with
  | nil =>
    cases h
    rfl
  | cons shape rest ih =>
    obtain ⟨own, measured, h⟩ := Attempt.bind_eq_ok.mp h
    obtain ⟨others, summed, h⟩ := Attempt.bind_eq_ok.mp h
    cases h
    rw [headBytesSum, ← headSize_eq measured, ← ih summed]

/-- The heads of two lists of shapes. -/
theorem headBytesSum_append (shapes others : List Shape) :
    headBytesSum (shapes ++ others) = headBytesSum shapes + headBytesSum others := by
  induction shapes with
  | nil => simp [headBytesSum]
  | cons shape rest ih =>
    rw [List.cons_append, headBytesSum, headBytesSum, ih]
    omega

/-- Static heads are static encodings. -/
theorem headBytesSum_of_static {shapes : List Shape} (static : anyDynamicallyEncoded shapes = false) :
    headBytesSum shapes = staticBytesSum shapes := by
  induction shapes with
  | nil => rfl
  | cons shape rest ih =>
    simp only [anyDynamicallyEncoded, Bool.or_eq_false_iff] at static
    rw [headBytesSum, staticBytesSum, ih static.2, headBytes, static.1]
    simp

/-- The offset of a member among the heads. -/
theorem memberOffset_calldata {shape : Shape} {members : List Shape} {index offset : Nat}
    (composite : shape.IsComposite members) (h : shape.memberOffset index .calldata = .ok offset) :
    index < members.length ∧ offset = headBytesSum (members.take index) := by
  have unfolded : shape.memberOffset index .calldata = shape.compositeOffset members index .calldata := by
    rcases composite with ⟨name, rfl⟩ | rfl <;> rfl
  rw [unfolded, compositeOffset] at h
  split at h
  · exact ⟨‹_›, headSizeSum_eq h⟩
  · cases h

/-- The offset of a member in memory. -/
theorem memberOffset_memory {shape : Shape} {members : List Shape} {index offset : Nat}
    (composite : shape.IsComposite members) (h : shape.memberOffset index .memory = .ok offset) :
    index < members.length ∧ offset = index * wordBytes := by
  have unfolded : shape.memberOffset index .memory = shape.compositeOffset members index .memory := by
    rcases composite with ⟨name, rfl⟩ | rfl <;> rfl
  rw [unfolded, compositeOffset] at h
  split at h
  · cases h
    exact ⟨‹_›, rfl⟩
  · cases h

/-- The memory that a struct or tuple owns directly. -/
theorem memorySize_composite {shape : Shape} {members : List Shape}
    (composite : shape.IsComposite members) : shape.memorySize = .ok (members.length * wordBytes) := by
  rcases composite with ⟨name, rfl⟩ | rfl <;> rfl

/-- The size of the encoded heads of a struct or tuple. -/
theorem headRegion_composite {shape : Shape} {members : List Shape} {size : Nat}
    (composite : shape.IsComposite members) (h : shape.headRegion = .ok size) :
    size = headBytesSum members := by
  have unfolded : shape.headRegion =
      if anyDynamicallyEncoded members then headSizeSum members else encodedSizeSum members := by
    rcases composite with ⟨name, rfl⟩ | rfl <;>
      cases dynamic : anyDynamicallyEncoded members <;>
        simp [headRegion, tailSize, encodedSize, isDynamicallyEncoded, dynamic]
  rw [unfolded] at h
  split at h
  · exact headSizeSum_eq h
  · rename_i static
    rw [headBytesSum_of_static (Bool.eq_false_iff.mpr static)]
    exact encodedSizeSum_eq h

end YulAbi.Shape
