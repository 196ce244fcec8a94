import YulAbi.Proofs.Shape.Coverage

/-!
# Which elements are copied in bulk

Levels of references and of what varies in size are counted to choose the strategy for an
array. The counts single out the elements that are runs: bytes, or words in a row. A run of
a fixed number of words takes the same room wherever it stands.
-/

namespace YulAbi.Shape

/-- Whether values are bytes, or words in a row whose number varies. -/
def isVaryingRun : Shape → Bool
  | .bytes | .string => true
  | .array element none => element.isValueType
  | _ => false

/-- Whether values are a fixed number of words in a row. -/
def isFixedRun : Shape → Bool
  | .array element (some _) => element.isValueType
  | .struct _ members | .tuple members => members.all isValueType
  | _ => false

/-- Structs and tuples of words are fixed runs. -/
theorem IsComposite.isFixedRun_iff {shape : Shape} {members : List Shape} (h : shape.IsComposite members) :
    shape.isFixedRun = true ↔ ∀ member ∈ members, member.isValueType = true := by
  rcases h with ⟨name, rfl⟩ | rfl <;> simp [isFixedRun]

/-- What is a varying run is flat and dynamic. -/
theorem isVaryingRun_iff_isFlat {shape : Shape} :
    shape.isVaryingRun = true ↔ shape.IsFlat ∧ shape.isDynamicallyEncoded = true := by
  constructor
  · intro run
    cases shape with
    | bytes => exact ⟨.bytes rfl, rfl⟩
    | string => exact ⟨.bytes rfl, rfl⟩
    | array element length =>
      cases length with
      | none => exact ⟨.array none run, rfl⟩
      | some count => cases run
    | _ => cases run
  · rintro ⟨flat, dynamic⟩
    rcases flat.of_dynamic dynamic with bytesLike | ⟨element, rfl, words⟩
    · cases shape with
      | bytes | string => rfl
      | _ => cases bytesLike
    · exact words

/-- What is a fixed run is flat and static. -/
theorem isFixedRun_iff_isFlat {shape : Shape} :
    shape.isFixedRun = true ↔ shape.IsFlat ∧ shape.isDynamicallyEncoded = false := by
  constructor
  · intro run
    have composite : ∀ members, shape.IsComposite members → shape.IsFlat ∧ shape.isDynamicallyEncoded = false := by
      intro members composite
      have words := composite.isFixedRun_iff.mp run
      refine ⟨.composite composite words, ?_⟩
      rcases composite with ⟨name, rfl⟩ | rfl <;> exact anyDynamicallyEncoded_words words
    cases shape with
    | array element length =>
      cases length with
      | none => cases run
      | some count =>
        have static : element.isDynamicallyEncoded = false := isDynamicallyEncoded_of_isValueType run
        exact ⟨.array (some count) run, static⟩
    | struct name members => exact composite members (.inl ⟨name, rfl⟩)
    | tuple members => exact composite members (.inr rfl)
    | _ => cases run
  · rintro ⟨flat, static⟩
    cases flat with
    | bytes bytesLike =>
      cases shape with
      | bytes | string => cases static
      | _ => cases bytesLike
    | array length words =>
      cases length with
      | none => cases static
      | some count => exact words
    | composite composite words => exact composite.isFixedRun_iff.mpr words

/-- Elements are words, runs whose number of words varies, runs of a fixed number of words, or neither, as their strategy
says. -/
theorem elementStrategy_iff {base : Shape} (plain : base.isPlain = true) :
    (base.elementStrategy = .valueInline ↔ base.isValueType = true) ∧
      (base.elementStrategy = .combinedDynamicTail ↔ base.isVaryingRun = true) ∧
      (base.elementStrategy = .combinedStaticTail ↔ base.isFixedRun = true) ∧
      (base.elementStrategy = .separateTail ↔
        base.isValueType = false ∧ base.isVaryingRun = false ∧ base.isFixedRun = false) := by
  obtain ⟨static, dynamic⟩ := elementStrategy_iff_isFlat plain
  have inline : base.elementStrategy = .valueInline ↔ base.isValueType = true :=
    ⟨isValueType_of_strategy, fun value => by rw [elementStrategy, if_pos value]⟩
  rw [← isFixedRun_iff_isFlat] at static
  rw [← isVaryingRun_iff_isFlat] at dynamic
  refine ⟨inline, dynamic, static, ?_⟩
  simp only [← Bool.not_eq_true, ← inline, ← dynamic, ← static]
  cases base.elementStrategy <;> simp

/-- The encodings of words take a word each. -/
theorem encodedSizeSum_words {members : List Shape} (words : ∀ member ∈ members, member.isValueType = true) :
    encodedSizeSum members = .ok (members.length * wordBytes) := by
  induction members with
  | nil => rfl
  | cons member rest ih =>
    obtain ⟨own, others⟩ := List.forall_mem_cons.mp words
    rw [encodedSizeSum, encodedSize_word own, ih others, List.length_cons, Nat.succ_mul, Nat.add_comm]
    rfl

/-- Words take no memory besides that of their owner. -/
theorem extendedMemorySizeSum_words {members : List Shape} (words : ∀ member ∈ members, member.isValueType = true) :
    extendedMemorySizeSum members = .ok 0 := by
  induction members with
  | nil => rfl
  | cons member rest ih =>
    obtain ⟨own, others⟩ := List.forall_mem_cons.mp words
    rw [extendedMemorySizeSum, isReferenceType_of_isValueType own, if_neg Bool.false_ne_true, ih others]

/-- A run of a fixed number of words takes as many bytes encoded as in memory, where it owns nothing else. -/
theorem sizes_of_isFixedRun {shape : Shape} (run : shape.isFixedRun = true) :
    shape.encodedSize = shape.memorySize ∧ shape.extendedMemorySize = shape.memorySize := by
  have static := (isFixedRun_iff_isFlat.mp run).2
  cases shape with
  | array element length =>
    cases length with
    | none => cases run
    | some count =>
      rw [encodedSize.eq_def, static, if_neg Bool.false_ne_true, extendedMemorySize,
        isReferenceType_of_isValueType run]
      dsimp only
      rw [encodedSize_word run]
      refine ⟨rfl, ?_⟩
      cases memorySize (.array element (some count)) <;> rfl
  | struct name members | tuple members =>
    have words := List.all_eq_true.mp run
    rw [encodedSize.eq_def, static, if_neg Bool.false_ne_true, extendedMemorySize, extendedMemorySizeSum_words words]
    exact ⟨encodedSizeSum_words words, rfl⟩
  | _ => cases run

end YulAbi.Shape
