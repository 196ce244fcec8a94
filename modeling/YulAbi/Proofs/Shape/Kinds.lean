import Mathlib.Algebra.GroupWithZero.Nat
import YulAbi.Shape.Segments

/-!
# Kinds of shapes

Proofs about values follow a shape in five cases: one word, bytes or text, an array, a
struct or tuple, and the signatures that stand for no value. Data are the shapes without
signatures inside. A shape is flat if its values are read and encoded alike, in one
stretch; the elements of arrays that are copied in bulk are.
-/

namespace YulAbi.Shape

/-- Whether a shape is a struct or tuple with the given members. -/
def IsComposite (shape : Shape) (members : List Shape) : Prop :=
  (∃ name, shape = .struct name members) ∨ shape = .tuple members

/-- Members are smaller than their struct or tuple. -/
theorem IsComposite.sizeOf_lt {shape member : Shape} {members : List Shape} (h : shape.IsComposite members)
    (listed : member ∈ members) : sizeOf member < sizeOf shape := by
  have smaller := List.sizeOf_lt_of_mem listed
  rcases h with ⟨name, rfl⟩ | rfl
  · simp only [struct.sizeOf_spec]
    omega
  · simp only [tuple.sizeOf_spec]
    omega

/-- What holds of words, bytes and signatures, and of arrays, structs and tuples if it holds of their
parts, holds of every shape. -/
theorem induction {motive : Shape → Prop} (word : ∀ shape : Shape, shape.isValueType = true → motive shape)
    (bytes : ∀ shape : Shape, shape.isBytesLike = true → motive shape)
    (array : ∀ base length, motive base → motive (.array base length))
    (composite : ∀ (shape : Shape) (members : List Shape), shape.IsComposite members →
      (∀ member ∈ members, motive member) → motive shape)
    (signature : ∀ shape : Shape, shape.isSignature = true → motive shape) (shape : Shape) : motive shape := by
  have parts : ∀ members : List Shape, (∀ member ∈ members, sizeOf member < sizeOf shape) →
      ∀ member ∈ members, motive member := fun members smaller member listed =>
    have := smaller member listed
    induction word bytes array composite signature member
  cases shape with
  | bytes => exact bytes .bytes rfl
  | string => exact bytes .string rfl
  | array base length => exact array base length (induction word bytes array composite signature base)
  | struct name members =>
    have struct : (Shape.struct name members).IsComposite members := .inl ⟨name, rfl⟩
    exact composite _ members struct (parts members fun member => struct.sizeOf_lt)
  | tuple members =>
    have tuple : (Shape.tuple members).IsComposite members := .inr rfl
    exact composite _ members tuple (parts members fun member => tuple.sizeOf_lt)
  | error name parameters => exact signature _ rfl
  | event name parameters indexed anonymous => exact signature _ rfl
  | _ => exact word _ rfl
  termination_by sizeOf shape

mutual
/-- Whether a shape is one of data: there is no signature among its parts, and the numbers of elements
and members fit 64 bits. -/
def isData : Shape → Bool
  | .array base length => base.isData && length.all (· < 2 ^ 64)
  | .struct _ members => areData members && members.length < 2 ^ 64
  | .tuple members => areData members && members.length < 2 ^ 64
  | .error .. | .event .. => false
  | _ => true
/-- Whether several shapes are all of data. -/
def areData : List Shape → Bool
  | [] => true
  | shape :: rest => shape.isData && areData rest
end

/-- Several shapes are of data if each one is. -/
theorem areData_iff {shapes : List Shape} : areData shapes = true ↔ ∀ shape ∈ shapes, shape.isData = true := by
  induction shapes with
  | nil => simp [areData]
  | cons shape rest ih => simp [areData, ih]

/-- The members of data are data, and there are not too many of them. -/
theorem IsComposite.isData {shape : Shape} {members : List Shape} (h : shape.IsComposite members)
    (data : shape.isData = true) : (∀ member ∈ members, member.isData = true) ∧ members.length < 2 ^ 64 := by
  rcases h with ⟨name, rfl⟩ | rfl <;>
    · simp only [Shape.isData, Bool.and_eq_true, areData_iff, decide_eq_true_eq] at data
      exact data

/-- The elements of data are data, and there are not too many of them. -/
theorem isData_array {base : Shape} {length : Option Nat} (data : (Shape.array base length).isData = true) :
    base.isData = true ∧ ∀ count ∈ length, count < 2 ^ 64 := by
  simp only [isData, Bool.and_eq_true, Option.all_eq_true, decide_eq_true_eq] at data
  exact data

/-- What is no signature is a word or lies in memory behind a pointer. -/
theorem isValueType_or_isReferenceType_of_plain {shape : Shape} (plain : shape.isSignature = false) :
    shape.isValueType = true ∨ shape.isReferenceType = true := by
  cases shape with
  | error name parameters => cases plain
  | event name parameters indexed anonymous => cases plain
  | bytes | string | array _ _ | struct _ _ | tuple _ => exact .inr rfl
  | _ => exact .inl rfl

/-- Whether neither a shape nor anything that it is directly made of is a signature. -/
def isPlain : Shape → Bool
  | .array base _ => !base.isSignature
  | .struct _ members | .tuple members => members.all (!·.isSignature)
  | shape => !shape.isSignature

/-- The members of a plain struct or tuple are no signatures. -/
theorem IsComposite.isPlain_iff {shape : Shape} {members : List Shape} (h : shape.IsComposite members) :
    shape.isPlain = true ↔ ∀ member ∈ members, member.isSignature = false := by
  rcases h with ⟨name, rfl⟩ | rfl <;> simp [isPlain]

/-- Data are no signatures. -/
theorem isSignature_of_isData {shape : Shape} (data : shape.isData = true) : shape.isSignature = false := by
  cases shape with
  | error name parameters => cases data
  | event name parameters indexed anonymous => cases data
  | _ => rfl

/-- Data are plain. -/
theorem isPlain_of_isData {shape : Shape} (data : shape.isData = true) : shape.isPlain = true := by
  have composite : ∀ members, shape.IsComposite members → shape.isPlain = true := fun members composite =>
    composite.isPlain_iff.mpr fun member listed => isSignature_of_isData ((composite.isData data).1 member listed)
  cases shape with
  | array base length => simp [isPlain, isSignature_of_isData (isData_array data).1]
  | struct name members => exact composite members (.inl ⟨name, rfl⟩)
  | tuple members => exact composite members (.inr rfl)
  | error name parameters => cases data
  | event name parameters indexed anonymous => cases data
  | _ => rfl

/-- Data are words or lie in memory behind a pointer. -/
theorem isValueType_or_isReferenceType {shape : Shape} (data : shape.isData = true) :
    shape.isValueType = true ∨ shape.isReferenceType = true :=
  isValueType_or_isReferenceType_of_plain (isSignature_of_isData data)

/-- A word is no reference. -/
theorem isReferenceType_of_isValueType {shape : Shape} (valueType : shape.isValueType = true) :
    shape.isReferenceType = false := by
  cases shape with
  | bytes | string | array _ _ | struct _ _ | tuple _ => cases valueType
  | _ => rfl

/-- A word is encoded in place. -/
theorem isDynamicallyEncoded_of_isValueType {shape : Shape} (valueType : shape.isValueType = true) :
    shape.isDynamicallyEncoded = false := by
  cases shape with
  | bytes | string | array _ _ | struct _ _ | tuple _ | error _ _ | event _ _ _ _ => cases valueType
  | _ => rfl

/-- Several shapes are encoded dynamically if any of them is. -/
theorem anyDynamicallyEncoded_eq_any (shapes : List Shape) :
    anyDynamicallyEncoded shapes = shapes.any isDynamicallyEncoded := by
  induction shapes with
  | nil => rfl
  | cons shape rest ih => rw [anyDynamicallyEncoded, ih, List.any_cons]

/-- Words are encoded in place, however many there are. -/
theorem anyDynamicallyEncoded_words {members : List Shape} (words : ∀ member ∈ members, member.isValueType = true) :
    anyDynamicallyEncoded members = false := by
  rw [anyDynamicallyEncoded_eq_any, List.any_eq_false]
  exact fun member listed => by simp [isDynamicallyEncoded_of_isValueType (words member listed)]

/-- Whether values of a shape are flat: bytes, or words in a row. -/
inductive IsFlat : Shape → Prop where
  /-- Bytes and text. -/
  | bytes {shape : Shape} (bytesLike : shape.isBytesLike = true) : IsFlat shape
  /-- Arrays of words. -/
  | array {base : Shape} (length : Option Nat) (words : base.isValueType = true) : IsFlat (.array base length)
  /-- Structs and tuples of words. -/
  | composite {shape : Shape} {members : List Shape} (composite : shape.IsComposite members)
    (words : ∀ member ∈ members, member.isValueType = true) : IsFlat shape

/-- What holds no references and is no signature is a word. -/
theorem isValueType_of_nestedReferences {shape : Shape} (plain : shape.isSignature = false)
    (none : shape.nestedReferences = 0) : shape.isValueType = true := by
  cases shape with
  | bytes | string => cases none
  | array _ _ | struct _ _ | tuple _ =>
    simp only [nestedReferences] at none
    omega
  | error _ _ | event _ _ _ _ => cases plain
  | _ => rfl

/-- Words hold no references and nothing that varies in size. -/
theorem nested_of_isValueType {shape : Shape} (value : shape.isValueType = true) :
    shape.nestedReferences = 0 ∧ shape.nestedDynamics = 0 := by
  cases shape with
  | bytes | string | array _ _ | struct _ _ | tuple _ | error _ _ | event _ _ _ _ => cases value
  | _ => exact ⟨rfl, rfl⟩

/-- So do several words. -/
theorem nestedSums_of_words {shapes : List Shape} (words : ∀ shape ∈ shapes, shape.isValueType = true) :
    nestedReferencesSum shapes = 0 ∧ nestedDynamicsSum shapes = 0 := by
  induction shapes with
  | nil => exact ⟨rfl, rfl⟩
  | cons shape rest ih =>
    obtain ⟨own, others⟩ := List.forall_mem_cons.mp words
    rw [nestedReferencesSum, nestedDynamicsSum, (nested_of_isValueType own).1, (nested_of_isValueType own).2,
      (ih others).1, (ih others).2]
    exact ⟨rfl, rfl⟩

/-- No reference among several shapes is none in any of them. -/
theorem nestedReferences_of_sum {shapes : List Shape} (none : nestedReferencesSum shapes = 0) :
    ∀ shape ∈ shapes, shape.nestedReferences = 0 := by
  induction shapes with
  | nil => simp
  | cons shape rest ih =>
    simp only [nestedReferencesSum] at none
    intro other listed
    rcases List.mem_cons.mp listed with same | listed
    · rw [same]
      omega
    · exact ih (by omega) other listed

/-- What is plain, no word and has one level of references is flat. -/
theorem isFlat_of_nestedReferences {shape : Shape} (plain : shape.isPlain = true)
    (reference : shape.isValueType = false) (one : shape.nestedReferences < 2) : shape.IsFlat := by
  have composite : ∀ members, shape.IsComposite members → nestedReferencesSum members = 0 →
      shape.IsFlat := fun members composite none => .composite composite fun member listed =>
    isValueType_of_nestedReferences (composite.isPlain_iff.mp plain member listed)
      (nestedReferences_of_sum none member listed)
  cases shape with
  | bytes => exact .bytes rfl
  | string => exact .bytes rfl
  | array base length =>
    simp only [nestedReferences] at one
    exact .array length (isValueType_of_nestedReferences (by simpa [isPlain] using plain) (by omega))
  | struct name members =>
    simp only [nestedReferences] at one
    exact composite members (.inl ⟨name, rfl⟩) (by omega)
  | tuple members =>
    simp only [nestedReferences] at one
    exact composite members (.inr rfl) (by omega)
  | error _ _ | event _ _ _ _ => cases plain
  | _ => cases reference

/-- What is flat is no word, and has one level of references and at most one that varies in size. -/
theorem IsFlat.nested {shape : Shape} (flat : shape.IsFlat) :
    shape.isValueType = false ∧ shape.nestedReferences < 2 ∧ shape.nestedDynamics < 2 := by
  cases flat with
  | bytes bytesLike =>
    cases shape with
    | bytes | string => exact ⟨rfl, by decide, by decide⟩
    | _ => cases bytesLike
  | array length words =>
    obtain ⟨references, dynamics⟩ := nested_of_isValueType words
    cases length <;> simp [isValueType, nestedReferences, nestedDynamics, references, dynamics]
  | composite composite words =>
    obtain ⟨references, dynamics⟩ := nestedSums_of_words words
    rcases composite with ⟨name, rfl⟩ | rfl <;> simp [isValueType, nestedReferences, nestedDynamics, references, dynamics]

/-- Elements that are copied as they are are words. -/
theorem isValueType_of_strategy {base : Shape} (h : base.elementStrategy = .valueInline) :
    base.isValueType = true := by
  unfold elementStrategy at h
  split at h
  · assumption
  · split at h
    · split at h <;> cases h
    · cases h

/-- Elements are copied in one go and linked exactly if they are flat and static, and their tails are checked and copied
in one go exactly if they are flat and dynamic. -/
theorem elementStrategy_iff_isFlat {base : Shape} (plain : base.isPlain = true) :
    (base.elementStrategy = .combinedStaticTail ↔ base.IsFlat ∧ base.isDynamicallyEncoded = false) ∧
      (base.elementStrategy = .combinedDynamicTail ↔ base.IsFlat ∧ base.isDynamicallyEncoded = true) := by
  have flat : (base.isValueType = false ∧ base.nestedReferences < 2 ∧ base.nestedDynamics < 2) ↔ base.IsFlat :=
    ⟨fun h => isFlat_of_nestedReferences plain h.1 h.2.1, IsFlat.nested⟩
  rw [← flat, elementStrategy]
  by_cases few : base.nestedReferences < 2 ∧ base.nestedDynamics < 2
  · rw [if_pos few]
    simp only [few, and_true]
    cases base.isValueType <;> cases base.isDynamicallyEncoded <;> simp
  · rw [if_neg few]
    simp only [few, and_false, false_and]
    cases base.isValueType <;> simp

/-- Elements that are copied in one go and linked are flat and static. -/
theorem isFlat_of_staticTail {base : Shape} (data : base.isData = true)
    (h : base.elementStrategy = .combinedStaticTail) : base.IsFlat ∧ base.isDynamicallyEncoded = false :=
  (elementStrategy_iff_isFlat (isPlain_of_isData data)).1.mp h

/-- Elements whose tails are checked and copied in one go are flat and dynamic. -/
theorem isFlat_of_dynamicTail {base : Shape} (data : base.isData = true)
    (h : base.elementStrategy = .combinedDynamicTail) : base.IsFlat ∧ base.isDynamicallyEncoded = true :=
  (elementStrategy_iff_isFlat (isPlain_of_isData data)).2.mp h

/-- Elements that are handled one by one are no words. -/
theorem not_isValueType_of_separateTail {base : Shape} (h : base.elementStrategy = .separateTail) :
    base.isValueType = false := by
  unfold elementStrategy at h
  split at h
  · cases h
  · rename_i reference
    simpa using reference

/-- Flat shapes that are encoded dynamically are bytes, text and arrays of words that vary in size. -/
theorem IsFlat.of_dynamic {shape : Shape} (flat : shape.IsFlat) (dynamic : shape.isDynamicallyEncoded = true) :
    shape.isBytesLike = true ∨ ∃ base, shape = .array base none ∧ base.isValueType = true := by
  cases flat with
  | bytes bytesLike => exact .inl bytesLike
  | @array base length words =>
    cases length with
    | none => exact .inr ⟨base, rfl, words⟩
    | some count =>
      have static := isDynamicallyEncoded_of_isValueType words
      simp only [isDynamicallyEncoded] at dynamic
      rw [dynamic] at static
      cases static
  | composite composite words =>
    rename_i members
    have static := anyDynamicallyEncoded_words words
    have same : shape.isDynamicallyEncoded = anyDynamicallyEncoded members := by
      rcases composite with ⟨name, rfl⟩ | rfl <;> rfl
    rw [same, static] at dynamic
    cases dynamic

end YulAbi.Shape
