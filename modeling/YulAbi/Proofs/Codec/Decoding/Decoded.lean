import YulAbi.Proofs.Codec.Decoding.Composite
import YulAbi.Proofs.Codec.Decoding.DynamicTail
import YulAbi.Proofs.Codec.Decoding.Tails

/-!
# Decoding data

Decoding data of any shape allocates memory for the value and leaves everything else as it
was, and it succeeds where a value is encoded and there is memory for it. Both statements
follow the shape: one case for each way to decode, given that the parts are decoded so.
-/

namespace YulAbi.Codec

open Machine (Fresh)
open Shape (headBytesSum)
open Value (allocated encodeAs)

section

variable {cap : Nat} {shape base : Shape} {members : List Shape} {length : Option Nat} {value : Value}
  {encoding : List UInt8} {source : Word} {before : Machine}

/-- Words in a row take few bytes. -/
theorem staticBytes_lt_of_isFlat (flat : shape.IsFlat) (data : shape.isData = true) : shape.staticBytes < 2 ^ 128 := by
  cases flat with
  | bytes bytesLike =>
    cases shape with
    | bytes | string => decide
    | _ => cases bytesLike
  | @array base length words =>
    cases length with
    | none => simp [Shape.staticBytes, wordBytes]
    | some count =>
      have few := (Shape.isData_array data).2 count rfl
      rw [Shape.staticBytes, Shape.staticBytes_word words, wordBytes]
      omega
  | @composite _ members composite words =>
    have few := (composite.isData data).2
    have unfolded : shape.staticBytes = Shape.staticBytesSum members := by
      rcases composite with ⟨name, rfl⟩ | rfl <;> rw [Shape.staticBytes]
    rw [unfolded, Value.staticBytesSum_words words, wordBytes]
    omega

/-- The decoder of bytes and text. -/
theorem decodeAt_bytes (bytesLike : shape.isBytesLike = true) : decodeAt cap shape = decodeCopy bytesExtentAt := by
  funext source
  cases shape with
  | bytes => rw [decodeAt]
  | string => rw [decodeAt]
  | _ => cases bytesLike

/-- The decoder of an array. -/
theorem decodeAt_array (base : Shape) (length : Option Nat) : decodeAt cap (.array base length) =
    match base.elementStrategy with
    | .valueInline => decodeCopy (wordsExtentAt length)
    | .combinedStaticTail => decodeStaticTail length (Word.ofNat base.staticBytes)
    | .combinedDynamicTail => decodeDynamicTail length (tailExtent base)
    | .separateTail => decodeSeparate length base (decodeAt cap base) := by
  funext source
  rw [decodeAt]
  cases base.elementStrategy <;> rfl

/-- Data are decoded into memory of their own. -/
theorem decodeAt_settles (data : shape.isData = true) (reference : shape.isReferenceType = true) :
    Settles (decodeAt cap shape) shape := by
  induction shape using Shape.induction with
  | word shape valueType =>
    rw [Shape.isReferenceType_of_isValueType valueType] at reference
    cases reference
  | bytes shape bytesLike =>
    rw [decodeAt_bytes bytesLike]
    exact decodeCopy_settles (.bytes bytesLike) (bytesExtentAt_measures bytesLike) fun _ _ =>
      (lengthsFit_bytes bytesLike).mp
  | array base length ih =>
    obtain ⟨elements, few⟩ := Shape.isData_array data
    rw [decodeAt_array]
    cases strategy : base.elementStrategy with
    | valueInline =>
      have words := Shape.isValueType_of_strategy strategy
      exact decodeCopy_settles (.array length words) (wordsExtentAt_measures words length) fun _ _ =>
        (lengthsFit_words strategy).mp
    | combinedStaticTail =>
      obtain ⟨flat, static⟩ := Shape.isFlat_of_staticTail elements strategy
      exact decodeStaticTail_settles flat static few (staticBytes_lt_of_isFlat flat elements)
    | combinedDynamicTail =>
      obtain ⟨flat, dynamic⟩ := Shape.isFlat_of_dynamicTail elements strategy
      exact decodeDynamicTail_settles flat dynamic few
    | separateTail =>
      have reference := (Shape.isValueType_or_isReferenceType elements).resolve_left
        (by simp [Shape.not_isValueType_of_separateTail strategy])
      exact decodeSeparate_settles strategy few (ih elements reference)
  | composite shape members composite ih =>
    obtain ⟨parts, few⟩ := composite.isData data
    exact decodeComposite_settles composite few
      (fun member listed => Shape.isValueType_or_isReferenceType (parts member listed))
      fun member listed => ih member listed (parts member listed)
  | signature shape isSignature =>
    cases shape with
    | error _ _ | event _ _ _ _ => cases data
    | _ => cases isSignature

/-- Encoded data are decoded if there is memory for them. -/
theorem decodeAt_succeeds (data : shape.isData = true) (reference : shape.isReferenceType = true) :
    Succeeds (decodeAt cap shape) shape := by
  induction shape using Shape.induction with
  | word shape valueType =>
    rw [Shape.isReferenceType_of_isValueType valueType] at reference
    cases reference
  | bytes shape bytesLike =>
    rw [decodeAt_bytes bytesLike]
    exact decodeCopy_succeeds (.bytes bytesLike) (bytesExtentAt_measures bytesLike)
  | array base length ih =>
    obtain ⟨elements, few⟩ := Shape.isData_array data
    rw [decodeAt_array]
    cases strategy : base.elementStrategy with
    | valueInline =>
      have words := Shape.isValueType_of_strategy strategy
      exact decodeCopy_succeeds (.array length words) (wordsExtentAt_measures words length)
    | combinedStaticTail =>
      obtain ⟨flat, static⟩ := Shape.isFlat_of_staticTail elements strategy
      exact decodeStaticTail_succeeds flat static few (staticBytes_lt_of_isFlat flat elements)
    | combinedDynamicTail =>
      obtain ⟨flat, dynamic⟩ := Shape.isFlat_of_dynamicTail elements strategy
      exact decodeDynamicTail_succeeds flat dynamic few
    | separateTail =>
      have reference := (Shape.isValueType_or_isReferenceType elements).resolve_left
        (by simp [Shape.not_isValueType_of_separateTail strategy])
      exact decodeSeparate_succeeds strategy few (decodeAt_settles elements reference) (ih elements reference)
  | composite shape members composite ih =>
    obtain ⟨parts, few⟩ := composite.isData data
    exact decodeComposite_succeeds composite few
      (fun member listed => Shape.isValueType_or_isReferenceType (parts member listed))
      (fun member listed => decodeAt_settles (parts member listed))
      fun member listed => ih member listed (parts member listed)
  | signature shape isSignature =>
    cases shape with
    | error _ _ | event _ _ _ _ => cases data
    | _ => cases isSignature

/-- Whatever data are decoded, memory is allocated only. -/
theorem advances_of_decodeAt {word : Word} {after : Machine} (data : shape.isData = true) (roomy : before.Roomy)
    (short : before.calldata.size < 2 ^ 64) (h : (decodeAt cap shape source).run before = .ok word after) :
    before.Advances after := by
  rcases Shape.isValueType_or_isReferenceType data with value | reference
  · rw [decodeAt_of_isValueType value, Machine.run_calldataload] at h
    cases h
    exact .refl roomy.fits
  · exact (decodeAt_settles data reference source before word after roomy short h).1

end

end YulAbi.Codec
