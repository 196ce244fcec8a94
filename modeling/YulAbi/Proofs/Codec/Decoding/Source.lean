import YulAbi.Proofs.Codec.DecodeStep
import YulAbi.Proofs.Value.Copied
import YulAbi.Proofs.Word

/-!
# What decoders read

Where decoders look for the parts of an encoding, whatever the call data is, and what they
need of it: where bytes and arrays of words are copied as they are, the size that their
length word gives must not wrap. The parts of an actual encoding are found where they are,
and all its lengths fit.
-/

namespace YulAbi.Codec

open Shape (headBytesSum)
open Value (EncodesEach Matches Placed allocated encodeAs flatExtent sequenceBytes storedCount tailsBefore)

/-- The address of the encoding of a part whose head has an offset. -/
def sourceOf (calldata : ByteArray) (source : Word) (part : Shape) (offset : Nat) : Word :=
  if part.isDynamicallyEncoded then
    source + Memory.wordAt calldata (source + Word.ofNat offset).toNat
  else source + Word.ofNat offset

mutual
/-- Whether no length that a decoder copies by gives a size beyond one word. -/
def LengthsFit (calldata : ByteArray) : Shape → Word → Prop
  | .bytes, source => flatExtent calldata .bytes source.toNat < 2 ^ 256
  | .string, source => flatExtent calldata .string source.toNat < 2 ^ 256
  | .array base length, source =>
    match base.elementStrategy with
    | .valueInline => flatExtent calldata (.array base length) source.toNat < 2 ^ 256
    | .combinedStaticTail | .combinedDynamicTail => True
    | .separateTail => ∀ index < storedCount calldata length source.toNat, LengthsFit calldata base
        (sourceOf calldata (source + leadSize length) base (index * base.headBytes))
  | .struct _ members, source => LengthsFitEach calldata source 0 members
  | .tuple members, source => LengthsFitEach calldata source 0 members
  | _, _ => True
/-- The same for members, the first of which has a head with an offset. -/
def LengthsFitEach (calldata : ByteArray) (source : Word) (offset : Nat) : List Shape → Prop
  | [] => True
  | member :: rest => LengthsFit calldata member (sourceOf calldata source member offset) ∧
    LengthsFitEach calldata source (offset + member.headBytes) rest
end

/-- Whether decoding allocates memory and, where lengths fit, places the only value there that may be encoded
in call data. -/
def Settles (step : Word → MachineStep Word) (shape : Shape) : Prop :=
  ∀ source before word after, before.Roomy → before.calldata.size < 2 ^ 64 →
    (step source).run before = .ok word after → before.Advances after ∧
      (LengthsFit before.calldata shape source → ∃ value, Placed before after shape word value ∧
        Matches before.calldata shape source.toNat value)

/-- Whether decoding succeeds where a value is encoded in call data and there is memory for it. -/
def Succeeds (step : Word → MachineStep Word) (shape : Shape) : Prop :=
  ∀ source before value encoding, before.Roomy → before.calldata.size < 2 ^ 64 →
    encodeAs shape value = .ok encoding → Memory.Holds before.calldata source.toNat encoding →
    source.toNat + encoding.length ≤ before.calldata.size →
    before.free + allocated shape value ≤ memoryLimit →
    ∃ word after, (step source).run before = .ok word after

section

variable {calldata : ByteArray} {machine : Machine} {shape base : Shape} {length : Option Nat}
  {members : List Shape} {values elements : List Value} {value : Value} {encoding : List UInt8}
  {encodings : List (List UInt8)} {source : Word}

/-- The size of the length word in front of an array. -/
theorem toNat_leadSize (length : Option Nat) : (leadSize length).toNat = Value.lengthSize length := by
  cases length <;> rfl

/-- A length word is at most one word. -/
theorem lengthSize_le (length : Option Nat) : Value.lengthSize length ≤ 32 := by
  cases length with
  | none => exact Nat.le_refl 32
  | some count => exact Nat.zero_le 32

/-- The address of a part is looked up without any change. -/
theorem run_partAt (machine : Machine) (part : Shape) (source : Word) (offset : Nat) :
    (partAt part.isDynamicallyEncoded source (source + Word.ofNat offset)).run machine =
      .ok (sourceOf machine.calldata source part offset) machine := by
  unfold partAt sourceOf
  split
  · rw [Step.bind_of_ok (Machine.run_calldataload _ machine)]
    rfl
  · rfl

/-- The encoding of a static part is in place. -/
theorem toNat_sourceOf_static {part : Shape} {offset : Nat} (static : part.isDynamicallyEncoded = false)
    (small : source.toNat + offset < 2 ^ 256) : (sourceOf calldata source part offset).toNat = source.toNat + offset := by
  have fits : (Word.ofNat offset).toNat = offset := Word.toNat_ofNat (by omega)
  rw [sourceOf, static, if_neg Bool.false_ne_true, Word.toNat_add (by omega), fits]

/-- The lengths of members fit if those of each member do. -/
theorem lengthsFitEach_iff {offset : Nat} : LengthsFitEach calldata source offset members ↔
    ∀ position (inside : position < members.length), LengthsFit calldata members[position]
      (sourceOf calldata source members[position] (offset + headBytesSum (members.take position))) := by
  induction members generalizing offset with
  | nil => simp [LengthsFitEach]
  | cons member rest ih =>
    rw [LengthsFitEach, ih]
    constructor
    · rintro ⟨first, others⟩ position inside
      cases position with
      | zero => simpa [headBytesSum] using first
      | succ position => simpa [headBytesSum, Nat.add_assoc] using others position (by simpa using inside)
    · intro each
      refine ⟨?_, fun position inside => ?_⟩
      · have first := each 0 (by simp)
        simp only [List.getElem_cons_zero, List.take_zero, headBytesSum, Nat.add_zero] at first
        exact first
      · have later := each (position + 1) (by simpa using inside)
        simp only [List.getElem_cons_succ, List.take_succ_cons, headBytesSum, ← Nat.add_assoc] at later
        exact later

/-- The lengths of a struct or tuple are those of its members. -/
theorem lengthsFit_composite (composite : shape.IsComposite members) : LengthsFit calldata shape source ↔
    ∀ position (inside : position < members.length), LengthsFit calldata members[position]
      (sourceOf calldata source members[position] (headBytesSum (members.take position))) := by
  have unfolded : LengthsFit calldata shape source ↔ LengthsFitEach calldata source 0 members := by
    rcases composite with ⟨name, rfl⟩ | rfl <;> exact Iff.rfl
  simpa only [Nat.zero_add] using unfolded.trans lengthsFitEach_iff

/-- The lengths of bytes and text. -/
theorem lengthsFit_bytes (bytesLike : shape.isBytesLike = true) :
    LengthsFit calldata shape source ↔ flatExtent calldata shape source.toNat < 2 ^ 256 := by
  cases shape with
  | bytes => exact Iff.rfl
  | string => exact Iff.rfl
  | _ => cases bytesLike

/-- The parts of an encoding are found where they are. -/
theorem holds_sourceOf (each : EncodesEach members values encodings)
    (holds : Memory.Holds calldata source.toNat (sequenceBytes members encodings))
    (small : source.toNat + (sequenceBytes members encodings).length < 2 ^ 256) {position : Nat}
    (inside : position < members.length) (inside' : position < encodings.length) :
    let part := sourceOf calldata source members[position] (headBytesSum (members.take position))
    part.toNat + encodings[position].length ≤ source.toNat + (sequenceBytes members encodings).length ∧
      Memory.Holds calldata part.toNat encodings[position] := by
  obtain ⟨heads, tails⟩ := each.within inside inside'
  have total := each.length_sequenceBytes
  have stands := each.holds_iff.mp holds position inside inside'
  have slot : (source + Word.ofNat (headBytesSum (members.take position))).toNat =
      source.toNat + headBytesSum (members.take position) := by
    rw [Word.toNat_add] <;> rw [Word.toNat_ofNat] <;> omega
  unfold sourceOf
  cases dynamic : members[position].isDynamicallyEncoded with
  | true =>
    simp only [Value.PartStands, dynamic, if_true, Value.tailBytes] at stands tails
    have offset := Memory.holds_toBytes.mp stands.1
    have tail : (source + Word.ofNat (headBytesSum members + tailsBefore members encodings position)).toNat =
        source.toNat + headBytesSum members + tailsBefore members encodings position := by
      rw [Word.toNat_add] <;> rw [Word.toNat_ofNat] <;> omega
    simp only [if_true, slot, offset, tail]
    exact ⟨by omega, stands.2⟩
  | false =>
    simp only [Value.PartStands, dynamic, Bool.false_eq_true, if_false] at stands
    have size := each.sized position inside inside' dynamic
    simp only [Bool.false_eq_true, if_false, slot]
    exact ⟨by omega, stands⟩

/-- The elements of an encoding are found where they are. -/
theorem holds_elementSource (each : EncodesEach (List.replicate elements.length base) elements encodings)
    (holds : Memory.Holds calldata source.toNat (sequenceBytes (List.replicate elements.length base) encodings))
    (small : source.toNat + (sequenceBytes (List.replicate elements.length base) encodings).length < 2 ^ 256)
    {position : Nat} (inside : position < elements.length) (inside' : position < encodings.length) :
    let part := sourceOf calldata source base (position * base.headBytes)
    part.toNat + encodings[position].length ≤
        source.toNat + (sequenceBytes (List.replicate elements.length base) encodings).length ∧
      Memory.Holds calldata part.toNat encodings[position] := by
  have found := holds_sourceOf each holds small (by simpa using inside) inside'
  have offset : headBytesSum ((List.replicate elements.length base).take position) = position * base.headBytes := by
    exact Value.headBytesSum_take_replicate (Nat.le_of_lt inside)
  simpa only [List.getElem_replicate, offset] using found

/-- A struct or tuple is the only one that may be encoded if its members are. -/
theorem matches_composite (composite : shape.IsComposite members) (counted : values.length = members.length)
    (each : source.toNat + headBytesSum members < 2 ^ 256 →
      ∀ position (inside : position < members.length) (inside' : position < values.length),
        Matches calldata members[position]
          (sourceOf calldata source members[position] (headBytesSum (members.take position))).toNat
          values[position]) :
    Matches calldata shape source.toNat (.tuple values) := by
  intro other encoding encoded holds small few
  obtain ⟨others, encodings, rfl, -, encodes, rfl⟩ := (Value.encodeAs_composite composite).mp encoded
  have total := encodes.length_sequenceBytes
  rw [Value.allocated_composite composite] at few
  refine congrArg Value.tuple (List.ext_getElem (counted.trans encodes.counted.symm) fun position inside inside' => ?_)
  have inside'' : position < encodings.length := by rw [encodes.covered, ← counted]; exact inside
  obtain ⟨within, found⟩ := holds_sourceOf encodes holds small (counted ▸ inside) inside''
  have part := Value.allocated_le_each _ _ (counted ▸ inside) inside'
  exact each (by omega) position (counted ▸ inside) inside _ _
    (encodes.each position (counted ▸ inside) inside' inside'') found (by omega) (by omega)

/-- What the encoding of an array consists of. -/
structure EncodedArray (calldata : ByteArray) (base : Shape) (length : Option Nat) (source : Word)
    (encoding : List UInt8) (elements : List Value) (encodings : List (List UInt8)) : Prop where
  /-- The length is in front, or else that of the shape. -/
  counted : elements.length = storedCount calldata length source.toNat
  /-- The elements are encoded like members. -/
  each : EncodesEach (List.replicate elements.length base) elements encodings
  /-- They follow the length word. -/
  holds : Memory.Holds calldata (source + leadSize length).toNat
    (sequenceBytes (List.replicate elements.length base) encodings)
  /-- Their heads come first. -/
  head : (source + leadSize length).toNat = source.toNat + Value.lengthSize length
  /-- Nothing follows them. -/
  total : encoding.length = Value.lengthSize length +
    (sequenceBytes (List.replicate elements.length base) encodings).length

/-- The encoding of an array of a reasonable size. -/
theorem encodedArray (encoded : encodeAs (.array base length) value = .ok encoding)
    (holds : Memory.Holds calldata source.toNat encoding) (small : source.toNat + encoding.length < 2 ^ 256)
    (few : allocated (.array base length) value < 2 ^ 256) :
    ∃ elements encodings, value = .array elements ∧
      EncodedArray calldata base length source encoding elements encodings := by
  obtain ⟨elements, encodings, rfl, fixed, -, encodes, rfl⟩ := Value.encodeAs_array.mp encoded
  obtain ⟨lead, stands⟩ := Memory.holds_append.mp holds
  rw [List.length_append, Value.length_lengthWord_eq] at small
  rw [Value.length_lengthWord_eq] at stands
  rw [Value.allocated_array] at few
  have head : (source + leadSize length).toNat = source.toNat + Value.lengthSize length := by
    rw [Word.toNat_add] <;> rw [toNat_leadSize]
    omega
  have many : elements.length ≤ wordBytes * elements.length := Nat.le_mul_of_pos_left _ (by decide)
  refine ⟨elements, encodings, rfl, ((Value.holds_lengthWord (by omega) fixed).mp lead).symm, encodes,
    head ▸ stands, head, ?_⟩
  rw [List.length_append, Value.length_lengthWord_eq]

/-- An array is the only one that may be encoded if its elements are. -/
theorem matches_array (counted : elements.length = storedCount calldata length source.toNat)
    (each : (source + leadSize length).toNat + elements.length * base.headBytes < 2 ^ 256 →
      ∀ position (inside : position < elements.length), Matches calldata base
        (sourceOf calldata (source + leadSize length) base (position * base.headBytes)).toNat elements[position]) :
    Matches calldata (.array base length) source.toNat (.array elements) := by
  intro other encoding encoded holds small few
  obtain ⟨others, encodings, rfl, array⟩ := encodedArray encoded holds small few
  have same : elements.length = others.length := counted.trans array.counted.symm
  have total := array.total
  have head := array.head
  have heads := array.each.length_sequenceBytes
  rw [Value.headBytesSum_replicate] at heads
  rw [Value.allocated_array] at few
  refine congrArg Value.array (List.ext_getElem same fun position inside inside' => ?_)
  have inside'' : position < encodings.length := by
    rw [array.each.covered, List.length_replicate]
    exact inside'
  obtain ⟨within, found⟩ := holds_elementSource array.each array.holds (by omega) inside' inside''
  have part := Value.allocated_le_each (List.replicate others.length base) others (by simpa using inside') inside'
  have encodes := array.each.each position (by simpa using inside') inside' inside''
  simp only [List.getElem_replicate] at part encodes
  exact each (by rw [same]; omega) position inside _ _ encodes found (by omega) (by omega)

/-- The lengths of an array of words. -/
theorem lengthsFit_words (strategy : base.elementStrategy = .valueInline) :
    LengthsFit calldata (.array base length) source ↔
      flatExtent calldata (.array base length) source.toNat < 2 ^ 256 := by
  rw [LengthsFit, strategy]

/-- The lengths of an array whose elements are decoded one by one are those of its elements. -/
theorem lengthsFit_separate (strategy : base.elementStrategy = .separateTail) :
    LengthsFit calldata (.array base length) source ↔ ∀ index < storedCount calldata length source.toNat,
      LengthsFit calldata base (sourceOf calldata (source + leadSize length) base (index * base.headBytes)) := by
  rw [LengthsFit, strategy]

/-- All lengths of an encoding fit. -/
theorem lengthsFit_of_encoded (encoded : encodeAs shape value = .ok encoding)
    (holds : Memory.Holds calldata source.toNat encoding) (small : source.toNat + encoding.length < 2 ^ 256)
    (few : allocated shape value < 2 ^ 256) : LengthsFit calldata shape source := by
  induction shape using Shape.induction generalizing value encoding source with
  | word shape valueType =>
    cases shape with
    | bytes | string | array _ _ | struct _ _ | tuple _ | error _ _ | event _ _ _ _ => cases valueType
    | _ => exact trivial
  | bytes shape bytesLike =>
    rw [lengthsFit_bytes bytesLike, ← Value.length_of_holds (.bytes bytesLike) encoded holds (by omega)]
    omega
  | array base length ih =>
    cases strategy : base.elementStrategy with
    | valueInline =>
      have flat : (Shape.array base length).IsFlat := .array length (Shape.isValueType_of_strategy strategy)
      rw [lengthsFit_words strategy, ← Value.length_of_holds flat encoded holds (by omega)]
      omega
    | combinedStaticTail | combinedDynamicTail =>
      rw [LengthsFit, strategy]
      exact trivial
    | separateTail =>
      obtain ⟨elements, encodings, rfl, array⟩ := encodedArray encoded holds small few
      have total := array.total
      have head := array.head
      rw [Value.allocated_array] at few
      refine (lengthsFit_separate strategy).mpr fun index inside => ?_
      rw [← array.counted] at inside
      have inside' : index < encodings.length := by
        rw [array.each.covered, List.length_replicate]
        exact inside
      obtain ⟨within, found⟩ := holds_elementSource array.each array.holds (by omega) inside inside'
      have part := Value.allocated_le_each (List.replicate elements.length base) elements (by simpa using inside)
        inside
      have encodes := array.each.each index (by simpa using inside) inside inside'
      simp only [List.getElem_replicate] at part encodes
      exact ih encodes found (by omega) (by omega)
  | composite shape members composite ih =>
    obtain ⟨values, encodings, rfl, -, encodes, rfl⟩ := (Value.encodeAs_composite composite).mp encoded
    rw [Value.allocated_composite composite] at few
    refine (lengthsFit_composite composite).mpr fun position inside => ?_
    have inside' : position < values.length := encodes.counted.symm ▸ inside
    have inside'' : position < encodings.length := encodes.covered.symm ▸ inside
    obtain ⟨within, found⟩ := holds_sourceOf encodes holds small inside inside''
    have part := Value.allocated_le_each _ _ inside inside'
    exact ih _ (List.getElem_mem inside) (encodes.each position inside inside' inside'') found (by omega) (by omega)
  | signature shape isSignature =>
    cases shape with
    | error _ _ | event _ _ _ _ => exact trivial
    | _ => cases isSignature

end

end YulAbi.Codec
