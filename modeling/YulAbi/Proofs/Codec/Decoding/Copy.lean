import YulAbi.Proofs.Codec.Decoding.Source

/-!
# Decoding by one copy

Bytes, text and arrays of words are copied to fresh memory as they are. The pointer is then
set behind the copy, so the value has been placed unless the size of the copy has wrapped.
-/

namespace YulAbi.Codec

open Machine (Fresh Roomy)
open Value (Matches allocated encodeAs flatExtent storedCount tailSpan)

section

variable {before middle after machine : Machine} {shape base : Shape} {length : Option Nat} {value : Value}
  {encoding : List UInt8} {source target size word : Word} {extent : Word → MachineStep Word}

/-- Call data that is copied to fresh memory, which is then allocated. -/
theorem copy_allocates (copied : (Machine.calldatacopy target source size).run before = .ok () middle)
    (moved : (Machine.mstore freeSlot (target + size)).run middle = .ok () after)
    (above : Machine.freePointerSlot + wordBytes ≤ target.toNat) :
    (size.toNat = 0 ∨ target.toNat + size.toNat ≤ memoryLimit) ∧ after.free = target.toNat + size.toNat ∧
      before.ChangesOnly (Fresh target.toNat) after ∧
      ∀ index < size.toNat, Memory.byteAt after.memory (target.toNat + index) =
        Memory.byteAt before.calldata (source.toNat + index) := by
  have limit : memoryLimit < 2 ^ 256 := by decide
  obtain ⟨fits, puts⟩ := Machine.puts_of_calldatacopy copied
  obtain ⟨pointer, changed⟩ := Machine.free_of_mstore moved
  have fresh : middle.ChangesOnly (Fresh target.toNat) after := changed.mono fun _ inside => .inl inside
  refine ⟨fits, ?_, (puts.fresh (Nat.le_refl _)).trans fresh, fun index inside => ?_⟩
  · rw [pointer, Word.toNat_add]
    have := target.isLt
    omega
  · rw [changed.memory _ fun slot => by omega]
    exact Memory.holds_bytesAt_iff.mp puts.inside index inside

/-- Call data is copied to fresh memory if it fits. -/
theorem copy_ok (target size : Word) (machine : Machine) (source : Word)
    (fits : size.toNat = 0 ∨ target.toNat + size.toNat ≤ memoryLimit) :
    ∃ middle after, (Machine.calldatacopy target source size).run machine = .ok () middle ∧
      (Machine.mstore freeSlot (target + size)).run middle = .ok () after := by
  obtain ⟨middle, copied⟩ := Machine.calldatacopy_ok machine source fits
  obtain ⟨after, moved⟩ := Machine.mstore_free_ok middle (target + size)
  exact ⟨middle, after, copied, moved⟩

/-- What a decoder that copies does to memory. -/
theorem decodeCopy_places (measured : (extent source).run before = .ok size before) (roomy : before.Roomy)
    (h : (decodeCopy extent source).run before = .ok word after) :
    word.toNat = before.free ∧ before.Advances after ∧ after.free = before.free + size.toNat ∧
      ∀ index < size.toNat, Memory.byteAt after.memory (before.free + index) =
        Memory.byteAt before.calldata (source.toNat + index) := by
  obtain ⟨target, reached, loaded, measuring⟩ := Step.bind_eq_ok.mp h
  obtain ⟨isFree, rfl⟩ := Machine.eq_of_mload_free loaded
  obtain ⟨taken, reached', measured', copying⟩ := Step.bind_eq_ok.mp measuring
  rw [measured] at measured'
  cases measured'
  obtain ⟨_, middle, copied, moving⟩ := Step.bind_eq_ok.mp copying
  obtain ⟨_, stored, moved, last⟩ := Step.bind_eq_ok.mp moving
  cases last
  obtain ⟨fits, pointer, changed, same⟩ := copy_allocates copied moved (isFree ▸ roomy.above)
  rw [isFree] at fits pointer changed same
  have within := roomy.fits
  exact ⟨isFree, ⟨changed, by omega, by omega⟩, pointer, same⟩

/-- A decoder that copies succeeds if there is memory for the copy. -/
theorem decodeCopy_ok (measured : (extent source).run before = .ok size before)
    (fits : before.free + size.toNat ≤ memoryLimit) :
    ∃ word after, (decodeCopy extent source).run before = .ok word after := by
  obtain ⟨middle, after, copied, moved⟩ := copy_ok _ _ before source (.inr fits)
  refine ⟨before.wordAt Machine.freePointerSlot, after, ?_⟩
  rw [decodeCopy, Step.bind_of_ok (Machine.run_mload_free before), Step.bind_of_ok measured,
    Step.bind_of_ok copied, Step.bind_of_ok moved]
  rfl

/-- Whether the size of the copy is that of the flat value, unless it wraps. -/
def Measures (extent : Word → MachineStep Word) (shape : Shape) : Prop :=
  ∀ source machine, ∃ size, (extent source).run machine = .ok size machine ∧
    (flatExtent machine.calldata shape source.toNat < 2 ^ 256 →
      size.toNat = flatExtent machine.calldata shape source.toNat)

/-- A flat value is placed by one copy. -/
theorem decodeCopy_settles (flat : shape.IsFlat) (measures : Measures extent shape)
    (fit : ∀ calldata source, LengthsFit calldata shape source →
      flatExtent calldata shape source.toNat < 2 ^ 256) : Settles (decodeCopy extent) shape := by
  intro source before word after roomy _ h
  obtain ⟨size, measured, same⟩ := measures source before
  obtain ⟨place, advances, pointer, copied⟩ := decodeCopy_places measured roomy h
  refine ⟨advances, fun lengths => ?_⟩
  have exact_size := same (fit _ _ lengths)
  rw [exact_size] at pointer copied
  rw [← place] at copied
  have stands := Value.stands_copy flat copied (Nat.le_of_eq place.symm)
    (Nat.le_of_eq (by rw [place, pointer])) advances.fits
  exact ⟨_, ⟨by rw [pointer, Value.allocated_flatValue flat], stands⟩, Value.matches_flatValue flat _ _⟩

/-- A flat value is decoded by one copy. -/
theorem decodeCopy_succeeds (flat : shape.IsFlat) (measures : Measures extent shape) :
    Succeeds (decodeCopy extent) shape := by
  intro source before value encoding _ short encoded holds inside room
  obtain ⟨size, measured, same⟩ := measures source before
  have extent_eq := Value.length_of_holds flat encoded holds (by omega)
  have takes := Value.allocated_flat flat encoded
  refine decodeCopy_ok measured ?_
  rw [same (by omega)]
  omega

/-- The size that a length word gives, unless it wraps. -/
theorem toNat_tailExtent {length : Word} (small : tailSpan shape length.toNat < 2 ^ 256) :
    (tailExtent shape length).toNat = tailSpan shape length.toNat := by
  unfold tailExtent tailSpan at *
  split at small
  · rename_i bytesLike
    have total : (length + 63#256).toNat = length.toNat + 63 := Word.toNat_add (by
      change _ + 63 < _
      omega)
    rw [if_pos bytesLike, if_pos bytesLike, paddedExtent, Word.toNat_roundDown, total]
    omega
  · rename_i words
    have total : (length + 1#256).toNat = length.toNat + 1 := Word.toNat_add (by
      change _ + 1 < _
      omega)
    rw [if_neg words, if_neg words, wordsExtent, Word.toNat_mul, total]
    · exact Nat.mul_comm _ _
    · rw [total]
      change _ * 32 < _
      omega

/-- The size of encoded bytes. -/
theorem bytesExtentAt_measures (bytesLike : shape.isBytesLike = true) : Measures bytesExtentAt shape := by
  intro source machine
  refine ⟨tailExtent shape (Memory.wordAt machine.calldata source.toNat), ?_, fun small => ?_⟩
  · rw [bytesExtentAt, Step.bind_of_ok (Machine.run_calldataload source machine), tailExtent, if_pos bytesLike]
    rfl
  · rw [Value.flatExtent_dynamic (Value.isDynamicallyEncoded_of_isBytesLike bytesLike)] at small ⊢
    exact toNat_tailExtent small

/-- The size of an encoded array of words. -/
theorem wordsExtentAt_measures (words : base.isValueType = true) (length : Option Nat) :
    Measures (wordsExtentAt length) (.array base length) := by
  intro source machine
  cases length with
  | none =>
    refine ⟨tailExtent (.array base none) (Memory.wordAt machine.calldata source.toNat), ?_, fun small => ?_⟩
    · rw [wordsExtentAt, Step.bind_of_ok (Machine.run_calldataload source machine), tailExtent,
        if_neg (by simp [Shape.isBytesLike])]
      rfl
    · rw [Value.flatExtent_dynamic (by simp [Shape.isDynamicallyEncoded])] at small ⊢
      exact toNat_tailExtent small
  | some count =>
    refine ⟨Word.ofNat (count * wordBytes), rfl, fun small => ?_⟩
    have total : flatExtent machine.calldata (.array base (some count)) source.toNat = count * wordBytes := by
      rw [Value.flatExtent_static, Shape.staticBytes, Shape.staticBytes_word words]
      rw [Shape.isDynamicallyEncoded, Shape.isDynamicallyEncoded_of_isValueType words]
    rw [total] at small ⊢
    exact Word.toNat_ofNat small

end

end YulAbi.Codec
