import YulAbi.Proofs.Codec.Decoding.Decoded
import YulAbi.Proofs.Codec.Session
import YulAbi.Proofs.Value.Written
import YulAbi.Proofs.Yul.Budget

/-!
# Decoders restore what was encoded

A decoder that a session answers with is run on call data that hold the encoding of a value
anywhere: it answers with a pointer to that value, in memory of its own. Memory has to
suffice for what writing the value would take, as `Value.writes` shows. On any other call
data a decoder may refuse, or return as long as no length is so large that the size of its data
wraps; then too there is a value, and it lies in memory of its own.
-/

namespace YulAbi.Codec

open Value (allocated encodeAs readAs)

section

variable {settings : Settings} {unit : CodeUnit} {before after : Workspace} {type : SolType} {name : String}
  {machine : Machine} {source : Word} {value : Value} {encoding : List UInt8}

/-- Decoders read an encoded value back from memory of their own, and change nothing else. -/
theorem decoder_restores_value (session : Session settings unit before)
    (answered : (decode settings type).runOn before = (.ok (.routine name), after))
    (data : type.shape.isData = true) (reference : type.shape.isReferenceType = true)
    (above : Machine.freePointerSlot + wordBytes ≤ machine.free) (addressed : machine.calldata.size < 2 ^ 64)
    (encoded : encodeAs type.shape value = .ok encoding)
    (holds : Memory.Holds machine.calldata source.toNat encoding)
    (inside : source.toNat + encoding.length ≤ machine.calldata.size)
    (room : machine.free + allocated type.shape value ≤ memoryLimit) :
    ∃ word final enough,
      (∀ limit, enough ≤ limit → (after.unit.call limit name [source]).run machine = .ok [word] final) ∧
      readAs final type.shape word = .ok value ∧ machine.ChangesOnly (Machine.Fresh machine.free) final := by
  have roomy : machine.Roomy := ⟨above, Nat.le_trans (Nat.le_add_right _ _) room⟩
  have acts : after.unit.CallActs name [source] (do
      let word ← decodeAt settings.bridgedReferences type.shape source
      return [word]) := session.decodes answered source
  obtain ⟨word, final, decoded⟩ :=
    decodeAt_succeeds data reference source machine value encoding roomy addressed encoded holds inside room
  obtain ⟨advances, settled⟩ := decodeAt_settles data reference source machine word final roomy addressed decoded
  have limit : memoryLimit < 2 ^ 64 := by decide
  have small : source.toNat + encoding.length < 2 ^ 256 := by omega
  have few : allocated type.shape value < 2 ^ 256 := by omega
  obtain ⟨restored, placed, only⟩ := settled (lengthsFit_of_encoded encoded holds small few)
  have same : restored = value := only value encoding encoded holds small few
  obtain ⟨enough, ends⟩ := acts.exists_enough machine
  refine ⟨word, final, enough, fun limit long => ?_, ?_, advances.changes⟩
  · rw [ends limit long, Step.bind_of_ok decoded]
    rfl
  · rw [← same]
    exact placed.stands.read

/-- Whatever the call data hold, the free memory pointer does not fall when a decoder returns, and a value
lies between the old one and the new one if the lengths in the call data fit. -/
theorem decoder_allocates_value (session : Session settings unit before)
    (answered : (decode settings type).runOn before = (.ok (.routine name), after))
    (data : type.shape.isData = true) (reference : type.shape.isReferenceType = true)
    (roomy : machine.Roomy) (addressed : machine.calldata.size < 2 ^ 64) {limit : Nat} {word : Word} {final : Machine}
    (returned : (after.unit.call limit name [source]).run machine = .ok [word] final) :
    machine.free ≤ final.free ∧ (LengthsFit machine.calldata type.shape source →
      ∃ value, Value.Stands final machine.free final.free type.shape word value) := by
  have acts : after.unit.CallActs name [source] (do
      let word ← decodeAt settings.bridgedReferences type.shape source
      return [word]) := session.decodes answered source
  obtain ⟨decoded, middle, ran, same⟩ := Step.bind_eq_ok.mp (acts.of_call_ok returned)
  cases same
  obtain ⟨advances, settled⟩ := decodeAt_settles data reference source machine word final roomy addressed ran
  refine ⟨advances.up, fun fit => ?_⟩
  obtain ⟨value, placed, -⟩ := settled fit
  exact ⟨value, placed.stands⟩

/-- A machine whose call data hold three bytes between a selector and something else. -/
def threeBytesCall : Machine :=
  .start ⟨([222, 173, 190, 239] ++ Value.encodeBytes [1, 2, 3] ++ [7]).toArray⟩

/-- Three bytes are restored from behind a selector. -/
theorem decoder_restores_three_bytes : ∃ name after word final enough,
    (decode .standard .bytes).runOn (.start .empty) = (.ok (.routine name), after) ∧
    (∀ limit, enough ≤ limit →
      (after.unit.call limit name [4#256]).run threeBytesCall = .ok [word] final) ∧
    readAs final .bytes word = .ok (.bytes [1, 2, 3]) := by
  have answered : (decode .standard .bytes).runOn (.start .empty) =
      (.ok (.routine "abi_decode_bytes"), ((decode .standard .bytes).runOn (.start .empty)).2) := by rfl
  have session : Session .standard .empty (.start .empty) := .start
  have free : threeBytesCall.free = 128 := by decide +kernel
  have addressed : threeBytesCall.calldata.size < 2 ^ 64 := by decide +kernel
  have encoded : encodeAs SolType.bytes.shape (.bytes [1, 2, 3]) = .ok (Value.encodeBytes [1, 2, 3]) := rfl
  have holds : Memory.Holds threeBytesCall.calldata (4#256).toNat (Value.encodeBytes [1, 2, 3]) := by
    unfold Memory.Holds
    decide +kernel
  have inside : (4#256).toNat + (Value.encodeBytes [1, 2, 3]).length ≤ threeBytesCall.calldata.size := by
    decide +kernel
  have room : threeBytesCall.free + allocated SolType.bytes.shape (.bytes [1, 2, 3]) ≤ memoryLimit := by
    rw [free]
    decide
  obtain ⟨word, final, enough, ends, restored, -⟩ := decoder_restores_value session answered rfl rfl
    (by rw [free]; decide) addressed encoded holds inside room
  exact ⟨_, _, word, final, enough, answered, ends, restored⟩

end

end YulAbi.Codec
