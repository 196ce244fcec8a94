import YulAbi.Proofs.Codec.Decoding.Decoded
import YulAbi.Proofs.Codec.Session
import YulAbi.Proofs.Value.Encodable
import YulAbi.Proofs.Value.Written
import YulAbi.Proofs.Yul.Budget

/-!
# Memory is accounted for alike

A decoder that is run on the encoding of a value moves the free memory pointer as far as
writing the value without any routine does: by whole words, and by the size that the shape
has in memory if it is encoded statically. So the size that a shape gives is the memory that
its values take, together with all their parts.
-/

namespace YulAbi

namespace Value

open Shape (admitEach)

section

variable {shape : Shape} {members : List Shape} {value : Value} {values : List Value}

/-- Elements that take the same memory each. -/
theorem allocatedEach_alike {base : Shape} {elements : List Value} {size : Nat}
    (same : ∀ element ∈ elements, allocated base element = size) :
    allocatedEach (List.replicate elements.length base) elements = elements.length * size := by
  rw [allocatedEach_replicate, List.map_congr_left same, List.map_const', List.sum_replicate_nat]

/-- The references among parts take what they take together, if each of them takes what its shape gives. -/
theorem extendedMemorySizeSum_eq (admitted : admitEach members values = true)
    (small : allocatedEach members values < 2 ^ 64)
    (each : ∀ member ∈ members, ∀ {value}, member.isReferenceType = true → member.admits value = true →
      allocated member value < 2 ^ 64 → member.extendedMemorySize = .ok (allocated member value)) :
    Shape.extendedMemorySizeSum members = .ok (allocatedEach members values) := by
  induction members generalizing values with
  | nil => rfl
  | cons member rest ih =>
    cases values with
    | nil => cases admitted
    | cons value others =>
      rw [admitEach, Bool.and_eq_true] at admitted
      rw [allocatedEach] at small
      have more := ih admitted.2 (by omega) fun other listed => each other (List.mem_cons_of_mem _ listed)
      rw [Shape.extendedMemorySizeSum, more, allocatedEach]
      cases reference : member.isReferenceType with
      | true =>
        rw [if_pos rfl, each member List.mem_cons_self reference admitted.1 (by omega)]
        rfl
      | false =>
        rw [if_neg Bool.false_ne_true, allocated_word (Shape.isValueType_of_admits admitted.1 reference), Nat.zero_add]

/-- What a static value takes in memory is the size that its shape gives. The elements of an array take the same, and
there is one to tell the size, as the length of a legal array is not zero. -/
theorem extendedMemorySize_eq (legal : shape.isLegal = true) (reference : shape.isReferenceType = true)
    (static : shape.isDynamicallyEncoded = false) (admitted : shape.admits value = true)
    (small : allocated shape value < 2 ^ 64) : shape.extendedMemorySize = .ok (allocated shape value) := by
  induction shape using Shape.induction generalizing value with
  | word shape valueType =>
    rw [Shape.isReferenceType_of_isValueType valueType] at reference
    cases reference
  | bytes shape bytesLike =>
    rw [isDynamicallyEncoded_of_isBytesLike bytesLike] at static
    cases static
  | array base length ih =>
    cases length with
    | none => cases static
    | some count =>
      obtain ⟨elements, rfl, rfl, first, each⟩ := fixed_elements legal admitted
      obtain ⟨-, legal', -⟩ := Shape.isLegal_array.mp legal
      obtain ⟨own, part⟩ := element_fits each first
      rw [allocated_array, lengthSize, Nat.zero_add, Nat.mul_comm wordBytes] at small ⊢
      have words : Shape.checkedProduct (.array base (some elements.length)) elements.length wordBytes =
          .ok (elements.length * wordBytes) :=
        if_pos (show elements.length * wordBytes < 2 ^ 64 by omega)
      rw [Shape.extendedMemorySize, Shape.memorySize, words]
      cases inner : base.isReferenceType with
      | true =>
        have measured := ih legal' inner static own (by omega)
        have same : ∀ element ∈ elements, allocated base element = allocated base elements[0] := by
          intro element listed
          obtain ⟨position, inside, rfl⟩ := List.getElem_of_mem listed
          obtain ⟨fit, few⟩ := element_fits each inside
          have measured' := ih legal' inner static fit (by omega)
          rw [measured] at measured'
          exact (Except.ok.inj measured').symm
        have total := allocatedEach_alike same
        have nested : Shape.checkedProduct (.array base (some elements.length)) elements.length
            (allocated base elements[0]) = .ok (elements.length * allocated base elements[0]) :=
          if_pos (show elements.length * allocated base elements[0] < 2 ^ 64 by omega)
        rw [measured, total]
        change (Except.ok _ >>= fun own => (do
          let nested ← Shape.checkedProduct (.array base (some elements.length)) elements.length _
          return own + nested)) = _
        rw [nested]
        rfl
      | false =>
        have valueType := Shape.isValueType_of_admits own inner
        rw [allocatedEach_words fun member listed => (List.eq_of_mem_replicate listed) ▸ valueType]
        rfl
  | composite shape members composite ih =>
    obtain ⟨values, rfl, each⟩ := (Shape.admits_composite composite).mp admitted
    rw [allocated_composite composite] at small ⊢
    rw [composite.isDynamicallyEncoded_eq] at static
    have legal' := Shape.areLegal_iff.mp (composite.areLegal legal)
    have parts := extendedMemorySizeSum_eq each (by omega) fun member listed {value} reference =>
      ih member listed (legal' member listed).2 reference (static_of_anyDynamicallyEncoded static member listed)
    have unfolded : shape.extendedMemorySize = (do
        let own ← shape.memorySize
        let nested ← Shape.extendedMemorySizeSum members
        return own + nested) := by
      rcases composite with ⟨name, rfl⟩ | rfl <;> rw [Shape.extendedMemorySize]
    rw [unfolded, Shape.memorySize_composite composite, parts, Nat.mul_comm wordBytes]
    rfl
  | signature shape signature =>
    rw [Shape.not_admits_signature signature] at admitted
    cases admitted

end

end Value

namespace Codec

open Value (allocated encodeAs writeAs)

section

variable {settings : Settings} {unit : CodeUnit} {before after : Workspace} {type : SolType} {name : String}
  {machine : Machine} {value : Value}

/-- Decoding a value and writing it move the free memory pointer alike: by whole words, and by the size that a static
type has in memory. Both succeed if there is room for that. -/
theorem decoder_allocates_like_writer (session : Session settings unit before)
    (answered : (decode settings type).runOn before = (.ok (.routine name), after))
    (data : type.shape.isData = true) (legal : type.shape.isLegal = true)
    (reference : type.shape.isReferenceType = true) (fit : type.shape.admits value = true)
    (above : Machine.freePointerSlot + wordBytes ≤ machine.free) (addressed : machine.calldata.size < 2 ^ 64)
    (room : machine.free + allocated type.shape value ≤ memoryLimit) :
    wordBytes ∣ allocated type.shape value ∧
    (type.shape.isDynamicallyEncoded = false → type.shape.extendedMemorySize = .ok (allocated type.shape value)) ∧
    (∃ word written, (writeAs type.shape value).run machine = .ok word written ∧
      written.free = machine.free + allocated type.shape value) ∧
    ∃ encoding, encodeAs type.shape value = .ok encoding ∧ ∀ source : Word,
      Memory.Holds machine.calldata source.toNat encoding →
      source.toNat + encoding.length ≤ machine.calldata.size →
      ∃ word decoded enough,
        (∀ limit, enough ≤ limit → (after.unit.call limit name [source]).run machine = .ok [word] decoded) ∧
        decoded.free = machine.free + allocated type.shape value := by
  have limit : memoryLimit < 2 ^ 64 := by decide
  have roomy : machine.Roomy := ⟨above, by omega⟩
  obtain ⟨word, written, ran, wrote⟩ := Value.writeAs_ok above fit room
  obtain ⟨encoding, encoded⟩ := Value.exists_encodeAs legal fit (by omega)
  refine ⟨Value.dvd_allocated _ _, fun static => Value.extendedMemorySize_eq legal reference static fit (by omega),
    ⟨word, written, ran, wrote.placed.moved⟩, encoding, encoded, fun source holds inside => ?_⟩
  have acts : after.unit.CallActs name [source] (do
      let word ← decodeAt settings.bridgedReferences type.shape source
      return [word]) := session.decodes answered source
  obtain ⟨word, decoded, ran⟩ :=
    decodeAt_succeeds data reference source machine value encoding roomy addressed encoded holds inside room
  obtain ⟨-, settled⟩ := decodeAt_settles data reference source machine word decoded roomy addressed ran
  have small : source.toNat + encoding.length < 2 ^ 256 := by omega
  have few : allocated type.shape value < 2 ^ 256 := by omega
  obtain ⟨restored, placed, only⟩ := settled (lengthsFit_of_encoded encoded holds small few)
  have same : restored = value := only value encoding encoded holds small few
  obtain ⟨enough, ends⟩ := acts.exists_enough machine
  refine ⟨word, decoded, enough, fun limit long => ?_, ?_⟩
  · rw [ends limit long, Step.bind_of_ok ran]
    rfl
  · rw [placed.moved, same]

/-- A flag and a pair of addresses. -/
def signedPairType : SolType := .tuple [⟨"sign", .bool⟩, ⟨"pair", .array .address (some 2)⟩]

/-- A flag that is set, and two addresses. -/
def signedPair : Value := .tuple [.word 1#256, .array [.word 5#256, .word 7#256]]

/-- The words of the flag and the addresses. -/
def signedPairWords : List UInt8 := Word.toBytes 1#256 ++ Word.toBytes 5#256 ++ Word.toBytes 7#256

/-- A machine whose call data hold these words behind a selector. -/
def signedPairCall : Machine := .start ⟨([222, 173, 190, 239] ++ signedPairWords).toArray⟩

/-- Four words are taken for a flag and a pair of addresses. -/
theorem signedPair_takes_four_words : ∃ name after,
    (decode .standard signedPairType).runOn (.start .empty) = (.ok (.routine name), after) ∧
    signedPairType.shape.extendedMemorySize = .ok 128 ∧
    (∃ word written, (writeAs signedPairType.shape signedPair).run signedPairCall = .ok word written ∧
      written.free = 256) ∧
    ∃ word decoded enough, (∀ limit, enough ≤ limit →
      (after.unit.call limit name [4#256]).run signedPairCall = .ok [word] decoded) ∧ decoded.free = 256 := by
  have answered : (decode .standard signedPairType).runOn (.start .empty) =
      (.ok (.routine "abi_decode_tuple_bool_address_array2"),
        ((decode .standard signedPairType).runOn (.start .empty)).2) :=
    Prod.ext (by decide +kernel) rfl
  have session : Session .standard .empty (.start .empty) := .start
  have free : signedPairCall.free = 128 := by decide +kernel
  have addressed : signedPairCall.calldata.size < 2 ^ 64 := by decide +kernel
  have words : encodeAs signedPairType.shape signedPair = .ok signedPairWords := by decide +kernel
  have holds : Memory.Holds signedPairCall.calldata (4#256).toNat signedPairWords := by
    unfold Memory.Holds
    decide +kernel
  have inside : (4#256).toNat + signedPairWords.length ≤ signedPairCall.calldata.size := by decide +kernel
  have size : allocated signedPairType.shape signedPair = 128 := by decide +kernel
  have room : signedPairCall.free + allocated signedPairType.shape signedPair ≤ memoryLimit := by
    rw [free, size]
    decide
  obtain ⟨-, static, ⟨word, written, ran, moved⟩, encoding, encoded, decodes⟩ :=
    decoder_allocates_like_writer session answered (by decide +kernel) (by decide +kernel) (by decide +kernel)
      (by decide +kernel) (by rw [free]; decide) addressed room
  cases words.symm.trans encoded
  obtain ⟨word', decoded, enough, ends, moved'⟩ := decodes 4#256 holds inside
  rw [free, size] at moved moved'
  rw [size] at static
  exact ⟨_, _, answered, static (by decide +kernel), ⟨word, written, ran, moved⟩, word', decoded, enough, ends, moved'⟩

end

end Codec

end YulAbi
