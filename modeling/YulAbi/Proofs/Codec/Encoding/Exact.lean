import YulAbi.Proofs.Codec.Encoding.Array
import YulAbi.Proofs.Codec.Encoding.Composite
import YulAbi.Proofs.Codec.Session
import YulAbi.Proofs.Yul.Budget

/-!
# Encoders write exactly the encoding

Whatever data a value is of, its encoder writes the encoding and nothing else. An encoder
that a session answers with does so wherever the value is, provided all its bytes lie
below the address that it is written to. Nothing is assumed about the bytes from that
address on, nor about how the value came to be where it is.
-/

namespace YulAbi.Codec

open Value (Reads Stands encodeAs readAs)

section

variable {settings : Settings} {unit : CodeUnit} {before after : Workspace} {type : SolType} {name : String}
  {machine : Machine} {shape : Shape} {pointer target : Word} {value : Value} {encoding : List UInt8} {cap : Nat}

/-- How bytes and text are encoded. -/
theorem encodeAt_bytes (bytesLike : shape.isBytesLike = true) : encodeAt cap shape = encodeBytesAt := by
  cases shape with
  | bytes | string => rfl
  | _ => cases bytesLike

/-- How arrays are encoded. -/
theorem encodeAt_array {base : Shape} {length : Option Nat} : encodeAt cap (.array base length) =
    match base.elementStrategy with
    | .valueInline => encodeWordsAt length
    | .combinedStaticTail => encodeStaticTail length (Word.ofNat base.staticBytes)
    | .combinedDynamicTail => encodeDynamicTail length base.isBytesLike (tailExtent base)
    | .separateTail => encodeSeparate length base (encodeAt cap base) := by
  funext pointer target
  rw [encodeAt]
  cases base.elementStrategy <;> rfl

/-- Data are written. -/
theorem encodeAt_writes (data : shape.isData = true) : Writes (encodeAt cap shape) shape := by
  induction shape using Shape.induction with
  | word shape valueType =>
    rw [encodeAt_word valueType]
    exact mstore_writes valueType
  | bytes shape bytesLike =>
    rw [encodeAt_bytes bytesLike]
    exact encodeBytesAt_writes bytesLike
  | array base length ih =>
    obtain ⟨elements, few⟩ := Shape.isData_array data
    rw [encodeAt_array]
    cases strategy : base.elementStrategy with
    | valueInline => exact encodeWordsAt_writes (Shape.isValueType_of_strategy strategy) length few
    | combinedStaticTail =>
      obtain ⟨flat, static⟩ := Shape.isFlat_of_staticTail elements strategy
      exact encodeStaticTail_writes flat static
    | combinedDynamicTail =>
      obtain ⟨flat, dynamic⟩ := Shape.isFlat_of_dynamicTail elements strategy
      exact encodeDynamicTail_writes flat dynamic
    | separateTail => exact encodeSeparate_writes (ih elements)
  | composite shape members composite ih =>
    obtain ⟨parts, few⟩ := composite.isData data
    exact encodeComposite_writes composite few
      (fun member listed => Shape.isValueType_or_isReferenceType (parts member listed))
      fun member listed _ => ih member listed (parts member listed)
  | signature shape isSignature =>
    cases shape with
    | error _ _ | event _ _ _ _ => cases data
    | _ => cases isSignature

/-- Encoders write the encoding of the value behind a pointer, answer with its size, and change nothing else. -/
theorem encoder_writes_encoding (session : Session settings unit before)
    (answered : (encode settings type).runOn before = (.ok (.routine name), after))
    (data : type.shape.isData = true) (read : readAs machine type.shape pointer = .ok value)
    (below : ∀ index, Reads machine type.shape pointer index → index < target.toNat)
    (encoded : encodeAs type.shape value = .ok encoding)
    (room : target.toNat + encoding.length ≤ memoryLimit) :
    ∃ final enough,
      (∀ limit, enough ≤ limit → (after.unit.call limit name [pointer, target]).run machine =
        .ok [Word.ofNat encoding.length] final) ∧
      machine.Puts final target.toNat encoding := by
  have acts : after.unit.CallActs name [pointer, target] (do
      let size ← encodeAt settings.bridgedReferences type.shape pointer target
      return [size]) := session.encodes answered pointer target
  have stands : Stands machine 0 target.toNat type.shape pointer value :=
    ⟨read, fun index reads => ⟨Nat.zero_le _, below index reads⟩⟩
  obtain ⟨final, written, puts⟩ := encodeAt_writes data machine pointer target value encoding stands encoded room
  obtain ⟨enough, ends⟩ := acts.exists_enough machine
  refine ⟨final, enough, fun limit long => ?_, puts⟩
  rw [ends limit long, Step.bind_of_ok written]
  rfl

/-- A machine with three bytes behind the reserved words, and other bytes wherever there is room for padding. -/
def unpaddedBytes : Machine :=
  ⟨⟨(List.replicate 128 0 ++ Word.toBytes 3#256 ++ [1, 2, 3] ++ List.replicate 93 238).toArray⟩, .empty, [], [], []⟩

/-- Three bytes are written with zeros behind them, whatever was behind them and where they are written to. -/
theorem encoder_writes_three_bytes : ∃ name after final enough,
    (encode .standard .bytes).runOn (.start .empty) = (.ok (.routine name), after) ∧
    (∀ limit, enough ≤ limit →
      (after.unit.call limit name [128#256, 192#256]).run unpaddedBytes = .ok [64#256] final) ∧
    unpaddedBytes.Puts final 192 (Value.encodeBytes [1, 2, 3]) := by
  have answered : (encode .standard .bytes).runOn (.start .empty) =
      (.ok (.routine "abi_encode_bytes"), ((encode .standard .bytes).runOn (.start .empty)).2) := by rfl
  have session : Session .standard .empty (.start .empty) := .start
  have counted : (unpaddedBytes.wordAt (128#256).toNat).toNat = 3 := by decide +kernel
  have holds : Memory.Holds unpaddedBytes.memory ((128#256).toNat + wordBytes) [1, 2, 3] := by
    unfold Memory.Holds
    decide +kernel
  have read : readAs unpaddedBytes SolType.bytes.shape 128#256 = .ok (.bytes [1, 2, 3]) :=
    (Value.readAs_bytes (by rfl)).mpr ⟨[1, 2, 3], rfl, by decide, counted, by decide, holds⟩
  have below : ∀ index, Reads unpaddedBytes SolType.bytes.shape 128#256 index → index < (192#256).toNat := by
    intro index reads
    have upper := ((Value.reads_bytes (by rfl)).mp reads).2
    rw [counted] at upper
    exact Nat.lt_trans upper (by decide)
  have encoded : encodeAs SolType.bytes.shape (.bytes [1, 2, 3]) = .ok (Value.encodeBytes [1, 2, 3]) := rfl
  obtain ⟨final, enough, ends, puts⟩ := encoder_writes_encoding session answered rfl read below encoded
    (by decide +kernel)
  exact ⟨_, _, final, enough, answered, ends, puts⟩

end

end YulAbi.Codec
