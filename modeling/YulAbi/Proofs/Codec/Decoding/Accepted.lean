import YulAbi.Proofs.Codec.Decoding.DynamicTail
import YulAbi.Proofs.Codec.Session
import YulAbi.Proofs.Yul.Budget

/-!
# What decoders of one dynamic level accept

The decoder of an array of bytes, or of arrays of words, that a session answers with returns on
canonical call data and reverts without data on everything else. What it returns are the
bytes or words of the tails. It is not said how much memory refusing takes, since it takes none.
-/

namespace YulAbi.Codec

open Value (lengthSize readAs storedCount)

section

variable {settings : Settings} {unit : CodeUnit} {before after : Workspace} {base : SolType} {length : Option Nat}
  {name : String} {machine : Machine} {source : Word}

/-- The elements of an array at the tails where canonical call data have them. -/
def tailElements (calldata : ByteArray) (element : Shape) (length : Option Nat) (start : Nat) : List Value :=
  let head := start + lengthSize length
  let count := storedCount calldata length start
  (List.range count).map fun position =>
    Value.flatValue calldata element (head + tailOffset calldata element head count position)

/-- Arrays of one dynamic level take the memory up to the end of the last tail. -/
def tailsMemory (calldata : ByteArray) (element : Shape) (length : Option Nat) (start : Nat) : Nat :=
  lengthSize length + tailOffset calldata element (start + lengthSize length) (storedCount calldata length start)
    (storedCount calldata length start)

/-- The elements at canonical tails are read from what the decoder places. -/
theorem decodeDynamicTail_reads {element : Shape} {word : Word} {final : Machine} (flat : element.IsFlat)
    (dynamic : element.isDynamicallyEncoded = true) (few : ∀ expected ∈ length, expected < 2 ^ 64)
    (roomy : machine.Roomy) (short : machine.calldata.size < 2 ^ 64) (inside : source.toNat ≤ machine.calldata.size)
    (h : (decodeDynamicTail length (tailExtent element) source).run machine = .ok word final) :
    readAs final (.array element length) word =
      .ok (.array (tailElements machine.calldata element length source.toNat)) := by
  obtain ⟨count, tail, filled, grown, decoded⟩ := tailsDecoded_of_ok few short h
  have placed := (decoded.links dynamic roomy short).places flat
  have head := toNat_inside length short inside
  have read := placed.stands.read
  rw [head] at read
  exact read

/-- The decoder of an array of one dynamic level accepts exactly canonical call data. -/
theorem dynamicTail_accepts_canonical (session : Session settings unit before)
    (answered : (decode settings (.array base length)).runOn before = (.ok (.routine name), after))
    (data : (SolType.array base length).shape.isData = true)
    (strategy : base.shape.elementStrategy = .combinedDynamicTail) (addressed : machine.calldata.size < 2 ^ 64)
    (inside : source.toNat ≤ machine.calldata.size) :
    (¬ Canonical machine.calldata base.shape length source.toNat →
      ∃ enough, ∀ limit, enough ≤ limit →
        (after.unit.call limit name [source]).run machine = .error (.reverted []) machine) ∧
    (Canonical machine.calldata base.shape length source.toNat →
      Machine.freePointerSlot + wordBytes ≤ machine.free →
      machine.free + tailsMemory machine.calldata base.shape length source.toNat ≤ memoryLimit →
      ∃ word final enough,
        (∀ limit, enough ≤ limit → (after.unit.call limit name [source]).run machine = .ok [word] final) ∧
        readAs final (SolType.array base length).shape word =
          .ok (.array (tailElements machine.calldata base.shape length source.toNat))) := by
  obtain ⟨elements, few⟩ := Shape.isData_array data
  obtain ⟨flat, dynamic⟩ := Shape.isFlat_of_dynamicTail elements strategy
  have decodes : decodeAt settings.bridgedReferences (SolType.array base length).shape =
      decodeDynamicTail length (tailExtent base.shape) := by
    funext source
    rw [SolType.shape, decodeAt, strategy]
  have acts : after.unit.CallActs name [source] (do
      let word ← decodeDynamicTail length (tailExtent base.shape) source
      return [word]) := by
    rw [← decodes]
    exact session.decodes answered source
  obtain ⟨enough, ends⟩ := acts.exists_enough machine
  constructor
  · intro refused
    refine ⟨enough, fun limit long => ?_⟩
    rw [ends limit long]
    exact Step.bind_of_error (decodeDynamicTail_refuses few addressed inside refused)
  · intro canonical above room
    have roomy : machine.Roomy := ⟨above, Nat.le_trans (Nat.le_add_right _ _) room⟩
    rw [tailsMemory, ← Nat.add_assoc] at room
    obtain ⟨word, final, decoded⟩ := decodeDynamicTail_ok few addressed canonical room
    refine ⟨word, final, enough, fun limit long => ?_, ?_⟩
    · rw [ends limit long, Step.bind_of_ok decoded]
      rfl
    · exact decodeDynamicTail_reads flat dynamic few roomy addressed inside decoded

/-- A machine whose call data hold an array of one byte string, whose tail is said to be at an offset. -/
def oneTailCall (offset : Word) : Machine :=
  .start ⟨(Word.toBytes 1#256 ++ Word.toBytes offset ++ Value.encodeBytes [5]).toArray⟩

/-- A tail behind the heads is accepted, and one anywhere else is refused. -/
theorem dynamicTail_accepts_tail_behind_heads : ∃ name after word final enough,
    (decode .standard (.array .bytes none)).runOn (.start .empty) = (.ok (.routine name), after) ∧
    (∀ limit, enough ≤ limit →
      (after.unit.call limit name [0#256]).run (oneTailCall 32#256) = .ok [word] final) ∧
    readAs final (.array .bytes none) word = .ok (.array [.bytes [5]]) ∧
    (∀ limit, enough ≤ limit → (after.unit.call limit name [0#256]).run (oneTailCall 64#256) =
      .error (.reverted []) (oneTailCall 64#256)) := by
  have answered : (decode .standard (.array .bytes none)).runOn (.start .empty) =
      (.ok (.routine "abi_decode_bytes_array"),
        ((decode .standard (.array .bytes none)).runOn (.start .empty)).2) := by rfl
  have session : Session .standard .empty (.start .empty) := .start
  have free : (oneTailCall 32#256).free = 128 := by decide +kernel
  have count : storedCount (oneTailCall 32#256).calldata none (0#256).toNat = 1 := by decide +kernel
  have memory : tailsMemory (oneTailCall 32#256).calldata SolType.bytes.shape none (0#256).toNat = 128 := by decide +kernel
  have room : (oneTailCall 32#256).free + tailsMemory (oneTailCall 32#256).calldata SolType.bytes.shape none (0#256).toNat ≤
      memoryLimit := by
    rw [free, memory]
    decide
  have elements : tailElements (oneTailCall 32#256).calldata SolType.bytes.shape none (0#256).toNat = [.bytes [5]] := by
    decide +kernel
  have canonical : Canonical (oneTailCall 32#256).calldata SolType.bytes.shape none (0#256).toNat := by
    refine ⟨by rw [count]; decide, fun index inside => ?_, by decide +kernel⟩
    rw [count] at inside ⊢
    obtain rfl : index = 0 := by omega
    exact ⟨by decide +kernel, by decide +kernel⟩
  have refused : ¬ Canonical (oneTailCall 64#256).calldata SolType.bytes.shape none (0#256).toNat := by
    intro accepted
    have ordered := (accepted.tails 0 (by decide +kernel)).ordered
    revert ordered
    decide +kernel
  have addressed : (oneTailCall 32#256).calldata.size < 2 ^ 64 := by decide +kernel
  have addressed' : (oneTailCall 64#256).calldata.size < 2 ^ 64 := by decide +kernel
  obtain ⟨-, returns⟩ := dynamicTail_accepts_canonical session answered rfl rfl addressed
    (show (0#256).toNat ≤ (oneTailCall 32#256).calldata.size from Nat.zero_le _)
  obtain ⟨reverts, -⟩ := dynamicTail_accepts_canonical session answered rfl rfl addressed'
    (show (0#256).toNat ≤ (oneTailCall 64#256).calldata.size from Nat.zero_le _)
  obtain ⟨word, final, enough, ends, read⟩ := returns canonical (by rw [free]; decide) room
  obtain ⟨needed, fails⟩ := reverts refused
  refine ⟨_, _, word, final, max enough needed, answered, fun limit long => ends limit (by omega), ?_,
    fun limit long => fails limit (by omega)⟩
  rw [← elements]
  exact read

end

end YulAbi.Codec
