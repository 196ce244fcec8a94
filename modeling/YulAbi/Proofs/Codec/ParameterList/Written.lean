import YulAbi.Keccak
import YulAbi.Proofs.Codec.Decoding.Decoded
import YulAbi.Proofs.Codec.EncodeStep
import YulAbi.Proofs.Codec.Encoding.Exact

/-!
# Reading and writing parameters

Each parameter is decoded behind the memory of those before it, so what has been decoded
stays. Where the encoding of a tuple is in call data, every parameter is found by its head and
its word stands for the value that was encoded.

Parameters are written part by part like the members of a tuple. The selector of an error is
written as a whole word first; its last 28 bytes are zeros, and the parameters begin on top of
them.
-/

/-! ### Selectors as bytes -/

namespace YulAbi

namespace Word

/-- Zeros behind bytes shift the number that they write. -/
theorem natOfBytes_append_zeros (bytes : List UInt8) (count : Nat) :
    natOfBytes (bytes ++ List.replicate count 0) = natOfBytes bytes * 256 ^ count := by
  induction count with
  | zero => simp
  | succ count ih =>
    rw [List.replicate_succ', ← List.append_assoc, natOfBytes_concat, ih, Nat.pow_succ, Nat.mul_assoc]
    rfl

end Word

namespace Keccak

open Word (natOfBytes ofBytes toBytes)

/-- A digest has 32 bytes. -/
theorem length_digest (message : List UInt8) : (digest message).length = 32 := by
  simp [digest, laneBytes]

/-- A selector has four bytes. -/
theorem length_selectorBytes (signature : String) : (selectorBytes signature).length = 4 := by
  rw [selectorBytes, digestText, List.length_take, length_digest]
  rfl

/-- The word of a selector is its bytes and then zeros. -/
theorem toBytes_selectorWord (signature : String) :
    toBytes (selectorWord signature) = selectorBytes signature ++ List.replicate 28 0 := by
  have four := length_selectorBytes signature
  have small := Word.natOfBytes_lt (selectorBytes signature)
  rw [four] at small
  have same : selectorWord signature = ofBytes (selectorBytes signature ++ List.replicate 28 0) := by
    refine BitVec.eq_of_toNat_eq ?_
    rw [ofBytes, Word.natOfBytes_append_zeros, selectorWord, ofBytes, BitVec.toNat_shiftLeft, BitVec.toNat_ofNat,
      BitVec.toNat_ofNat, Nat.shiftLeft_eq, Nat.mod_eq_of_lt (a := natOfBytes _) (by omega)]
    rfl
  rw [same, Word.toBytes_ofBytes (by rw [List.length_append, four, List.length_replicate])]

end Keccak

end YulAbi

/-! ### Words of parameters -/

namespace YulAbi.Codec

open Machine (Fresh)
open Shape (headBytesSum)
open Value (EncodesEach Placed Stands allocated allocatedEach encodeAs sequenceBytes)

/-- Whether words stand for values of parameters whose bytes lie between two offsets. -/
structure WordsStand (machine : Machine) (low high : Nat) (parameters : List Shape) (words : List Word)
    (values : List Value) : Prop where
  /-- There is one word for each parameter. -/
  counted : words.length = parameters.length
  /-- There is one value for each parameter. -/
  covered : values.length = parameters.length
  /-- Each word stands for its value. -/
  each : ∀ position (inside : position < parameters.length) (inside' : position < words.length)
    (inside'' : position < values.length), Stands machine low high parameters[position] words[position] values[position]

section

variable {cap : Nat} {shape parameter : Shape} {parameters first rest : List Shape} {machine before after : Machine}
  {value : Value} {values earlier others : List Value} {encoding : List UInt8} {encodings : List (List UInt8)}
  {source word : Word} {words : List Word} {low low' high high' : Nat}

/-- No words stand for no values. -/
theorem WordsStand.nil (machine : Machine) (low high : Nat) : WordsStand machine low high [] [] [] :=
  ⟨rfl, rfl, fun _ inside => absurd inside (Nat.not_lt_zero _)⟩

/-- One more word stands in front. -/
theorem WordsStand.cons (stands : Stands machine low high parameter word value)
    (others : WordsStand machine low high parameters words values) :
    WordsStand machine low high (parameter :: parameters) (word :: words) (value :: values) := by
  refine ⟨congrArg (· + 1) others.counted, congrArg (· + 1) others.covered, fun position inside inside' inside'' => ?_⟩
  cases position with
  | zero => exact stands
  | succ position => exact others.each position (by simpa using inside) (by simpa using inside') (by simpa using inside'')

/-- Words stand in every larger stretch. -/
theorem WordsStand.mono (h : WordsStand machine low high parameters words values) (lower : low' ≤ low)
    (higher : high ≤ high') : WordsStand machine low' high' parameters words values :=
  ⟨h.counted, h.covered, fun position inside inside' inside'' =>
    (h.each position inside inside' inside'').mono lower higher⟩

/-- Words still stand after changes elsewhere. -/
theorem WordsStand.changes {region : Nat → Prop} (h : WordsStand before low high parameters words values)
    (changed : before.ChangesOnly region after) (apart : ∀ index, low ≤ index → index < high → ¬ region index) :
    WordsStand after low high parameters words values :=
  ⟨h.counted, h.covered, fun position inside inside' inside'' =>
    (h.each position inside inside' inside'').changes changed apart⟩

/-- Encoded data are placed in memory of their own; of a word there is nothing to place. -/
theorem decodeAt_places (data : shape.isData = true) (roomy : machine.Roomy) (addressed : machine.calldata.size < 2 ^ 64)
    (encoded : encodeAs shape value = .ok encoding) (holds : Memory.Holds machine.calldata source.toNat encoding)
    (inside : source.toNat + encoding.length ≤ machine.calldata.size)
    (room : machine.free + allocated shape value ≤ memoryLimit) :
    ∃ word after, (decodeAt cap shape source).run machine = .ok word after ∧ machine.Advances after ∧
      Placed machine after shape word value := by
  have limit : memoryLimit < 2 ^ 64 := by decide
  have small : source.toNat + encoding.length < 2 ^ 256 := by omega
  rcases Shape.isValueType_or_isReferenceType data with valueType | reference
  · have same := Value.Matches.ofWord valueType machine.calldata source.toNat value encoding encoded holds small
      (by omega)
    subst same
    refine ⟨_, machine, ?_, .refl roomy.fits, ?_, .ofWord valueType _ _ _⟩
    · rw [decodeAt_of_isValueType valueType]
      exact Machine.run_calldataload source machine
    · rw [Value.allocated_word valueType, Nat.add_zero]
  · obtain ⟨word, after, decoded⟩ :=
      decodeAt_succeeds data reference source machine value encoding roomy addressed encoded holds inside room
    obtain ⟨advances, settled⟩ :=
      decodeAt_settles data reference source machine word after roomy addressed decoded
    obtain ⟨restored, placed, only⟩ := settled (lengthsFit_of_encoded encoded holds small (by omega))
    have same : restored = value := only value encoding encoded holds small (by omega)
    exact ⟨word, after, decoded, advances, same ▸ placed⟩

/-- Encoded parameters are decoded. The induction is on the parameters that are left. -/
theorem decodeWords_places (first : List Shape) (earlier : List Value)
    (data : ∀ parameter ∈ first ++ rest, parameter.isData = true)
    (each : EncodesEach (first ++ rest) (earlier ++ others) encodings) (passed : earlier.length = first.length)
    (holds : Memory.Holds machine.calldata source.toNat (sequenceBytes (first ++ rest) encodings))
    (inside : source.toNat + (sequenceBytes (first ++ rest) encodings).length ≤ machine.calldata.size)
    (roomy : machine.Roomy) (addressed : machine.calldata.size < 2 ^ 64)
    (room : machine.free + allocatedEach rest others ≤ memoryLimit) :
    ∃ words after, (decodeWords cap source (headBytesSum first) rest).run machine = .ok words after ∧
      machine.Advances after ∧ WordsStand after machine.free after.free rest words others := by
  induction rest generalizing first earlier others machine with
  | nil =>
    have counted := each.counted
    rw [List.length_append, List.length_append, List.length_nil, passed] at counted
    rw [List.eq_nil_of_length_eq_zero (Nat.add_left_cancel counted)]
    exact ⟨[], machine, rfl, .refl roomy.fits, .nil _ _ _⟩
  | cons parameter rest ih =>
    have counted := each.counted
    have covered := each.covered
    cases others with
    | nil => simp [passed] at counted
    | cons value others =>
      have position : first.length < (first ++ parameter :: rest).length := by simp
      have own : (first ++ parameter :: rest)[first.length] = parameter := by simp
      have taken : (first ++ parameter :: rest).take first.length = first := by simp
      have mine : ∀ inside : first.length < (earlier ++ value :: others).length,
          (earlier ++ value :: others)[first.length] = value := fun _ => by simp [← passed]
      have encoded := each.each first.length position (by simp [passed]) (by rw [covered]; exact position)
      obtain ⟨within, found⟩ := holds_sourceOf each holds (by omega) position (by rw [covered]; exact position)
      rw [own, taken] at within found
      rw [own, mine] at encoded
      rw [allocatedEach] at room
      obtain ⟨word, middle, decoded, advances, placed⟩ := decodeAt_places
        (data parameter (by simp)) roomy addressed encoded found (by omega) (by omega)
      have same := advances.changes.calldata
      have moved := placed.moved
      have onward : first ++ parameter :: rest = (first ++ [parameter]) ++ rest := by simp
      have onward' : earlier ++ value :: others = (earlier ++ [value]) ++ others := by simp
      rw [onward] at data each holds inside
      rw [onward'] at each
      obtain ⟨words, after, left, advances', stand⟩ :=
        ih (first ++ [parameter]) (earlier ++ [value]) data each (by simp [passed])
        (by rw [same]; exact holds) (by rw [same]; exact inside) (advances.roomy roomy) (by rw [same]; exact addressed)
        (by omega)
      have heads : headBytesSum (first ++ [parameter]) = headBytesSum first + parameter.headBytes := by
        rw [Shape.headBytesSum_append, headBytesSum, headBytesSum, Nat.add_zero]
      have up := advances.up
      have up' := advances'.up
      have above := roomy.above
      have kept : Stands after machine.free middle.free parameter word value :=
        placed.stands.changes advances'.changes fun index lower upper fresh => by
          rcases fresh with ⟨_, pointer⟩ | later <;> omega
      rw [heads] at left
      refine ⟨word :: words, after, ?_, advances.trans advances',
        .cons (kept.mono (Nat.le_refl _) up') (stand.mono up (Nat.le_refl _))⟩
      rw [decodeWords, Step.bind_of_ok (run_partAt machine parameter source (headBytesSum first)),
        Step.bind_of_ok decoded, Step.bind_of_ok left]
      rfl

end

/-! ### Writing parameters -/

open Value (tailsBefore)

section

variable {cap : Nat} {parameters first rest : List Shape} {machine before after : Machine} {values : List Value}
  {encodings : List (List UInt8)} {target : Word} {words earlier : List Word}

/-- Parameters are written. The induction is on those that are left. -/
theorem encodeWords_writes (cap : Nat) (first : List Shape) (earlier : List Word)
    (data : ∀ parameter ∈ first ++ rest, parameter.isData = true)
    (each : EncodesEach (first ++ rest) values encodings) (passed : earlier.length = first.length)
    (stand : WordsStand before 0 target.toNat (first ++ rest) (earlier ++ words) values)
    (room : target.toNat + (sequenceBytes (first ++ rest) encodings).length ≤ memoryLimit)
    (h : PartsWritten before machine (first ++ rest) encodings target.toNat fun other => other < first.length) :
    ∃ after, (encodeWords cap target (headBytesSum first)
        (Word.ofNat (headBytesSum (first ++ rest) + tailsBefore (first ++ rest) encodings first.length)) rest
        words).run machine = .ok (Word.ofNat (sequenceBytes (first ++ rest) encodings).length) after ∧
      before.Puts after target.toNat (sequenceBytes (first ++ rest) encodings) := by
  induction rest generalizing first earlier words machine with
  | nil =>
    rw [List.append_nil] at *
    refine ⟨machine, ?_, h.puts each fun position inside => inside⟩
    rw [each.length_sequenceBytes]
    rfl
  | cons parameter rest ih =>
    have counted := stand.counted
    have covered := stand.covered
    cases words with
    | nil => simp [passed] at counted
    | cons word words =>
      have position : first.length < (first ++ parameter :: rest).length := by simp
      have own : (first ++ parameter :: rest)[first.length] = parameter := by simp
      have taken : (first ++ parameter :: rest).take first.length = first := by simp
      have mine : ∀ inside : first.length < (earlier ++ word :: words).length,
          (earlier ++ word :: words)[first.length] = word := fun _ => by simp [← passed]
      have stands := stand.each first.length position (by simp [passed]) (by rw [covered]; exact position)
      rw [mine] at stands
      have loads : ∀ reached, before.ChangesOnly (fun index => target.toNat ≤ index) reached →
          (pure word : MachineStep Word).run reached = .ok word reached := fun _ _ => rfl
      have writes : Writes (encodeAt cap parameter) (first ++ parameter :: rest)[first.length] := by
        rw [own]
        exact encodeAt_writes (data parameter (by simp))
      obtain ⟨middle, run, written⟩ := h.encodePart each room position (by rw [covered]; exact position) stands loads
        writes
      have heads : headBytesSum (first ++ [parameter]) = headBytesSum first + parameter.headBytes := by
        rw [Shape.headBytesSum_append, headBytesSum, headBytesSum, Nat.add_zero]
      have size : (first ++ [parameter]).length = first.length + 1 := by simp
      have onward : first ++ parameter :: rest = (first ++ [parameter]) ++ rest := by simp
      have onward' : earlier ++ word :: words = (earlier ++ [word]) ++ words := by simp
      rw [own, taken] at run
      rw [onward] at data each stand room written run ⊢
      rw [onward'] at stand
      obtain ⟨after, others, puts⟩ :=
        ih (first ++ [parameter]) (earlier ++ [word]) data each (by simp [passed]) stand room
        (written.weaken fun other _ counts => by
          rw [size] at counts
          omega)
      rw [size, heads] at others
      refine ⟨after, ?_, puts⟩
      rw [encodeWords, Step.bind_of_ok run]
      exact others

/-- A whole list of parameters is written. -/
theorem encodeList_writes (data : ∀ parameter ∈ parameters, parameter.isData = true)
    (each : EncodesEach parameters values encodings)
    (stand : WordsStand machine 0 target.toNat parameters words values)
    (room : target.toNat + (sequenceBytes parameters encodings).length ≤ memoryLimit) :
    ∃ after, (encodeList cap parameters words target).run machine =
        .ok (Word.ofNat (sequenceBytes parameters encodings).length) after ∧
      machine.Puts after target.toNat (sequenceBytes parameters encodings) := by
  have nothing : PartsWritten machine machine ([] ++ parameters) encodings target.toNat
      fun other => other < ([] : List Shape).length :=
    (PartsWritten.none machine parameters encodings target.toNat).weaken fun other _ none =>
      absurd none (Nat.not_lt_zero _)
  have written := encodeWords_writes cap [] [] data each rfl stand room nothing
  rw [List.length_nil, Value.tailsBefore_zero, Nat.add_zero] at written
  exact written

/-- What an error looks like in memory: its selector, its parameters, and what is left of the word that the
selector was written with. -/
def errorBytes (signature : String) (encoding : List UInt8) : List UInt8 :=
  Keccak.selectorBytes signature ++ encoding ++ List.replicate (28 - encoding.length) 0

/-- Bytes that are put behind a selector leave the rest of its word. -/
theorem puts_errorBytes {signature : String} {offset : Nat} {encoding : List UInt8}
    (first : before.Puts machine offset (Word.toBytes (Keccak.selectorWord signature)))
    (second : machine.Puts after (offset + 4) encoding) : before.Puts after offset (errorBytes signature encoding) := by
  have four := Keccak.length_selectorBytes signature
  have total : (errorBytes signature encoding).length = 4 + encoding.length + (28 - encoding.length) := by
    rw [errorBytes, List.length_append, List.length_append, four, List.length_replicate]
  have word := first.inside
  rw [Keccak.toBytes_selectorWord, Memory.holds_append, four] at word
  refine ⟨Memory.holds_append.mpr ⟨Memory.holds_append.mpr ⟨?_, ?_⟩, ?_⟩, ?_⟩
  · exact second.outside.holds word.1 fun index inside => by omega
  · rw [four]
    exact second.inside
  · rw [List.length_append, four]
    rcases Nat.le_total encoding.length 28 with short | long
    · have zeros : List.replicate 28 (0 : UInt8) =
          List.replicate encoding.length 0 ++ List.replicate (28 - encoding.length) 0 := by
        rw [List.replicate_append_replicate, Nat.add_sub_cancel' short]
      rw [zeros, Memory.holds_append, List.length_replicate] at word
      rw [← Nat.add_assoc]
      exact second.outside.holds word.2.2 fun index inside => by omega
    · rw [Nat.sub_eq_zero_of_le long]
      exact Memory.holds_nil _ _
  · rw [total]
    exact (first.changes fun index lower upper => by rw [Word.toBytes_length] at upper; omega).trans
      (second.changes fun index lower upper => by omega)

/-- A selector is written with parameters behind it. -/
theorem encodeSelected_writes {signature : String} (data : ∀ parameter ∈ parameters, parameter.isData = true)
    (each : EncodesEach parameters values encodings)
    (stand : WordsStand machine 0 target.toNat parameters words values)
    (room : target.toNat + (errorBytes signature (sequenceBytes parameters encodings)).length ≤ memoryLimit) :
    ∃ after, (encodeSelected cap (Keccak.selectorWord signature) parameters words target).run machine =
        .ok (Word.ofNat (4 + (sequenceBytes parameters encodings).length)) after ∧
      machine.Puts after target.toNat (errorBytes signature (sequenceBytes parameters encodings)) := by
  have limit : memoryLimit < 2 ^ 64 := by decide
  rw [errorBytes, List.length_append, List.length_append, Keccak.length_selectorBytes, List.length_replicate] at room
  have next : (target + 4#256).toNat = target.toNat + 4 := Word.toNat_add (by simp; omega)
  obtain ⟨middle, stored⟩ := Machine.mstore_ok machine target (Keccak.selectorWord signature) (by omega)
  obtain ⟨-, first⟩ := Machine.puts_of_mstore stored
  have kept : WordsStand middle 0 target.toNat parameters words values :=
    stand.changes first.outside fun index _ upper inside => Nat.not_le_of_lt upper inside.1
  have behind : WordsStand middle 0 (target + 4#256).toNat parameters words values :=
    kept.mono (Nat.le_refl _) (by omega)
  obtain ⟨after, written, second⟩ := encodeList_writes data each behind (by omega)
  rw [next] at second
  refine ⟨after, ?_, puts_errorBytes first second⟩
  rw [encodeSelected, Step.bind_of_ok stored, Step.bind_of_ok written, Nat.add_comm 4, ← Word.ofNat_add]
  rfl

end

end YulAbi.Codec
