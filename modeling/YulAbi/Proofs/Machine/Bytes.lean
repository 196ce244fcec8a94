import Mathlib.Algebra.GroupWithZero.Nat
import Mathlib.Data.List.Induction
import YulAbi.Machine

/-!
# Bytes at offsets

Memory and call data are seen as functions from offsets to bytes, with zeros behind
their ends. A word is what its 32 bytes say, in both directions.
-/

namespace YulAbi

namespace Word

/-- One more byte shifts the number that bytes write. -/
theorem natOfBytes_concat (bytes : List UInt8) (byte : UInt8) :
    natOfBytes (bytes ++ [byte]) = natOfBytes bytes * 256 + byte.toNat := by
  simp [natOfBytes]

/-- A number that bytes write fits as many bytes. -/
theorem natOfBytes_lt (bytes : List UInt8) : natOfBytes bytes < 256 ^ bytes.length := by
  induction bytes using List.reverseRecOn with
  | nil => simp [natOfBytes]
  | append_singleton bytes byte ih =>
    rw [natOfBytes_concat, List.length_append, List.length_singleton, Nat.pow_succ]
    have := byte.toNat_lt
    omega

/-- As many bytes that write the same number are the same. -/
theorem eq_of_natOfBytes_eq {bytes others : List UInt8} (aligned : bytes.length = others.length)
    (same : natOfBytes bytes = natOfBytes others) : bytes = others := by
  induction bytes using List.reverseRecOn generalizing others with
  | nil => exact (List.eq_nil_of_length_eq_zero aligned.symm).symm
  | append_singleton bytes byte ih =>
    cases others using List.reverseRecOn with
    | nil => simp at aligned
    | append_singleton others other =>
      rw [natOfBytes_concat, natOfBytes_concat] at same
      have := byte.toNat_lt
      have := other.toNat_lt
      have equal : byte = other := UInt8.toNat_inj.mp (by omega)
      rw [equal, ih (by simpa using aligned) (by omega)]

/-- The number that the first bytes of a word write. -/
theorem natOfBytes_toBytes_prefix (word : Word) (count : Nat) (inside : count ≤ 32) :
    natOfBytes ((List.range count).map (byteAt word)) = word.toNat >>> (8 * (32 - count)) := by
  induction count with
  | zero =>
    have := word.isLt
    simp only [List.range_zero, List.map_nil, natOfBytes, List.foldl_nil, Nat.shiftRight_eq_div_pow]
    exact (Nat.div_eq_of_lt (by simpa using this)).symm
  | succ count ih =>
    rw [List.range_succ, List.map_append, List.map_singleton, natOfBytes_concat, ih (by omega)]
    have shift : 8 * (32 - count) = 8 * (31 - count) + 8 := by omega
    have next : 8 * (32 - (count + 1)) = 8 * (31 - count) := by omega
    rw [byteAt, if_pos (by omega), shift, next, Nat.shiftRight_add, UInt8.toNat_ofNat',
      Nat.shiftRight_eq_div_pow _ 8]
    omega

/-- The bytes of a word write it. -/
theorem ofBytes_toBytes (word : Word) : ofBytes (toBytes word) = word := by
  rw [ofBytes, toBytes, natOfBytes_toBytes_prefix word 32 (by omega)]
  simp [ofNat]

/-- 32 bytes are the bytes of the word that they write. -/
theorem toBytes_ofBytes {bytes : List UInt8} (full : bytes.length = 32) :
    toBytes (ofBytes bytes) = bytes := by
  refine eq_of_natOfBytes_eq (by rw [toBytes_length, full]) ?_
  have bounded := natOfBytes_lt bytes
  rw [full] at bounded
  have written := natOfBytes_toBytes_prefix (ofBytes bytes) 32 (by omega)
  rw [toBytes, written]
  simp only [Nat.sub_self, Nat.mul_zero, Nat.shiftRight_zero, ofBytes, ofNat, BitVec.toNat_ofNat]
  exact Nat.mod_eq_of_lt (by simpa using bounded)

end Word

namespace Memory

/-- A number of bytes from an offset on. -/
def bytesAt (bytes : ByteArray) (offset count : Nat) : List UInt8 :=
  (List.range count).map fun index => byteAt bytes (offset + index)

/-- Whether bytes stand at an offset. -/
def Holds (bytes : ByteArray) (offset : Nat) (content : List UInt8) : Prop :=
  bytesAt bytes offset content.length = content

/-- The byte at an index is that of the list of all bytes. -/
theorem byteAt_eq_getD (bytes : ByteArray) (index : Nat) :
    byteAt bytes index = bytes.data.toList.getD index 0 := by
  unfold byteAt
  split
  · rename_i inside
    simp [ByteArray.getElem_eq_getElem_data, List.getD_eq_getElem?_getD,
      Array.getElem?_eq_getElem inside]
  · rename_i outside
    have none : bytes.data[index]? = none := Array.getElem?_eq_none (by simpa using outside)
    simp [List.getD_eq_getElem?_getD, none]

/-- Behind the end there are zeros. -/
theorem byteAt_of_size_le {bytes : ByteArray} {index : Nat} (outside : bytes.size ≤ index) :
    byteAt bytes index = 0 := by
  rw [byteAt, dif_neg (by omega)]

/-- The list of bytes with zeros appended. -/
theorem toList_appendZeros (bytes : ByteArray) (count : Nat) :
    (appendZeros bytes count).data.toList = bytes.data.toList ++ List.replicate count 0 := by
  induction count generalizing bytes with
  | zero => simp [appendZeros]
  | succ count ih => simp [appendZeros, ih, List.replicate_succ]

/-- Zeros at the end change no byte. -/
theorem byteAt_appendZeros (bytes : ByteArray) (count index : Nat) :
    byteAt (appendZeros bytes count) index = byteAt bytes index := by
  rw [byteAt_eq_getD, byteAt_eq_getD, toList_appendZeros, List.getD_eq_getElem?_getD,
    List.getD_eq_getElem?_getD]
  by_cases inside : index < bytes.data.toList.length
  · rw [List.getElem?_append_left inside]
  · rw [List.getElem?_append_right (by omega), List.getElem?_eq_none (by omega : _ ≤ index),
      List.getElem?_replicate]
    split <;> rfl

/-- A slice holds the bytes from its offset on. -/
theorem toList_slice (bytes : ByteArray) (offset count : Nat) :
    (slice bytes offset count).data.toList = bytesAt bytes offset count := by
  have total : (slice bytes offset count).data.toList.length = count := size_slice bytes offset count
  refine List.ext_getElem (by simp [total, bytesAt]) fun index inside _ => ?_
  have value : byteAt (slice bytes offset count) index = byteAt bytes (offset + index) := by
    rw [slice, byteAt_appendZeros, byteAt_eq_getD, byteAt_eq_getD, ByteArray.data_extract,
      Array.toList_extract, List.getD_eq_getElem?_getD, List.getD_eq_getElem?_getD,
      List.extract_eq_take_drop, List.getElem?_take_of_lt (by omega), List.getElem?_drop]
  rw [byteAt_eq_getD, List.getD_eq_getElem?_getD, List.getElem?_eq_getElem inside] at value
  simpa [bytesAt] using value

/-- Growing changes no byte. -/
theorem byteAt_grow (bytes : ByteArray) (stop index : Nat) :
    byteAt (grow bytes stop) index = byteAt bytes index := by
  unfold grow
  split
  · exact byteAt_appendZeros bytes _ index
  · rfl

/-- What is put at an offset is found there, and other bytes stay. -/
theorem byteAt_put {bytes content : ByteArray} {offset : Nat} (fits : offset + content.size ≤ bytes.size)
    (index : Nat) : byteAt (put bytes offset content) index =
      if offset ≤ index ∧ index < offset + content.size then byteAt content (index - offset)
      else byteAt bytes index := by
  have pieces : (put bytes offset content).data.toList = bytes.data.toList.take offset ++
      content.data.toList ++ bytes.data.toList.drop (offset + content.size) := by
    have whole : List.take (bytes.data.size - (offset + content.data.size))
        (List.drop (offset + content.data.size) bytes.data.toList) =
        List.drop (offset + content.data.size) bytes.data.toList := List.take_of_length_le (by simp)
    simp [put, ByteArray.copySlice_eq_append, List.extract_eq_take_drop, ← ByteArray.size_data, whole]
  have front : (bytes.data.toList.take offset).length = offset := by
    rw [List.length_take, Array.length_toList, ByteArray.size_data]
    omega
  have middle : content.data.toList.length = content.size := by simp
  simp only [byteAt_eq_getD, List.getD_eq_getElem?_getD, pieces]
  by_cases before : index < offset
  · rw [if_neg (by omega), List.append_assoc, List.getElem?_append_left (by omega),
      List.getElem?_take_of_lt before]
  · rw [List.append_assoc, List.getElem?_append_right (by omega), front]
    by_cases inside : index < offset + content.size
    · rw [if_pos (by omega), List.getElem?_append_left (by omega)]
    · rw [if_neg (by omega), List.getElem?_append_right (by omega), List.getElem?_drop, middle]
      congr 2
      omega

/-- The number of bytes from an offset on. -/
theorem length_bytesAt (bytes : ByteArray) (offset count : Nat) : (bytesAt bytes offset count).length = count := by
  simp [bytesAt]

/-- Bytes are the same where each of them is. -/
theorem bytesAt_congr {bytes others : ByteArray} {offset other count : Nat}
    (same : ∀ index < count, byteAt others (other + index) = byteAt bytes (offset + index)) :
    bytesAt others other count = bytesAt bytes offset count :=
  List.map_congr_left fun index listed => same index (List.mem_range.mp listed)

/-- Bytes come in two parts. -/
theorem bytesAt_add (bytes : ByteArray) (offset count more : Nat) :
    bytesAt bytes offset (count + more) = bytesAt bytes offset count ++ bytesAt bytes (offset + count) more := by
  simp only [bytesAt, List.range_add, List.map_append, List.map_map]
  congr 1
  refine List.map_congr_left fun index _ => ?_
  simp [Nat.add_assoc]

/-- The word at an offset is written by the bytes there. -/
theorem wordAt_eq_ofBytes (bytes : ByteArray) (offset : Nat) :
    wordAt bytes offset = Word.ofBytes (bytesAt bytes offset 32) := by
  rw [wordAt, toList_slice]

/-- Behind the end there are zeros. -/
theorem wordAt_of_size_le {bytes : ByteArray} {offset : Nat} (outside : bytes.size ≤ offset) :
    wordAt bytes offset = 0#256 := by
  have zeros : bytesAt bytes offset 32 = Word.toBytes 0#256 := by
    have padded : Word.toBytes 0#256 = (List.range 32).map fun _ => 0 := by decide
    rw [padded]
    exact List.map_congr_left fun index _ => byteAt_of_size_le (by omega)
  rw [wordAt_eq_ofBytes, zeros, Word.ofBytes_toBytes]

/-- Equal bytes write equal words. -/
theorem wordAt_congr {bytes others : ByteArray} {offset other : Nat}
    (same : ∀ index < 32, byteAt others (other + index) = byteAt bytes (offset + index)) :
    wordAt others other = wordAt bytes offset := by
  rw [wordAt_eq_ofBytes, wordAt_eq_ofBytes, bytesAt_congr same]

/-- Nothing stands everywhere. -/
theorem holds_nil (bytes : ByteArray) (offset : Nat) : Holds bytes offset [] := rfl

/-- Two lists of bytes stand one behind the other. -/
theorem holds_append {bytes : ByteArray} {offset : Nat} {first second : List UInt8} :
    Holds bytes offset (first ++ second) ↔
      Holds bytes offset first ∧ Holds bytes (offset + first.length) second := by
  unfold Holds
  rw [List.length_append, bytesAt_add]
  constructor
  · exact fun same => List.append_inj same (length_bytesAt _ _ _)
  · rintro ⟨left, right⟩
    rw [left, right]

/-- The bytes from an offset on stand there. -/
theorem holds_bytesAt (bytes : ByteArray) (offset count : Nat) :
    Holds bytes offset (bytesAt bytes offset count) := by
  rw [Holds, length_bytesAt]

/-- A copy is the same byte by byte. -/
theorem holds_bytesAt_iff {bytes others : ByteArray} {offset other count : Nat} :
    Holds others other (bytesAt bytes offset count) ↔
      ∀ index < count, byteAt others (other + index) = byteAt bytes (offset + index) := by
  rw [Holds, length_bytesAt]
  refine ⟨fun same index inside => ?_, bytesAt_congr⟩
  have each := List.getElem_of_eq same (i := index) (by rw [length_bytesAt]; exact inside)
  simpa [bytesAt] using each

/-- Bytes still stand where they have not changed. -/
theorem Holds.congr {bytes others : ByteArray} {offset other : Nat} {content : List UInt8}
    (h : Holds bytes offset content)
    (same : ∀ index < content.length, byteAt others (other + index) = byteAt bytes (offset + index)) :
    Holds others other content :=
  (bytesAt_congr same).trans h

/-- The bytes of a word stand exactly where the word does. -/
theorem holds_toBytes {bytes : ByteArray} {offset : Nat} {word : Word} :
    Holds bytes offset (Word.toBytes word) ↔ wordAt bytes offset = word := by
  rw [Holds, Word.toBytes_length, wordAt_eq_ofBytes]
  constructor
  · intro same
    rw [same, Word.ofBytes_toBytes]
  · intro same
    rw [← same, Word.toBytes_ofBytes (length_bytesAt _ _ _)]

/-- Words that are the same have the same bytes. -/
theorem byteAt_eq_of_wordAt_eq {bytes others : ByteArray} {offset other index : Nat}
    (same : wordAt others other = wordAt bytes offset) (inside : index < 32) :
    byteAt others (other + index) = byteAt bytes (offset + index) := by
  have own : Holds bytes offset (Word.toBytes (wordAt bytes offset)) := holds_toBytes.mpr rfl
  have held : Holds others other (Word.toBytes (wordAt bytes offset)) := holds_toBytes.mpr same
  rw [Holds, Word.toBytes_length] at own
  rw [← own] at held
  exact holds_bytesAt_iff.mp held index inside

end Memory

end YulAbi
