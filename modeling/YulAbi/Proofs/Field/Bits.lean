import YulAbi.Field
import YulAbi.Field.Access
import YulAbi.Proofs.Machine.Bytes
import YulAbi.Proofs.Word

/-!
# The bits of fields and windows

A field takes the bits of its word from `shift` on, counted from the least significant end.
Reading a field moves them to one end of a word, with zeros for all others; writing a field
replaces them and keeps all others.

The bits of a window are counted from its first byte, the most significant bit of each byte
first. A word that is loaded from a window has 256 bits in a row, and one that is stored
replaces as many; a byte replaces eight of them.
-/

namespace YulAbi

namespace Word

/-- The bits of a low mask. -/
theorem getLsbD_lowMask {bits : Nat} (fits : bits ≤ 256) (index : Nat) :
    (lowMask bits).getLsbD index = decide (index < bits) := by
  rw [lowMask, BitVec.getLsbD_ushiftRight, BitVec.getLsbD_allOnes]
  simp only [decide_eq_decide]
  omega

/-- The bits of one byte of a word. -/
theorem testBit_byteAt (word : Word) {position : Nat} (inside : position < 32) (index : Nat) :
    (byteAt word position).toNat.testBit index = (decide (index < 8) && word.getLsbD (8 * (31 - position) + index)) := by
  rw [byteAt, if_pos inside, UInt8.toNat_ofNat', Nat.testBit_mod_two_pow, Nat.testBit_shiftRight, BitVec.getLsbD]

/-- The bits of a word are those of its bytes. -/
theorem getLsbD_eq_testBit (word : Word) {index : Nat} (inside : index < 256) :
    word.getLsbD index = (byteAt word (31 - index / 8)).toNat.testBit (index % 8) := by
  rw [testBit_byteAt word (by omega), decide_eq_true (by omega), Bool.true_and]
  congr 1
  omega

/-- The bits of one byte that is taken for a word. -/
theorem getLsbD_byte (word : Word) {position : Nat} (inside : position < 32) (index : Nat) :
    (ofNat (byteAt word position).toNat).getLsbD index =
      (decide (index < 8) && word.getLsbD (8 * (31 - position) + index)) := by
  rw [BitVec.getLsbD_ofNat, testBit_byteAt word inside]
  by_cases low : index < 8
  · simp [low, show index < 256 from by omega]
  · simp [low]

end Word

namespace Field

/-- Whether a field is not empty and lies inside a word. -/
structure IsLegal (field : Field) : Prop where
  /-- There is a bit. -/
  some : 0 < field.bitLength
  /-- The last bit is inside. -/
  fits : field.bitOffset + field.bitLength ≤ wordBits

/-- A field that is accepted is legal. -/
theorem isLegal_of_ofRange {bitOffset bitLength : Nat} {leftAligned : Bool} {field : Field}
    (accepted : ofRange bitOffset bitLength leftAligned = .ok field) :
    field = ⟨bitOffset, bitLength, leftAligned⟩ ∧ field.IsLegal := by
  unfold ofRange at accepted
  split at accepted
  · rename_i inside
    cases accepted
    exact ⟨rfl, Nat.pos_of_ne_zero inside.1, inside.2⟩
  · cases accepted

section

variable {field : Field} (legal : field.IsLegal)

include legal

/-- The bits below, inside and above a field make up a word. -/
theorem IsLegal.counted : field.shift + field.bitLength + field.bitOffset = 256 ∧
    field.unused + field.bitLength = 256 := by
  have fits := legal.fits
  simp only [shift, unused, wordBits] at *
  omega

/-- The bits of the mask at the low end. -/
theorem getLsbD_mask (index : Nat) : field.mask.getLsbD index = decide (index < field.bitLength) :=
  Word.getLsbD_lowMask (by have := legal.counted; omega) index

/-- The bits of the mask in place. -/
theorem getLsbD_inPlaceMask (index : Nat) : field.inPlaceMask.getLsbD index =
    (decide (field.shift ≤ index) && decide (index < field.shift + field.bitLength)) := by
  have counted := legal.counted
  rw [inPlaceMask, BitVec.getLsbD_shiftLeft, getLsbD_mask legal]
  grind

/-- The bits that reading a field gives. -/
theorem getLsbD_extract (word : Word) (index : Nat) : (field.extract word).getLsbD index =
    if field.leftAligned then
      decide (index < 256) && decide (field.unused ≤ index) && word.getLsbD (field.shift + (index - field.unused))
    else decide (index < field.bitLength) && word.getLsbD (field.shift + index) := by
  have counted := legal.counted
  unfold extract
  split
  · simp only [BitVec.getLsbD_shiftLeft, BitVec.getLsbD_and, BitVec.getLsbD_ushiftRight, getLsbD_mask legal]
    grind
  · simp only [BitVec.getLsbD_and, BitVec.getLsbD_ushiftRight, getLsbD_mask legal]
    grind

/-- The bits that reading a field gives at the low end. -/
theorem getLsbD_extract_low (low : field.leftAligned = false) (word : Word) (index : Nat) :
    (field.extract word).getLsbD index = (decide (index < field.bitLength) && word.getLsbD (field.shift + index)) := by
  rw [getLsbD_extract legal, low, if_neg Bool.false_ne_true]

/-- The bits that reading a field gives at the high end. -/
theorem getLsbD_extract_high (high : field.leftAligned = true) (word : Word) {index : Nat} (inside : index < 256) :
    (field.extract word).getLsbD index =
      (decide (field.unused ≤ index) && word.getLsbD (field.shift + (index - field.unused))) := by
  rw [getLsbD_extract legal, high, if_pos rfl, decide_eq_true inside, Bool.true_and]

/-- The bits of the mask at the high end. -/
theorem getLsbD_highMask {index : Nat} (inside : index < 256) :
    (field.mask <<< field.unused).getLsbD index = decide (field.unused ≤ index) := by
  have counted := legal.counted
  rw [BitVec.getLsbD_shiftLeft, getLsbD_mask legal]
  grind

/-- The bits that writing a field leaves. -/
theorem getLsbD_insert (word value : Word) {index : Nat} (inside : index < 256) :
    (field.insert word value).getLsbD index =
      if field.shift ≤ index ∧ index < field.shift + field.bitLength then
        value.getLsbD (index - field.shift + if field.leftAligned then field.unused else 0)
      else word.getLsbD index := by
  have counted := legal.counted
  unfold insert
  simp only [BitVec.getLsbD_or, BitVec.getLsbD_and, BitVec.getLsbD_not, BitVec.getLsbD_shiftLeft,
    getLsbD_inPlaceMask legal, getLsbD_mask legal, inside]
  cases field.leftAligned with
  | true =>
    simp only [if_true, BitVec.getLsbD_ushiftRight]
    grind
  | false =>
    simp only [Bool.false_eq_true, if_false]
    grind

end

end Field

/-! ### Windows -/

/-- A bit of bytes, counted from the first one. -/
def bitAt (bytes : List UInt8) (position : Nat) : Bool := (bytes.getD (position / 8) 0).toNat.testBit (7 - position % 8)

/-- Bytes with the same bits are the same. -/
theorem eq_of_bitAt_eq {bytes others : List UInt8} (aligned : bytes.length = others.length)
    (same : ∀ position < 8 * bytes.length, bitAt bytes position = bitAt others position) : bytes = others := by
  refine List.ext_getElem aligned fun index inside inside' => UInt8.toNat_inj.mp (Nat.eq_of_testBit_eq fun bit => ?_)
  by_cases low : bit < 8
  · have each := same (8 * index + (7 - bit)) (by omega)
    have place : (8 * index + (7 - bit)) / 8 = index := by omega
    have rest : 7 - (8 * index + (7 - bit)) % 8 = bit := by omega
    simp only [bitAt, place, rest, List.getD_eq_getElem?_getD, List.getElem?_eq_getElem inside,
      List.getElem?_eq_getElem inside', Option.getD_some] at each
    exact each
  · have high : 2 ^ 8 ≤ 2 ^ bit := Nat.pow_le_pow_right (by decide) (by omega)
    have bounded := bytes[index].toNat_lt
    have bounded' := others[index].toNat_lt
    rw [Nat.testBit_lt_two_pow (by omega), Nat.testBit_lt_two_pow (by omega)]

namespace Window

variable {window : Window} {offset : Int}

/-- Whether a number of bytes behind the middle word is still inside a window of three words. -/
structure Reaches (window : Window) (offset : Int) : Prop where
  /-- There are three words. -/
  full : window.length = 96
  /-- Not before the first one. -/
  lower : -32 ≤ offset
  /-- Not behind the last one. -/
  upper : offset ≤ 32

/-- The middle word is inside. -/
theorem reaches_zero (full : window.length = 96) : window.Reaches 0 := ⟨full, by decide, by decide⟩

/-- The bytes of a word that is loaded. -/
theorem toBytes_load (reaches : window.Reaches offset) :
    Word.toBytes (window.load offset) = (window.drop (32 + offset).toNat).take 32 := by
  have full := reaches.full
  have lower := reaches.lower
  have upper := reaches.upper
  refine Word.toBytes_ofBytes ?_
  rw [List.length_take, List.length_drop]
  omega

/-- The bits of a word that is loaded. -/
theorem getLsbD_load (reaches : window.Reaches offset) {index : Nat} (inside : index < 256) :
    (window.load offset).getLsbD index = bitAt window (8 * (32 + offset).toNat + (255 - index)) := by
  have bytes := congrArg (·[31 - index / 8]?) (toBytes_load reaches)
  have position : 31 - index / 8 < 32 := by omega
  simp only [Word.toBytes, List.getElem?_map, List.getElem?_range position, Option.map_some, List.getElem?_take,
    if_pos position, List.getElem?_drop] at bytes
  rw [Word.getLsbD_eq_testBit _ inside, bitAt, List.getD_eq_getElem?_getD,
    show (8 * (32 + offset).toNat + (255 - index)) / 8 = (32 + offset).toNat + (31 - index / 8) from by omega, ← bytes,
    Option.getD_some]
  congr 1
  omega

/-- A word that is loaded from some bytes before begins with other bits and goes on with the first ones. -/
theorem getLsbD_load_before (full : window.length = 96) {count : Nat} (few : count ≤ 32) {index : Nat}
    (inside : index + 8 * count < 256) :
    (window.load (-Int.ofNat count)).getLsbD index = (window.load 0).getLsbD (index + 8 * count) := by
  have reaches : window.Reaches (-Int.ofNat count) :=
    ⟨full, by rw [Int.ofNat_eq_natCast]; omega, by rw [Int.ofNat_eq_natCast]; omega⟩
  rw [getLsbD_load reaches (by omega), getLsbD_load (reaches_zero full) inside]
  congr 1
  rw [Int.ofNat_eq_natCast]
  omega

/-- A word that is loaded from some bytes behind begins with the last bits and goes on with other ones. -/
theorem getLsbD_load_behind (full : window.length = 96) {count : Nat} (few : count ≤ 32) {index : Nat}
    (lower : 8 * count ≤ index) (inside : index < 256) :
    (window.load count).getLsbD index = (window.load 0).getLsbD (index - 8 * count) := by
  have reaches : window.Reaches count := ⟨full, by omega, by omega⟩
  rw [getLsbD_load reaches inside, getLsbD_load (reaches_zero full) (by omega)]
  congr 1
  omega

/-- Replaced bytes leave the size of a window. -/
theorem length_put {bytes : List UInt8} {start : Nat} (fits : start + bytes.length ≤ window.length) :
    (window.put start bytes).length = window.length := by
  simp only [put, List.length_append, List.length_take, List.length_drop]
  omega

/-- The bits of a window with other bytes. -/
theorem bitAt_put {bytes : List UInt8} {start : Nat} (fits : start + bytes.length ≤ window.length) (position : Nat) :
    bitAt (window.put start bytes) position =
      if 8 * start ≤ position ∧ position < 8 * (start + bytes.length) then bitAt bytes (position - 8 * start)
      else bitAt window position := by
  have size : (window.take start).length = start := by
    rw [List.length_take]
    omega
  unfold bitAt put
  simp only [List.getD_eq_getElem?_getD]
  split
  · rename_i between
    rw [List.append_assoc, List.getElem?_append_right (by omega), List.getElem?_append_left (by omega), size,
      show position / 8 - start = (position - 8 * start) / 8 from by omega,
      show position % 8 = (position - 8 * start) % 8 from by omega]
  · rename_i outside
    by_cases before : position / 8 < start
    · rw [List.append_assoc, List.getElem?_append_left (by omega), List.getElem?_take, if_pos before]
    · rw [List.getElem?_append_right (by rw [List.length_append]; omega), List.getElem?_drop, List.length_append, size,
        show start + bytes.length + (position / 8 - (start + bytes.length)) = position / 8 from by omega]

/-- The bits of the bytes of a word. -/
theorem bitAt_toBytes (word : Word) {position : Nat} (inside : position < 256) :
    bitAt (Word.toBytes word) position = word.getLsbD (255 - position) := by
  have place : position / 8 < 32 := by omega
  rw [bitAt, List.getD_eq_getElem?_getD, Word.toBytes, List.getElem?_map, List.getElem?_range place, Option.map_some,
    Option.getD_some, Word.testBit_byteAt word place, decide_eq_true (by omega), Bool.true_and]
  congr 1
  omega

/-- The bits of a window in which a word is stored. -/
theorem bitAt_store (reaches : window.Reaches offset) (word : Word) (position : Nat) :
    bitAt (window.store offset word) position =
      if 8 * (32 + offset).toNat ≤ position ∧ position < 8 * (32 + offset).toNat + 256 then
        word.getLsbD (8 * (32 + offset).toNat + 255 - position)
      else bitAt window position := by
  have full := reaches.full
  have lower := reaches.lower
  have upper := reaches.upper
  have length := Word.toBytes_length word
  rw [store, bitAt_put (by omega), length]
  by_cases between : 8 * (32 + offset).toNat ≤ position ∧ position < 8 * (32 + offset).toNat + 256
  · rw [if_pos between, if_pos (by omega), bitAt_toBytes word (by omega)]
    congr 1
    omega
  · rw [if_neg between, if_neg (by omega)]

/-- The bits of a window in which the lowest byte of a word is stored. -/
theorem bitAt_store8 {start : Nat} (full : window.length = 96) (inside : start < 96) (word : Word) (position : Nat) :
    bitAt (window.put start [Word.byteAt word 31]) position =
      if 8 * start ≤ position ∧ position < 8 * start + 8 then word.getLsbD (8 * start + 7 - position)
      else bitAt window position := by
  rw [bitAt_put (by rw [List.length_singleton]; omega), List.length_singleton]
  by_cases between : 8 * start ≤ position ∧ position < 8 * start + 8
  · rw [if_pos between, if_pos (by omega), bitAt, show (position - 8 * start) / 8 = 0 from by omega,
      List.getD_cons_zero, Word.testBit_byteAt word (by decide), decide_eq_true (by omega), Bool.true_and]
    congr 1
    omega
  · rw [if_neg between, if_neg (by omega)]

end Window

end YulAbi
