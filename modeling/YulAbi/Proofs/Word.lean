import Mathlib.Data.Nat.Bitwise
import YulAbi.Word

/-!
# Arithmetic of words

Sums and products of words are those of their numbers as long as these fit a word, and
clearing the lowest five bits rounds down to a whole number of words.
-/

namespace YulAbi.Word

/-- A number that fits a word. -/
theorem toNat_ofNat {number : Nat} (small : number < 2 ^ 256) : (ofNat number).toNat = number :=
  Nat.mod_eq_of_lt small

/-- A word is the word of its number. -/
theorem ofNat_toNat (word : Word) : ofNat word.toNat = word :=
  BitVec.eq_of_toNat_eq (toNat_ofNat word.isLt)

/-- A sum that fits a word. -/
theorem toNat_add {left right : Word} (small : left.toNat + right.toNat < 2 ^ 256) :
    (left + right).toNat = left.toNat + right.toNat := by
  rw [BitVec.toNat_add, Nat.mod_eq_of_lt small]

/-- A product that fits a word. -/
theorem toNat_mul {left right : Word} (small : left.toNat * right.toNat < 2 ^ 256) :
    (left * right).toNat = left.toNat * right.toNat := by
  rw [BitVec.toNat_mul, Nat.mod_eq_of_lt small]

/-- The sum of numbers as words. -/
theorem ofNat_add (left right : Nat) : ofNat left + ofNat right = ofNat (left + right) := by
  simp [ofNat, BitVec.ofNat_add]

/-- The product of numbers as words. -/
theorem ofNat_mul (left right : Nat) : ofNat left * ofNat right = ofNat (left * right) := by
  simp [ofNat, BitVec.ofNat_mul]

/-- The bits of 31 are the lowest five. -/
theorem getLsbD_31 (index : Nat) : (31#256).getLsbD index = decide (index < 5) := by
  by_cases low : index < 5
  · have cases : index = 0 ∨ index = 1 ∨ index = 2 ∨ index = 3 ∨ index = 4 := by omega
    rcases cases with rfl | rfl | rfl | rfl | rfl <;> rfl
  · have above : Nat.testBit 31 index = false :=
      Nat.testBit_lt_two_pow (Nat.lt_of_lt_of_le (by decide : 31 < 2 ^ 5) (Nat.pow_le_pow_right (by decide) (by omega)))
    simp [BitVec.getLsbD_ofNat, above, low]

/-- Clearing the lowest five bits rounds down. -/
theorem toNat_roundDown (word : Word) : (word &&& ~~~31#256).toNat = word.toNat / 32 * 32 := by
  have shifted : word &&& ~~~31#256 = (word >>> 5) <<< 5 := by
    refine BitVec.eq_of_getLsbD_eq fun index inside => ?_
    simp only [BitVec.getLsbD_and, BitVec.getLsbD_not, BitVec.getLsbD_shiftLeft, BitVec.getLsbD_ushiftRight, inside,
      getLsbD_31, decide_true, Bool.true_and]
    by_cases low : index < 5
    · simp [low]
    · simp [low, show 5 + (index - 5) = index from by omega]
  have bound := word.isLt
  rw [shifted, BitVec.toNat_shiftLeft, BitVec.toNat_ushiftRight, Nat.shiftRight_eq_div_pow, Nat.shiftLeft_eq,
    Nat.mod_eq_of_lt (by omega)]

end YulAbi.Word
