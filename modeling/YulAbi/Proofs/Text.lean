import Mathlib.Data.List.Induction
import Mathlib.Data.List.Nodup
import Mathlib.Data.List.Perm.Subperm
import Mathlib.Data.List.TakeWhile
import YulAbi.Text

/-!
# Texts

A run of characters of one kind ends where another one follows, so texts that are put together
from runs can be taken apart in one way only. The decimal digits of a number are such a run,
and reading them gives the number back.

Taking the blanks off both sides changes nothing in a text that holds none, and removes nothing
but blanks from any other one.

All candidates for a fresh name differ, and there is one more of them than there are taken
names, so the one that is chosen is not taken.
-/

namespace YulAbi.Text

/-- A run of characters of a kind can be told from what follows, if that begins with another one. -/
theorem run_unique {kind : Char → Bool} {run run' rest rest' : List Char} (all : ∀ char ∈ run, kind char = true)
    (all' : ∀ char ∈ run', kind char = true) (stops : ∀ char ∈ rest.head?, kind char = false)
    (stops' : ∀ char ∈ rest'.head?, kind char = false) (same : run ++ rest = run' ++ rest') :
    run = run' ∧ rest = rest' := by
  have ended : ∀ {chars : List Char}, (∀ char ∈ chars.head?, kind char = false) → chars.takeWhile kind = [] := by
    intro chars stop
    cases chars with
    | nil => rfl
    | cons char more => rw [List.takeWhile_cons_of_neg (by simp [stop char rfl])]
  have front := congrArg (List.takeWhile kind) same
  rw [List.takeWhile_append_of_pos all, List.takeWhile_append_of_pos all', ended stops, ended stops',
    List.append_nil, List.append_nil] at front
  subst front
  exact ⟨rfl, List.append_cancel_left same⟩

/-- What stands in front of the first character of a kind can be told from what follows. -/
theorem front_unique {mark : Char} {front front' rest rest' : List Char} (free : mark ∉ front) (free' : mark ∉ front')
    (same : front ++ mark :: rest = front' ++ mark :: rest') : front = front' ∧ rest = rest' := by
  have others : ∀ {chars : List Char}, mark ∉ chars → ∀ char ∈ chars, (char != mark) = true :=
    fun missing char listed => bne_iff_ne.mpr fun equal => missing (equal ▸ listed)
  have stops : ∀ rest : List Char, ∀ char ∈ (mark :: rest).head?, (char != mark) = false := by simp
  obtain ⟨fronts, rests⟩ := run_unique (others free) (others free') (stops rest) (stops rest') same
  exact ⟨fronts, (List.cons.inj rests).2⟩

end YulAbi.Text

namespace YulAbi.Numeral

/-- The digits of a number are digits. -/
theorem isDigit_of_mem_toDigits {number : Nat} {char : Char} (listed : char ∈ Nat.toDigits 10 number) :
    isDigit char = true := by
  have digit := Nat.isDigit_of_mem_toDigits (by decide) (by decide) listed
  simpa [isDigit, Char.isDigit, Char.le_def] using digit

/-- The value of digits. -/
theorem valueOf_eq (digits : List Char) : valueOf digits = Nat.ofDigitChars 10 digits 0 := by
  rw [Nat.ofDigitChars_eq_foldl]
  simp only [Nat.mul_comm 10]
  rfl

/-- The digits of a number are read as the number. -/
theorem valueOf_toDigits (number : Nat) : valueOf (Nat.toDigits 10 number) = number := by
  rw [valueOf_eq, Nat.ofDigitChars_ten_toDigits]

/-- A digit is the one that its value has. -/
theorem digitChar_of_isDigit {char : Char} (digit : isDigit char = true) : Nat.digitChar (char.toNat - 48) = char := by
  simp only [isDigit, Bool.and_eq_true, decide_eq_true_eq, Char.le_def] at digit
  have bounds : 48 ≤ char.toNat ∧ char.toNat ≤ 57 := digit
  have each : ∀ value : Fin 10, Nat.digitChar value = Char.ofNat (48 + value) := by decide
  calc
    Nat.digitChar (char.toNat - 48) = Char.ofNat (48 + (char.toNat - 48)) := each ⟨char.toNat - 48, by omega⟩
    _ = Char.ofNat char.toNat := by rw [Nat.add_sub_cancel' bounds.1]
    _ = char := Char.ofNat_toNat char

/-- Digits without the zeros in front are those of their value, none if that is zero. -/
theorem dropWhile_zeros {digits : List Char} (all : ∀ char ∈ digits, isDigit char = true) :
    digits.dropWhile (· == '0') = if valueOf digits = 0 then [] else Nat.toDigits 10 (valueOf digits) := by
  induction digits using List.reverseRecOn with
  | nil => rfl
  | append_singleton front last ih =>
    have digit := all last (by simp)
    have value : valueOf (front ++ [last]) = 10 * valueOf front + (last.toNat - 48) := by
      rw [valueOf, List.foldl_append, Nat.mul_comm]
      rfl
    have small : last.toNat - 48 < 10 := by
      simp only [isDigit, Bool.and_eq_true, decide_eq_true_eq, Char.le_def] at digit
      have bound : last.toNat ≤ 57 := digit.2
      omega
    have own : Nat.toDigits 10 (last.toNat - 48) = [last] := by
      rw [Nat.toDigits_of_lt_base small, digitChar_of_isDigit digit]
    have before := ih fun char listed => all char (List.mem_append_left _ listed)
    rw [List.dropWhile_append, before, value]
    by_cases none : valueOf front = 0
    · -- only zeros stand in front of the last digit
      rw [if_pos none, none]
      by_cases zero : last.toNat - 48 = 0
      · have : last = '0' := by rw [← digitChar_of_isDigit digit, zero]; rfl
        simp [this]
      · have other : last ≠ '0' := fun same => zero (by rw [same]; rfl)
        simp [zero, other, own]
    · have positive : 10 * valueOf front + (last.toNat - 48) ≠ 0 := by omega
      rw [if_neg none, if_neg positive, ← Nat.toDigits_append_toDigits (by decide) (Nat.pos_of_ne_zero none) small, own]
      simp [Nat.toDigits_ne_nil]

/-- What is read as a number: digits, perhaps behind a plus sign, whose value is within the limit. -/
theorem read?_eq_some {limit number : Nat} {chars : List Char} : read? limit chars = some number ↔
    ∃ digits, (chars = digits ∨ chars = '+' :: digits) ∧ digits ≠ [] ∧ (∀ char ∈ digits, isDigit char = true) ∧
      valueOf digits = number ∧ number ≤ limit := by
  have bare : ∀ digits, (do
      let value ← readDigits? digits
      if value ≤ limit then some value else none) = some number ↔
      digits ≠ [] ∧ (∀ char ∈ digits, isDigit char = true) ∧ valueOf digits = number ∧ number ≤ limit := by
    intro digits
    by_cases readable : digits ≠ [] ∧ ∀ char ∈ digits, isDigit char = true
    · have read : readDigits? digits = some (valueOf digits) := by
        rw [readDigits?, if_neg (by simpa using readable)]
      simp only [read, Option.bind_eq_bind, Option.bind_some, readable.1, ne_eq, not_false_eq_true, true_and]
      grind
    · have unread : readDigits? digits = none := by
        rw [readDigits?, if_pos (by simpa [Decidable.not_and_iff_or_not, Classical.or_iff_not_imp_left] using readable)]
      simp only [unread]
      grind
  unfold read?
  split
  · rename_i rest
    refine (bare rest).trans ⟨fun read => ⟨rest, .inr rfl, read⟩, ?_⟩
    rintro ⟨digits, rfl | same, some, all, value⟩
    · exact absurd (all '+' List.mem_cons_self) (by decide)
    · rw [(List.cons.inj same).2]
      exact ⟨some, all, value⟩
  · rename_i unsigned
    refine (bare chars).trans ⟨fun read => ⟨chars, .inl rfl, read⟩, ?_⟩
    rintro ⟨digits, rfl | same, read⟩
    · exact read
    · exact absurd same (unsigned digits)

/-- The digits of a number within the limit are read. -/
theorem read?_toDigits {limit number : Nat} (within : number ≤ limit) :
    read? limit (Nat.toDigits 10 number) = some number :=
  read?_eq_some.mpr ⟨_, .inl rfl, Nat.toDigits_ne_nil, fun _ => isDigit_of_mem_toDigits, valueOf_toDigits number,
    within⟩

/-- Different numbers have different digits. -/
theorem toDigits_injective : Function.Injective (Nat.toDigits 10) :=
  Function.LeftInverse.injective valueOf_toDigits

/-- The digits of a number can be told from what follows, if that begins with no digit. -/
theorem toDigits_unique {number number' : Nat} {rest rest' : List Char}
    (stops : ∀ char ∈ rest.head?, isDigit char = false) (stops' : ∀ char ∈ rest'.head?, isDigit char = false)
    (same : Nat.toDigits 10 number ++ rest = Nat.toDigits 10 number' ++ rest') :
    number = number' ∧ rest = rest' := by
  obtain ⟨digits, rests⟩ := Text.run_unique (fun _ => isDigit_of_mem_toDigits) (fun _ => isDigit_of_mem_toDigits)
    stops stops' same
  exact ⟨toDigits_injective digits, rests⟩

end YulAbi.Numeral

namespace YulAbi.Text

/-! ### Blanks -/

/-- Letters, digits and underscores are no blanks. -/
theorem isBlank_of_isPlain {char : Char} (plain : Identifier.isPlain char = true) : isBlank char = false := by
  simp only [Identifier.isPlain, Numeral.isDigit, Bool.or_eq_true, Bool.and_eq_true, decide_eq_true_eq,
    beq_iff_eq] at plain
  have bounds : 48 ≤ char.toNat ∧ char.toNat ≤ 122 := by
    rcases plain with ((letter | capital) | digit) | rfl
    · exact ⟨Nat.le_trans (by decide) (Char.le_def.mp letter.1), Char.le_def.mp letter.2⟩
    · exact ⟨Nat.le_trans (by decide) (Char.le_def.mp capital.1), Nat.le_trans (Char.le_def.mp capital.2) (by decide)⟩
    · exact ⟨Char.le_def.mp digit.1, Nat.le_trans (Char.le_def.mp digit.2) (by decide)⟩
    · decide
  simp only [isBlank, Bool.or_eq_false_iff, Bool.and_eq_false_iff, decide_eq_false_iff_not, beq_eq_false_iff_ne]
  omega

section

variable {chars : List Char}

/-- There are no blanks to drop in front of a text without blanks. -/
theorem dropWhile_isBlank (free : ∀ char ∈ chars, isBlank char = false) : chars.dropWhile isBlank = chars := by
  cases chars with
  | nil => rfl
  | cons first rest => rw [List.dropWhile_cons_of_neg (by simp [free first List.mem_cons_self])]

/-- There is nothing to take off a text without blanks. -/
theorem trimBlanks_of_free (free : ∀ char ∈ chars, isBlank char = false) : trimBlanks chars = chars := by
  rw [trimBlanks, dropWhile_isBlank free, dropWhile_isBlank fun char listed => free char (List.mem_reverse.mp listed),
    List.reverse_reverse]

/-- A text without blanks is the first run between blanks. -/
theorem firstBlankFreeRun?_of_free {text : String} (free : ∀ char ∈ text.toList, isBlank char = false)
    (filled : text.toList ≠ []) : firstBlankFreeRun? text = some text := by
  have run : text.toList.takeWhile (fun char => !isBlank char) = text.toList :=
    List.takeWhile_eq_self_iff.mpr fun char listed => by rw [free char listed]; rfl
  rw [firstBlankFreeRun?, dropWhile_isBlank free, run]
  cases own : text.toList with
  | nil => exact absurd own filled
  | cons first rest => exact congrArg some (own ▸ String.ofList_toList)

/-- What keeps no blank does not see that those on either side are gone. -/
theorem filter_trimBlanks {keep : Char → Bool} (drops : ∀ char, isBlank char = true → keep char = false) :
    (trimBlanks chars).filter keep = chars.filter keep := by
  have front : ∀ chars : List Char, (chars.dropWhile isBlank).filter keep = chars.filter keep := by
    intro chars
    have blanks : (chars.takeWhile isBlank).filter keep = [] := by
      rw [List.filter_eq_nil_iff]
      intro char listed
      rw [drops char (List.mem_takeWhile_imp listed)]
      exact Bool.false_ne_true
    calc
      (chars.dropWhile isBlank).filter keep
        = (chars.takeWhile isBlank).filter keep ++ (chars.dropWhile isBlank).filter keep := by rw [blanks]; rfl
      _ = chars.filter keep := by rw [← List.filter_append, List.takeWhile_append_dropWhile]
  rw [trimBlanks, List.filter_reverse, front, List.filter_reverse, List.reverse_reverse, front]

end

end YulAbi.Text

namespace YulAbi.FreshName

/-! ### Fresh names -/

/-- A numeral is read back as the number. -/
theorem repr_injective : Function.Injective Nat.repr := by
  intro number other same
  rw [Nat.repr_eq_ofList_toDigits, Nat.repr_eq_ofList_toDigits] at same
  have digits := congrArg (fun text => Nat.ofDigitChars 10 text.toList 0) same
  simpa [Nat.ofDigitChars_ten_toDigits] using digits

/-- Different numbers make different candidates. -/
theorem candidate_injective (base : String) : Function.Injective (candidate base) := by
  intro number other same
  have texts := congrArg String.toList same
  unfold candidate at texts
  split at texts <;> split at texts
  · omega
  · simp [toString] at texts
  · simp [toString] at texts
  · refine repr_injective (String.toList_inj.mp ?_)
    simpa [toString] using texts

/-- A chosen name is not taken. -/
theorem choose_notMem (taken : List String) (base : String) : choose taken base ∉ taken := by
  unfold choose
  cases found : (List.range (taken.length + 1)).find? fun number => !taken.contains (candidate base number) with
  | some number => simpa using List.find?_some found
  | none =>
    have all : (List.range (taken.length + 1)).map (candidate base) ⊆ taken := by
      intro name listed
      obtain ⟨number, inside, rfl⟩ := List.mem_map.mp listed
      simpa using List.find?_eq_none.mp found number inside
    have distinct : ((List.range (taken.length + 1)).map (candidate base)).Nodup :=
      List.Nodup.map (candidate_injective base) List.nodup_range
    -- more candidates than taken names cannot all be taken
    have fits := (List.subperm_of_subset distinct all).length_le
    rw [List.length_map, List.length_range] at fits
    omega

end YulAbi.FreshName
