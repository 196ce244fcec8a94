import YulAbi.Proofs.Arena.Geometry
import YulAbi.Proofs.Interface.ReadBack
import YulAbi.Proofs.Step

/-!
# Accepted type strings

A type string without components and annotation is read as an elementary type, a function or an array of those.
Such a description is always built. Up to what reading overlooks the string is the canonical one of the node: blanks
around each part, a plus sign in front of a number and zeros that begin one are let through, and nothing else is.
-/

namespace YulAbi

namespace Interface

/-- The characters without the zeros that begin a number, where it is known whether a digit stands in front. -/
def significant (inside : Bool) : List Char → List Char
  | [] => []
  | char :: rest =>
    if !inside && char == '0' then significant false rest else char :: significant (Numeral.isDigit char) rest

/-- Whether reading takes note of a character wherever it stands: it is no blank and no plus sign. -/
def isNoted (char : Char) : Bool := !Text.isBlank char && char != '+'

/-- The characters of a type string without those that reading overlooks. -/
def tidy (chars : List Char) : List Char := significant false (chars.filter isNoted)

/-- The characters of a type string where a keyword in front without a width gets the one of a word. -/
def widenKeyword (keyword : String) (chars : List Char) : List Char :=
  match dropFront? keyword.toList chars with
  | none => chars
  | some rest => if rest.head?.any Numeral.isDigit then chars else keyword.toList ++ ("256".toList ++ rest)

/-- The characters of a type string where an integer in front has a width. -/
def widened (chars : List Char) : List Char := widenKeyword "int" (widenKeyword "uint" chars)

/-- What a character that is no digit divides is looked at piece by piece. -/
theorem significant_append {inside : Bool} {front rest : List Char} {mark : Char}
    (other : Numeral.isDigit mark = false) :
    significant inside (front ++ mark :: rest) = significant inside front ++ mark :: significant false rest := by
  induction front generalizing inside with
  | nil =>
    have nonzero : mark ≠ '0' := by
      rintro rfl
      cases other
    simp [significant, nonzero, other]
  | cons char more ih =>
    rw [List.cons_append, significant, significant]
    split
    · exact ih
    · rw [ih, List.cons_append]

/-- Behind a digit every digit is significant. -/
theorem significant_true {digits : List Char} (all : ∀ char ∈ digits, Numeral.isDigit char = true) :
    significant true digits = digits := by
  induction digits with
  | nil => rfl
  | cons char rest ih =>
    rw [significant, Bool.not_true, Bool.false_and, if_neg Bool.false_ne_true, all char List.mem_cons_self,
      ih fun digit listed => all digit (List.mem_cons_of_mem _ listed)]

/-- Of digits those are significant that stand behind the zeros in front. -/
theorem significant_digits {digits : List Char} (all : ∀ char ∈ digits, Numeral.isDigit char = true) :
    significant false digits = digits.dropWhile (· == '0') := by
  induction digits with
  | nil => rfl
  | cons char rest ih =>
    have others : ∀ digit ∈ rest, Numeral.isDigit digit = true :=
      fun digit listed => all digit (List.mem_cons_of_mem _ listed)
    by_cases zero : char = '0'
    · rw [zero, List.dropWhile_cons_of_pos rfl]
      exact ih others
    · rw [List.dropWhile_cons_of_neg (by simpa using zero), significant, if_neg (by simpa using zero),
        all char List.mem_cons_self, significant_true others]

/-- Plain characters are noted. -/
theorem filter_isNoted {chars : List Char} (plain : ∀ char ∈ chars, Identifier.isPlain char = true) :
    chars.filter isNoted = chars := by
  refine List.filter_eq_self.mpr fun char listed => ?_
  have unsigned : char ≠ '+' := by
    rintro rfl
    exact absurd (plain '+' listed) (by decide)
  simp [isNoted, Text.isBlank_of_isPlain (plain char listed), unsigned]

/-- What is noted of a positive numeral is the number. -/
theorem tidy_numeral {limit number : Nat} {digits : List Char} (read : Numeral.read? limit digits = some number)
    (positive : 0 < number) : tidy digits = Nat.toDigits 10 number := by
  obtain ⟨bare, sign, -, all, rfl, -⟩ := Numeral.read?_eq_some.mp read
  have noted : bare.filter isNoted = bare :=
    filter_isNoted fun char listed => by simp [Identifier.isPlain, all char listed]
  have same : digits.filter isNoted = bare := by
    rcases sign with rfl | rfl
    · exact noted
    · exact noted
  rw [tidy, same, significant_digits all, Numeral.dropWhile_zeros all, if_neg (Nat.ne_of_gt positive)]

/-- What is noted behind a noted character that is no digit is looked at by itself. -/
theorem tidy_append {front rest : List Char} {mark : Char} (other : Numeral.isDigit mark = false)
    (noted : isNoted mark = true) : tidy (front ++ mark :: rest) = tidy front ++ mark :: tidy rest := by
  rw [tidy, List.filter_append, List.filter_cons_of_pos noted, significant_append other]
  rfl

/-- Blanks on either side are overlooked. -/
theorem tidy_trimBlanks (chars : List Char) : tidy (Text.trimBlanks chars) = tidy chars := by
  rw [tidy, Text.filter_trimBlanks fun char blank => by simp [isNoted, blank]]
  rfl

/-- A suffix behind a type string leaves the keyword alone. -/
theorem widened_append (chars rest : List Char) : widened (chars ++ '[' :: rest) = widened chars ++ '[' :: rest := by
  have each : ∀ (keyword : String) (chars : List Char), '[' ∉ keyword.toList →
      widenKeyword keyword (chars ++ '[' :: rest) = widenKeyword keyword chars ++ '[' :: rest := by
    intro keyword chars free
    rw [widenKeyword, dropFront?_append free, widenKeyword]
    cases dropFront? keyword.toList chars with
    | none => rfl
    | some behind =>
      cases behind with
      | nil => simp [Numeral.isDigit]
      | cons char more =>
        by_cases digit : Numeral.isDigit char = true <;> simp [digit]
  rw [widened, each "uint" chars (by decide), each "int" _ (by decide), widened]

/-- What a type string without components and annotation may describe, and the shape that it then has. -/
inductive Describes : Description → Shape → Prop where
  /-- Truth value. -/
  | bool : Describes .bool .bool
  /-- Account address. -/
  | address : Describes .address .address
  /-- Unsigned integer of a legal width. -/
  | uint {bits : Nat} (legal : 8 ≤ bits ∧ bits ≤ 256 ∧ bits % 8 = 0) : Describes (.uint bits) (.integer false bits)
  /-- Signed integer of a legal width. -/
  | int {bits : Nat} (legal : 8 ≤ bits ∧ bits ≤ 256 ∧ bits % 8 = 0) : Describes (.int bits) (.integer true bits)
  /-- Byte string of a legal size. -/
  | fixedBytes {size : Nat} (legal : 1 ≤ size ∧ size ≤ 32) : Describes (.fixedBytes size) (.fixedBytes size)
  /-- Byte string of any size. -/
  | bytes : Describes .bytes .bytes
  /-- Text of any size. -/
  | string : Describes .string .string
  /-- Function of which nothing is known. -/
  | function : Describes (.function "" [] [] .nonpayable) (.function [] [])
  /-- Array of some length or of any length. -/
  | array {base : Description} {shape : Shape} {length : Option Nat} (elements : Describes base shape)
    (legal : length ≠ some 0) : Describes (.array base length) (.array shape length)

/-- What is read as a width in bits. -/
theorem readWidth?_eq_some {digits : List Char} {bits : Nat} (read : readWidth? digits = some bits) :
    Numeral.read? 65535 digits = some bits ∧ 8 ≤ bits ∧ bits ≤ 256 ∧ bits % 8 = 0 := by
  obtain ⟨numeral, legal⟩ := Option.filter_eq_some_iff.mp read
  exact ⟨numeral, of_decide_eq_true legal⟩

/-- What is read as a size in bytes. -/
theorem readSize?_eq_some {digits : List Char} {size : Nat} (read : readSize? digits = some size) :
    Numeral.read? 255 digits = some size ∧ 1 ≤ size ∧ size ≤ 32 := by
  obtain ⟨numeral, legal⟩ := Option.filter_eq_some_iff.mp read
  exact ⟨numeral, of_decide_eq_true legal⟩

/-- What is read as a keyword with a number. -/
theorem numberedType_eq_ok {name : String} {description : Description} (read : numberedType name = .ok description) :
    (∃ digits bits, name.toList = "uint".toList ++ digits ∧ readWidth? digits = some bits ∧ description = .uint bits) ∨
      (∃ digits bits, name.toList = "int".toList ++ digits ∧ readWidth? digits = some bits ∧ description = .int bits) ∨
      ∃ digits size, name.toList = "bytes".toList ++ digits ∧ readSize? digits = some size ∧
        description = .fixedBytes size := by
  simp only [numberedType] at read
  split at read
  · rename_i digits whole
    split at read <;> cases read
    exact .inl ⟨digits, _, dropFront?_eq_some.mp whole, ‹_›, rfl⟩
  · split at read
    · rename_i digits whole
      split at read <;> cases read
      exact .inr (.inl ⟨digits, _, dropFront?_eq_some.mp whole, ‹_›, rfl⟩)
    · split at read
      · rename_i digits whole
        split at read <;> cases read
        exact .inr (.inr ⟨digits, _, dropFront?_eq_some.mp whole, ‹_›, rfl⟩)
      · cases read

/-- A keyword with a width keeps it. -/
theorem widenKeyword_numbered (keyword : String) (number : Nat) :
    widenKeyword keyword (keyword.toList ++ Nat.toDigits 10 number) = keyword.toList ++ Nat.toDigits 10 number := by
  rw [widenKeyword, dropFront?_eq_some.mpr rfl]
  cases digits : Nat.toDigits 10 number with
  | nil => exact absurd digits Nat.toDigits_ne_nil
  | cons first rest =>
    have digit : Numeral.isDigit first = true := Numeral.isDigit_of_mem_toDigits (digits ▸ List.mem_cons_self)
    simp [digit]

/-- What a keyword with a number describes. -/
theorem numberedType_describes {name : String} {description : Description}
    (read : numberedType name = .ok description) :
    ∃ shape, Describes description shape ∧ widened (tidy name.toList) = shape.abiType.toList := by
  rcases numberedType_eq_ok read with ⟨digits, bits, whole, width, rfl⟩ | ⟨digits, bits, whole, width, rfl⟩ |
    ⟨digits, size, whole, sized, rfl⟩
  · obtain ⟨numeral, legal⟩ := readWidth?_eq_some width
    have tidied : tidy name.toList = "uint".toList ++ Nat.toDigits 10 bits := by
      rw [whole, ← tidy_numeral numeral (by omega)]
      rfl
    refine ⟨_, .uint legal, ?_⟩
    rw [tidied, widened, widenKeyword_numbered, Shape.abiType, toList_integerText]
    rfl
  · obtain ⟨numeral, legal⟩ := readWidth?_eq_some width
    have tidied : tidy name.toList = "int".toList ++ Nat.toDigits 10 bits := by
      rw [whole, ← tidy_numeral numeral (by omega)]
      rfl
    refine ⟨_, .int legal, ?_⟩
    have narrow : widened ("int".toList ++ Nat.toDigits 10 bits) =
        widenKeyword "int" ("int".toList ++ Nat.toDigits 10 bits) := rfl
    rw [tidied, narrow, widenKeyword_numbered, Shape.abiType, toList_integerText]
    rfl
  · obtain ⟨numeral, legal⟩ := readSize?_eq_some sized
    have tidied : tidy name.toList = "bytes".toList ++ Nat.toDigits 10 size := by
      rw [whole, ← tidy_numeral numeral (by omega)]
      rfl
    refine ⟨_, .fixedBytes legal, ?_⟩
    rw [tidied, Shape.abiType, toList_bytesText]
    rfl

/-- What a keyword by itself describes. -/
theorem namedType?_describes {name : String} {description : Description} (read : namedType? name = some description) :
    ∃ shape, Describes description shape ∧ widened (tidy name.toList) = shape.abiType.toList := by
  have named : ∀ {keyword : String} {own : Description} {shape : Shape}, Describes own shape → name = keyword →
      some own = some description → widened (tidy keyword.toList) = shape.abiType.toList →
      ∃ shape, Describes description shape ∧ widened (tidy name.toList) = shape.abiType.toList := by
    intro keyword own shape describes same given text
    cases given
    exact ⟨shape, describes, same ▸ text⟩
  unfold namedType? at read
  split at read
  · exact named .bool ‹_› read (by decide +kernel)
  split at read
  · exact named .address ‹_› read (by decide +kernel)
  split at read
  · exact named .string ‹_› read (by decide +kernel)
  split at read
  · exact named .bytes ‹_› read (by decide +kernel)
  split at read
  · exact named (.uint (by decide)) ‹_› read (by decide +kernel)
  split at read
  · exact named (.int (by decide)) ‹_› read (by decide +kernel)
  split at read
  · exact named .function ‹_› read (by decide +kernel)
  · cases read

/-- What an array suffix notes of its length. -/
theorem tidy_length {digits : List Char} {length : Option Nat} (read : readLength? digits = some length) :
    tidy digits = Shape.lengthText length ∧ length ≠ some 0 := by
  rcases readLength?_eq_some read with ⟨rfl, rfl⟩ | ⟨count, rfl, positive, numeral⟩
  · exact ⟨rfl, nofun⟩
  · exact ⟨tidy_numeral numeral positive, by simp [Nat.ne_of_gt positive]⟩

/-- A suffix is noted by itself, with the length that is read from it. -/
theorem tidy_suffixed {inner digits : List Char} {length : Option Nat}
    (count : tidy digits = Shape.lengthText length) :
    tidy (inner ++ '[' :: (digits ++ [']'])) = tidy inner ++ (Shape.arraySuffix length).toList := by
  rw [tidy_append rfl rfl, tidy_append rfl rfl, count, suffix_eq]
  rfl

/-- What stands behind the bracket of a closed suffix ends with the other bracket. -/
theorem body_of_closed {inner body : List Char} (closed : (inner ++ '[' :: body).getLast? = some ']') :
    ∃ digits, body = digits ++ [']'] := by
  rcases List.eq_nil_or_concat body with rfl | ⟨digits, last, rfl⟩
  · rw [List.getLast?_concat] at closed
    exact absurd closed (by decide)
  · rw [List.concat_eq_append, ← List.cons_append, ← List.append_assoc, List.getLast?_concat] at closed
    cases closed
    exact ⟨digits, List.concat_eq_append⟩

/-- What is read of a type string without components and annotation. The induction is on the number of suffixes that
may be peeled off; blanks around each part are taken off on the way. -/
theorem parseWithin_describes {fuel : Nat} {chars : List Char}
    {members : Except TypeStringError (List (Member Description))} {description : Description}
    (read : parseWithin fuel chars false members none = .ok description) :
    ∃ shape, Describes description shape ∧ widened (tidy chars) = shape.abiType.toList := by
  induction fuel generalizing chars description with
  | zero => cases read
  | succ fuel ih =>
    rw [← tidy_trimBlanks]
    simp only [parseWithin] at read
    split at read
    · rename_i closed
      split at read
      · cases read
      · -- an array: its suffix is split off at the last bracket and its elements are read by themselves
        rename_i inner suffix divided
        obtain ⟨body, whole, rfl, -⟩ := splitSuffix?_eq_some divided
        split at read
        · cases read
        · rename_i length sized
          obtain ⟨digits, rfl⟩ := body_of_closed (whole ▸ closed)
          rw [List.drop_one, List.tail_cons, List.dropLast_concat] at sized
          obtain ⟨count, some⟩ := tidy_length sized
          obtain ⟨base, inside, made⟩ := Attempt.bind_eq_ok.mp read
          cases made
          obtain ⟨shape, describes, text⟩ := ih inside
          refine ⟨_, .array describes some, ?_⟩
          rw [whole, tidy_suffixed count, suffix_eq, widened_append, text, Shape.abiType, String.toList_append,
            suffix_eq]
    · split at read
      · rename_i own named
        obtain ⟨shape, describes, text⟩ := namedType?_describes named
        cases read
        rw [String.toList_ofList] at text
        exact ⟨shape, describes, text⟩
      · split at read
        · cases read
        · cases numbered : numberedType (String.ofList (Text.trimBlanks chars)) with
          | error cause =>
            rw [numbered] at read
            cases read
          | ok own =>
            rw [numbered] at read
            cases read
            obtain ⟨shape, describes, text⟩ := numberedType_describes numbered
            rw [String.toList_ofList] at text
            exact ⟨shape, describes, text⟩

section

open Construction

variable {arena : Arena} {description : Description} {shape : Shape}

/-- A described shape is no signature. -/
theorem Describes.isSignature (describes : Describes description shape) : shape.isSignature = false := by
  cases describes <;> rfl

/-- What is built leaves a sound arena with its node. -/
theorem ends_of_builds {construction : Construction NodeId} {known : Arena → Prop} {later : Arena} {id : NodeId}
    (builds : Builds construction known fun id arena => arena.Has id shape) (sound : arena.Sound) (knows : known arena)
    (run : construction.runOn arena = (.ok id, later)) : later.Sound ∧ later.Has id shape := by
  obtain ⟨kept, -, reached⟩ := builds arena sound knows
  rw [run] at kept reached
  exact ⟨kept, reached id rfl⟩

/-- A node without parts is always added. -/
theorem leaf_builds {kind : Kind} (leaf : kind.children = [])
    (same : ∀ arena : Arena, arena.shapeOfKind kind = shape) (legal : shape.isLegal = true) (sound : arena.Sound) :
    ∃ id later, (addNode kind).runOn arena = (.ok id, later) ∧ later.Sound ∧ later.Has id shape := by
  have adds : Builds (addNode kind) (fun _ => True) fun id arena => arena.Has id shape :=
    addLeaf_builds kind leaf same legal
  exact ⟨_, _, rfl, ends_of_builds adds sound trivial rfl⟩

/-- What a type string without components and annotation describes is always built, with its shape. -/
theorem Describes.builds (describes : Describes description shape) (sound : arena.Sound) :
    ∃ id later, (build description).runOn arena = (.ok id, later) ∧ later.Sound ∧ later.Has id shape := by
  have word : wordBits = 256 := rfl
  induction describes with
  | bool => exact leaf_builds rfl (fun _ => rfl) rfl sound
  | address => exact leaf_builds rfl (fun _ => rfl) rfl sound
  | bytes => exact leaf_builds rfl (fun _ => rfl) rfl sound
  | string => exact leaf_builds rfl (fun _ => rfl) rfl sound
  | @uint bits legal =>
    have made : addInteger false bits = addNode (.integer false bits) := if_neg (by omega)
    rw [build, made]
    exact leaf_builds rfl (fun _ => rfl) (Shape.isLegal_integer.mpr (by omega)) sound
  | @int bits legal =>
    have made : addInteger true bits = addNode (.integer true bits) := if_neg (by omega)
    rw [build, made]
    exact leaf_builds rfl (fun _ => rfl) (Shape.isLegal_integer.mpr (by omega)) sound
  | @fixedBytes size legal =>
    have made : addFixedBytes size = addNode (.fixedBytes size) := if_pos legal
    rw [build, made]
    exact leaf_builds rfl (fun _ => rfl) (by simp [Shape.isLegal, wordBytes, legal]) sound
  | function =>
    have none : arena.HasAll [] [] := ⟨nofun, rfl⟩
    have adds : Builds (addFunction "" [] [] .nonpayable) (fun arena => arena.HasAll [] [] ∧ arena.HasAll [] [])
        fun id arena => arena.Has id (.function [] []) := addFunction_builds "" [] [] .nonpayable [] []
    exact ⟨_, _, rfl, ends_of_builds adds sound ⟨none, none⟩ rfl⟩
  | @array base shape length elements legal ih =>
    obtain ⟨id, reached, run, sound', there⟩ := ih
    have added : ∃ id' later, (addArray id length).runOn reached = (.ok id', later) := by
      have checked : (addArray id length).runOn reached =
          (claim id >>= fun child => addNode (.array child length)).runOn reached := by
        have looked : (get : Construction Arena).runOn reached = (.ok reached, reached) := rfl
        rw [addArray, runOn_bind, looked]
        simp only [if_neg legal, there.2, elements.isSignature, Bool.false_eq_true, if_false]
      exact ⟨_, _, checked.trans rfl⟩
    obtain ⟨id', later, run'⟩ := added
    refine ⟨id', later, ?_, ends_of_builds (addArray_builds id length) sound' there run'⟩
    rw [build, runOn_bind, run]
    exact run'

/-- A type string that is accepted without components and annotation is the canonical one of the node that is built
from what is read, up to a width that is left out, blanks, plus signs and zeros that begin a number. -/
theorem canonical_of_accepted {text : String} (accepted : parseTypeString text [] none = .ok description)
    (made : arena.Made) : ∃ id later, (build description).runOn arena = (.ok id, later) ∧
      (later.abiType id).toList = widened (tidy text.toList) := by
  obtain ⟨shape, describes, same⟩ := parseWithin_describes accepted
  obtain ⟨id, later, run, sound, inside, own⟩ := describes.builds made.sound
  exact ⟨id, later, run, by rw [sound.abiType_eq inside, own, same]⟩

/-- The number in `uint+8` has a sign, and that in `uint08` a zero in front. -/
example : parseTypeString "uint+8" [] none = .ok (.uint 8) ∧ parseTypeString "uint08" [] none = .ok (.uint 8) :=
  ⟨rfl, rfl⟩

/-- Where every zero stands behind a digit, all of them are significant. -/
theorem significant_of_behind {before chars : List Char}
    (behind : ∀ front rest, before ++ chars = front ++ '0' :: rest → before.length ≤ front.length →
      front.getLast?.any Numeral.isDigit = true) :
    significant (before.getLast?.any Numeral.isDigit) chars = chars := by
  induction chars generalizing before with
  | nil => rfl
  | cons char rest ih =>
    have others := @ih (before ++ [char]) fun front more same longer =>
      behind front more (by simpa using same) (by simp at longer; omega)
    rw [List.getLast?_concat, Option.any_some] at others
    rw [significant, others, if_neg]
    intro dropped
    simp only [Bool.and_eq_true, Bool.not_eq_true', beq_iff_eq] at dropped
    rw [behind before rest (dropped.2 ▸ rfl) (Nat.le_refl _)] at dropped
    cases dropped.1

/-- An accepted type string in which blanks stand on either side only, no number has a sign and every zero stands behind
a digit is the canonical one of the node that is built from what is read, up to a width that is left out. -/
theorem canonical_of_plain {text : String} (accepted : parseTypeString text [] none = .ok description)
    (noted : ∀ char ∈ Text.trimBlanks text.toList, isNoted char = true)
    (behind : ∀ front rest, Text.trimBlanks text.toList = front ++ '0' :: rest →
      front.getLast?.any Numeral.isDigit = true) (made : arena.Made) :
    ∃ id later, (build description).runOn arena = (.ok id, later) ∧
      (later.abiType id).toList = widened (Text.trimBlanks text.toList) := by
  have kept : tidy text.toList = Text.trimBlanks text.toList := by
    rw [← tidy_trimBlanks, tidy, List.filter_eq_self.mpr noted]
    exact @significant_of_behind [] _ fun front rest same _ => behind front rest same
  rw [← kept]
  exact canonical_of_accepted accepted made

end

end Interface

end YulAbi
