/-!
# Texts

What is read off texts and made of them: decimal numerals, blanks, plain identifiers and
fresh names.
-/

/-! ### Decimal numerals

A numeral is an optional plus sign followed by one or more ASCII digits, leading
zeros included. It is read against an upper limit; a larger number is refused. -/

namespace YulAbi.Numeral

/-- Whether a character is an ASCII digit. -/
def isDigit (char : Char) : Bool := '0' ≤ char && char ≤ '9'

/-- The number written by ASCII digits. -/
def valueOf (digits : List Char) : Nat :=
  digits.foldl (fun total char => total * 10 + (char.toNat - 48)) 0

/-- Reads digits only, at least one. -/
def readDigits? (chars : List Char) : Option Nat :=
  if chars.isEmpty || !chars.all isDigit then none else some (valueOf chars)

/-- Reads a numeral with an optional plus sign, at most `limit`. -/
def read? (limit : Nat) (chars : List Char) : Option Nat := do
  let digits := match chars with
    | '+' :: rest => rest
    | _ => chars
  let value ← readDigits? digits
  if value ≤ limit then some value else none

end YulAbi.Numeral

/-! ### Blank characters

The characters that the Unicode property `White_Space` names. Type strings and
call data may be surrounded by them; annotations are split at them. -/

namespace YulAbi.Text

/-- Whether a character has the Unicode property `White_Space`. -/
def isBlank (char : Char) : Bool :=
  let code := char.toNat
  (9 ≤ code && code ≤ 13) || code == 0x20 || code == 0x85 || code == 0xA0 || code == 0x1680 ||
    (0x2000 ≤ code && code ≤ 0x200A) || code == 0x2028 || code == 0x2029 || code == 0x202F ||
    code == 0x205F || code == 0x3000

/-- The characters without the blanks on either side. -/
def trimBlanks (chars : List Char) : List Char :=
  ((chars.dropWhile isBlank).reverse.dropWhile isBlank).reverse

/-- The text without the blanks on either side. -/
def trim (text : String) : String := String.ofList (trimBlanks text.toList)

/-- The first run of characters between blanks, if the text holds any. -/
def firstBlankFreeRun? (text : String) : Option String :=
  match (text.toList.dropWhile isBlank).takeWhile (fun char => !isBlank char) with
  | [] => none
  | run => some (String.ofList run)

end YulAbi.Text

/-! ### Plain identifiers

Names of generated routines and constants use the ASCII letters, digits and the
underscore only, and never start with a digit. -/

namespace YulAbi.Identifier

/-- Whether a character is an ASCII letter, an ASCII digit or the underscore. -/
def isPlain (char : Char) : Bool :=
  ('a' ≤ char && char ≤ 'z') || ('A' ≤ char && char ≤ 'Z') || Numeral.isDigit char ||
    char == '_'

/-- Every other character becomes an underscore; a further underscore stands in
front of a leading digit and in place of an empty name. -/
def plainChars (name : List Char) : List Char :=
  let replaced := name.map fun char => if isPlain char then char else '_'
  match replaced with
  | [] => ['_']
  | first :: rest => if Numeral.isDigit first then '_' :: first :: rest else first :: rest

/-- Only plain characters are left. -/
theorem isPlain_of_mem_plainChars {name : List Char} {char : Char} (h : char ∈ plainChars name) :
    isPlain char = true := by
  have replaced : ∀ char ∈ name.map (fun char => if isPlain char then char else '_'),
      isPlain char = true := by
    intro char member
    obtain ⟨original, -, rfl⟩ := List.mem_map.1 member
    split
    · assumption
    · decide
  unfold plainChars at h
  dsimp only at h
  split at h
  · simp_all; decide
  · rename_i first rest equal
    rw [equal] at replaced
    split at h
    · rcases List.mem_cons.1 h with rfl | member
      · decide
      · exact replaced char member
    · exact replaced char h

/-- The plain identifier of an arbitrary name. -/
def sanitize (name : String) : String := String.ofList (plainChars name.toList)

end YulAbi.Identifier

/-! ### Fresh names

A name that is taken gets the first free number behind an underscore. One of the
first candidates is always free, because there are more candidates than taken names. -/

namespace YulAbi.FreshName

/-- The name itself, then the name with a number from one on. -/
def candidate (base : String) (number : Nat) : String :=
  if number = 0 then base else s!"{base}_{number}"

/-- The first candidate that is not taken. -/
def choose (taken : List String) (base : String) : String :=
  let number := (List.range (taken.length + 1)).find? fun number =>
    !taken.contains (candidate base number)
  candidate base (number.getD 0)

end YulAbi.FreshName
