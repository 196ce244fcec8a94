import YulAbi.Proofs.Arena.Sound
import YulAbi.Proofs.Text

/-!
# Identifiers are read in one way

The identifier of a shape begins with a keyword in small letters, and what follows tells where
each part ends, as long as names do not hold the marks that stand behind them. So legal shapes
with such names have the same identifier only if they are the same. Suffixes of arrays are the
one construct that stands behind its part: an identifier is first taken apart into what the
innermost elements are and the lengths, and shapes are compared when nothing but a comma or a
closing parenthesis follows.
-/

namespace YulAbi.Shape

/-- Whether a character stands behind names in identifiers. -/
def isMark (char : Char) : Bool := char == '(' || char == ':' || char == '='

mutual
/-- The names in a shape. -/
def names : Shape → List String
  | .enumeration name _ => [name]
  | .userDefined name underlying => name :: underlying.names
  | .array base _ => base.names
  | .struct name members => name :: namesOfAll members
  | .tuple members => namesOfAll members
  | .function parameters returns => namesOfAll parameters ++ namesOfAll returns
  | .error name parameters => name :: namesOfAll parameters
  | .event name parameters _ _ => name :: namesOfAll parameters
  | _ => []
/-- The names in several shapes. -/
def namesOfAll : List Shape → List String
  | [] => []
  | shape :: rest => shape.names ++ namesOfAll rest
end

/-- Whether no name in a list holds a mark that stands behind names. -/
def Unmarked (names : List String) : Prop := ∀ name ∈ names, ∀ char ∈ name.toList, isMark char = false

/-- Names of letters, digits, underscores, dollar signs and dots hold no marks. -/
theorem unmarked_of_plain {names : List String}
    (plain : (names.all fun name => name.toList.all fun char => char.isAlphanum || "_$.".toList.contains char) = true) :
    Unmarked names := by
  intro name listed char inside
  have allowed := List.all_eq_true.mp (List.all_eq_true.mp plain name listed) char inside
  simp only [isMark, Bool.or_eq_false_iff, beq_eq_false_iff_ne]
  refine ⟨⟨?_, ?_⟩, ?_⟩ <;>
    · rintro rfl
      revert allowed
      decide

/-- What no name in a list holds, no name in either part of the list holds. -/
@[simp]
theorem unmarked_append {names names' : List String} :
    Unmarked (names ++ names') ↔ Unmarked names ∧ Unmarked names' := List.forall_mem_append

/-- What no name in a list holds, neither the first one nor the others hold. -/
@[simp]
theorem unmarked_cons {name : String} {names : List String} :
    Unmarked (name :: names) ↔ (∀ char ∈ name.toList, isMark char = false) ∧ Unmarked names := List.forall_mem_cons

/-- The shape of the innermost elements of an array. -/
def innermost : Shape → Shape
  | .array base _ => base.innermost
  | shape => shape

/-- The lengths of an array, beginning with that of the innermost one. -/
def lengths : Shape → List (Option Nat)
  | .array base length => base.lengths ++ [length]
  | _ => []

/-- Whether a shape is an array. -/
def isArray : Shape → Bool
  | .array .. => true
  | _ => false

/-- An array is made of its innermost elements by its lengths. These are no arrays, hold the same names and are legal
if the array is. -/
theorem innermost_spec (shape : Shape) : shape.lengths.foldl array shape.innermost = shape ∧
    shape.innermost.isArray = false ∧ shape.innermost.names = shape.names ∧
    (shape.isLegal = true → shape.innermost.isLegal = true) := by
  induction shape using innermost.induct with
  | case1 base length ih =>
    obtain ⟨made, plain, names, legal⟩ := ih
    refine ⟨?_, plain, names, fun legal' => legal (isLegal_array.mp legal').2.1⟩
    rw [lengths, innermost, List.foldl_append, made]
    rfl
  | case2 shape other =>
    cases shape with
    | array base length => exact absurd rfl (other base length)
    | _ => exact ⟨rfl, rfl, rfl, fun legal => legal⟩

/-- The characters between the brackets of an array. -/
def lengthText : Option Nat → List Char
  | none => []
  | some length => Nat.toDigits 10 length

/-- The characters behind the innermost elements of an array. -/
def suffixText (lengths : List (Option Nat)) : List Char :=
  lengths.flatMap fun length => '[' :: (lengthText length ++ [']'])

/-- The characters of members with the closing parenthesis. -/
def membersText (members : List Shape) : List Char :=
  [','].intercalate (members.map fun member => member.identifier.toList) ++ [')']

/-- The word in small letters that an identifier begins with. -/
def keyword : Shape → String
  | .bool => "bool"
  | .address => "address"
  | .integer signed _ => if signed then "int" else "uint"
  | .enumeration .. => "enum"
  | .fixedBytes _ => "bytes"
  | .userDefined .. => "type"
  | .bytes => "bytes"
  | .string => "string"
  | .array base _ => base.keyword
  | .struct .. => "struct"
  | .tuple _ => ""
  | .function .. => "function"
  | .error .. => "error"
  | .event .. => "event"

/-- The characters behind the word that an identifier begins with. -/
def payload : Shape → List Char
  | .integer _ bits => Nat.toDigits 10 bits
  | .enumeration name count => ' ' :: (name.toList ++ ':' :: Nat.toDigits 10 count)
  | .fixedBytes size => Nat.toDigits 10 size
  | .userDefined name underlying => ' ' :: (name.toList ++ '=' :: underlying.identifier.toList)
  | .array base length => base.payload ++ suffixText [length]
  | .struct name members => ' ' :: (name.toList ++ '(' :: membersText members)
  | .tuple members => '(' :: membersText members
  | .function parameters returns => '(' :: (membersText parameters ++ '(' :: membersText returns)
  | .error name parameters => ' ' :: (name.toList ++ '(' :: membersText parameters)
  | .event name parameters indexed anonymous =>
    ' ' :: (name.toList ++ '(' :: (membersText parameters ++ '[' ::
      ((indexed.map fun topic => if topic then 'i' else '_') ++ ']' ::
        (if anonymous then " anonymous" else "").toList)))
  | _ => []

/-- The identifiers of shapes, one for each. -/
theorem identifiers_eq_map (shapes : List Shape) : identifiers shapes = shapes.map identifier := by
  induction shapes with
  | nil => rfl
  | cons shape rest ih => rw [identifiers, ih, List.map_cons]

/-- The characters of a suffix. -/
theorem toList_arraySuffix (length : Option Nat) : (arraySuffix length).toList = suffixText [length] := by
  cases length <;> simp [arraySuffix, suffixText, lengthText, toString]

/-- The characters of an identifier are a keyword and what follows. -/
theorem toList_identifier (shape : Shape) : shape.identifier.toList = shape.keyword.toList ++ shape.payload := by
  induction shape using innermost.induct with
  | case1 base length ih =>
    have suffixed : (array base length).identifier = base.identifier ++ arraySuffix length := rfl
    rw [suffixed, String.toList_append, ih, toList_arraySuffix, List.append_assoc]
    rfl
  | case2 shape other =>
    cases shape with
    | array base length => exact absurd rfl (other base length)
    | integer signed bits => cases signed <;> simp [identifier, integerText, keyword, payload, toString]
    | event name parameters indexed anonymous =>
      cases anonymous <;>
        simp [identifier, keyword, payload, toString, membersText, topicMarks, identifiers_eq_map, Function.comp_def]
    | _ => simp [identifier, keyword, payload, toString, membersText, identifiers_eq_map, Function.comp_def]

/-- The characters of an array are those of its innermost elements and its lengths. -/
theorem toList_identifier_innermost (shape : Shape) :
    shape.identifier.toList = shape.innermost.identifier.toList ++ suffixText shape.lengths := by
  induction shape using innermost.induct with
  | case1 base length ih =>
    have suffixed : (array base length).identifier = base.identifier ++ arraySuffix length := rfl
    rw [suffixed, String.toList_append, ih, toList_arraySuffix, lengths, suffixText, suffixText, suffixText,
      List.flatMap_append, List.append_assoc]
    rfl
  | case2 shape other =>
    cases shape with
    | array base length => exact absurd rfl (other base length)
    | _ => exact (List.append_nil _).symm

/-- Whether what stands behind an identifier is nothing, or begins with one of some marks. -/
def IsBehind (marks : List Char) (rest : List Char) : Prop := ∀ char ∈ rest.head?, char ∈ marks

/-- What begins with one of some marks does not begin with other characters. -/
theorem IsBehind.stops {marks rest : List Char} {kind : Char → Bool} (h : IsBehind marks rest)
    (others : (marks.all fun mark => !kind mark) = true) : ∀ char ∈ rest.head?, kind char = false :=
  fun char first => by simpa using List.all_eq_true.mp others char (h char first)

/-- The digits of a number begin with a digit. -/
theorem head_digits {number : Nat} {rest : List Char} {kind : Char → Bool}
    (others : ∀ char, Numeral.isDigit char = true → kind char = false) :
    ∀ char ∈ (Nat.toDigits 10 number ++ rest).head?, kind char = false := by
  intro char first
  cases digits : Nat.toDigits 10 number with
  | nil => exact absurd digits Nat.toDigits_ne_nil
  | cons digit more =>
    rw [digits] at first
    have listed : digit ∈ Nat.toDigits 10 number := digits ▸ List.mem_cons_self
    obtain rfl : digit = char := by simpa using first
    exact others digit (Numeral.isDigit_of_mem_toDigits listed)

/-- A digit is no small letter. -/
theorem isLower_of_isDigit (char : Char) (digit : Numeral.isDigit char = true) : char.isLower = false := by
  simp only [Numeral.isDigit, Bool.and_eq_true, decide_eq_true_eq, Char.le_def] at digit
  change (decide ('a'.val ≤ char.val) && decide (char.val ≤ 'z'.val)) = false
  simp only [Bool.and_eq_false_iff, decide_eq_false_iff_not, UInt32.le_iff_toNat_le] at digit ⊢
  have low : ('9' : Char).val.toNat = 57 := rfl
  have high : ('a' : Char).val.toNat = 97 := rfl
  omega

/-- A keyword is in small letters, and no small letter stands behind it. -/
theorem keyword_unique {shape shape' : Shape} {rest rest' : List Char} (plain : shape.isArray = false)
    (plain' : shape'.isArray = false) (behind : IsBehind [',', ')', '['] rest)
    (behind' : IsBehind [',', ')', '['] rest')
    (same : shape.identifier.toList ++ rest = shape'.identifier.toList ++ rest') :
    shape.keyword = shape'.keyword ∧ shape.payload ++ rest = shape'.payload ++ rest' := by
  have small : ∀ shape : Shape, shape.isArray = false → ∀ char ∈ shape.keyword.toList, char.isLower = true := by
    intro shape plain
    rw [← List.all_eq_true]
    cases shape with
    | array _ _ => cases plain
    | integer signed _ => cases signed <;> simp only [keyword] <;> decide
    | _ =>
      simp only [keyword]
      decide
  have stops : ∀ (shape : Shape) (rest : List Char), shape.isArray = false → IsBehind [',', ')', '['] rest →
      ∀ char ∈ (shape.payload ++ rest).head?, char.isLower = false := by
    intro shape rest plain behind
    cases shape with
    | array _ _ => cases plain
    | integer _ _ | fixedBytes _ => exact head_digits isLower_of_isDigit
    | bool | address | bytes | string => exact behind.stops (by decide)
    | _ => simp [payload]
  rw [toList_identifier, toList_identifier, List.append_assoc, List.append_assoc] at same
  obtain ⟨keywords, payloads⟩ := Text.run_unique (small shape plain) (small shape' plain')
    (stops shape rest plain behind) (stops shape' rest' plain' behind') same
  exact ⟨String.toList_inj.mp keywords, payloads⟩

/-- Whether a shape is legal, and the marks that stand behind names are not in them. -/
def Readable (shape : Shape) : Prop := shape.isLegal = true ∧ Unmarked shape.names

/-- Whether several shapes are legal parts with such names. -/
def AllReadable (shapes : List Shape) : Prop := areLegal shapes = true ∧ Unmarked (namesOfAll shapes)

/-- The first of several shapes may be read by itself. -/
theorem allReadable_cons {shape : Shape} {rest : List Shape} (h : AllReadable (shape :: rest)) :
    shape.Readable ∧ AllReadable rest := by
  simp only [AllReadable, areLegal, namesOfAll, Bool.and_eq_true, unmarked_append] at h
  exact ⟨⟨h.1.1.2, h.2.1⟩, h.1.2, h.2.2⟩

/-- The innermost elements of an array may be read by themselves. -/
theorem Readable.innermost {shape : Shape} (h : shape.Readable) : shape.innermost.Readable := by
  obtain ⟨-, -, names, legal⟩ := shape.innermost_spec
  exact ⟨legal h.1, names ▸ h.2⟩

/-- Whether an identifier tells what the innermost elements are, whatever stands behind it. -/
structure Reads (shape : Shape) : Prop where
  /-- Shapes with the same identifier have the same innermost elements, and the same text follows them. -/
  tells : ∀ {shape' : Shape} {rest rest' : List Char}, shape.Readable → shape'.Readable →
    IsBehind [',', ')', '['] rest → IsBehind [',', ')', '['] rest' →
    shape.identifier.toList ++ rest = shape'.identifier.toList ++ rest' →
    shape.innermost = shape'.innermost ∧ suffixText shape.lengths ++ rest = suffixText shape'.lengths ++ rest'

/-- Suffixes of arrays are told apart if no further one stands behind them. -/
theorem suffixText_unique {lengths lengths' : List (Option Nat)} {rest rest' : List Char}
    (behind : IsBehind [',', ')'] rest) (behind' : IsBehind [',', ')'] rest')
    (same : suffixText lengths ++ rest = suffixText lengths' ++ rest') : lengths = lengths' ∧ rest = rest' := by
  have opens : ∀ {length : Option Nat} {more : List (Option Nat)} {rest rest' : List Char},
      IsBehind [',', ')'] rest → suffixText (length :: more) ++ rest' ≠ rest := by
    rintro length more rest rest' behind rfl
    exact absurd (behind '[' (by simp [suffixText])) (by decide)
  induction lengths generalizing lengths' with
  | nil =>
    cases lengths' with
    | nil => exact ⟨rfl, same⟩
    | cons length' more' => exact absurd same.symm (opens behind)
  | cons length more ih =>
    cases lengths' with
    | nil => exact absurd same (opens behind')
    | cons length' more' =>
      have digits : ∀ length : Option Nat, ']' ∉ lengthText length := by
        intro length listed
        cases length with
        | none => cases listed
        | some count => exact absurd (Numeral.isDigit_of_mem_toDigits listed) (by decide)
      simp only [suffixText, List.flatMap_cons, List.cons_append, List.append_assoc, List.cons.injEq, true_and,
        List.nil_append] at same
      obtain ⟨texts, others⟩ := Text.front_unique (digits length) (digits length') same
      obtain ⟨lengths, rests⟩ := ih others
      refine ⟨?_, rests⟩
      rw [lengths]
      cases length with
      | none =>
        cases length' with
        | none => rfl
        | some count => exact absurd texts.symm Nat.toDigits_ne_nil
      | some count =>
        cases length' with
        | none => exact absurd texts Nat.toDigits_ne_nil
        | some count' => rw [Numeral.toDigits_injective texts]

/-- An identifier tells the shape if no suffix stands behind it. -/
theorem Reads.complete {shape shape' : Shape} {rest rest' : List Char} (reads : shape.Reads) (readable : shape.Readable)
    (readable' : shape'.Readable) (behind : IsBehind [',', ')'] rest) (behind' : IsBehind [',', ')'] rest')
    (same : shape.identifier.toList ++ rest = shape'.identifier.toList ++ rest') : shape = shape' ∧ rest = rest' := by
  have wider : ∀ {rest : List Char}, IsBehind [',', ')'] rest → IsBehind [',', ')', '['] rest :=
    fun behind char first => List.mem_append_left ['['] (behind char first)
  obtain ⟨elements, suffixes⟩ := reads.tells readable readable' (wider behind) (wider behind') same
  obtain ⟨lengths, rests⟩ := suffixText_unique behind behind' suffixes
  refine ⟨?_, rests⟩
  rw [← shape.innermost_spec.1, ← shape'.innermost_spec.1, elements, lengths]

/-- An identifier is not empty and begins with no closing parenthesis. -/
theorem exists_identifier_cons (shape : Shape) :
    ∃ first more, shape.identifier.toList = first :: more ∧ first ≠ ')' := by
  induction shape using innermost.induct with
  | case1 base length ih =>
    obtain ⟨first, more, text, other⟩ := ih
    have suffixed : (array base length).identifier = base.identifier ++ arraySuffix length := rfl
    exact ⟨first, more ++ (arraySuffix length).toList, by rw [suffixed, String.toList_append, text]; rfl, other⟩
  | case2 shape isOther =>
    rw [toList_identifier]
    cases shape with
    | array base length => exact absurd rfl (isOther base length)
    | integer signed bits => cases signed <;> simp [keyword]
    | _ => simp [keyword, payload]

/-- Members are told apart, and so is what stands behind their closing parenthesis. -/
theorem membersText_unique {members members' : List Shape} {rest rest' : List Char}
    (reads : ∀ member ∈ members, member.Reads) (readable : AllReadable members) (readable' : AllReadable members')
    (same : membersText members ++ rest = membersText members' ++ rest') : members = members' ∧ rest = rest' := by
  have opens : ∀ {member : Shape} {more : List Shape} {rest rest' : List Char},
      membersText (member :: more) ++ rest ≠ ')' :: rest' := by
    intro member more rest rest' same
    obtain ⟨first, others, text, other⟩ := member.exists_identifier_cons
    cases more <;> simp_all [membersText]
  induction members generalizing members' with
  | nil =>
    cases members' with
    | nil => exact ⟨rfl, List.append_cancel_left same⟩
    | cons member' more' => exact absurd same.symm opens
  | cons member more ih =>
    cases members' with
    | nil => exact absurd same opens
    | cons member' more' =>
      obtain ⟨own, others⟩ := List.forall_mem_cons.mp reads
      obtain ⟨first, following⟩ := allReadable_cons readable
      obtain ⟨first', following'⟩ := allReadable_cons readable'
      -- behind a member stands a comma with the others, or the closing parenthesis
      let behind := fun (more : List Shape) (rest : List Char) =>
        if more.isEmpty then ')' :: rest else ',' :: (membersText more ++ rest)
      have split : ∀ (member : Shape) (more : List Shape) (rest : List Char),
          membersText (member :: more) ++ rest = member.identifier.toList ++ behind more rest := by
        intro member more rest
        cases more <;> simp [membersText, behind]
      have marked : ∀ (more : List Shape) (rest : List Char), IsBehind [',', ')'] (behind more rest) := by
        intro more rest char first
        cases more <;>
          · simp only [behind, List.isEmpty_nil, List.isEmpty_cons, if_true, Bool.false_eq_true, if_false,
              List.head?_cons, Option.mem_some_iff] at first
            simp [← first]
      rw [split, split] at same
      obtain ⟨rfl, rests⟩ := own.complete first first' (marked _ _) (marked _ _) same
      cases more with
      | nil =>
        cases more' with
        | nil => exact ⟨rfl, (List.cons.inj rests).2⟩
        | cons _ _ => exact absurd (List.cons.inj rests).1 (by decide)
      | cons next more =>
        cases more' with
        | nil => exact absurd (List.cons.inj rests).1 (by decide)
        | cons next' more' =>
          obtain ⟨members, rests'⟩ := ih others following following' (List.cons.inj rests).2
          exact ⟨by rw [members], rests'⟩

/-- A name can be told from the mark that stands behind it. -/
theorem named_unique {name name' : String} {mark : Char} {rest rest' : List Char} (isMark : isMark mark = true)
    (unmarked : ∀ char ∈ name.toList, Shape.isMark char = false)
    (unmarked' : ∀ char ∈ name'.toList, Shape.isMark char = false)
    (same : name.toList ++ mark :: rest = name'.toList ++ mark :: rest') : name = name' ∧ rest = rest' := by
  have free : ∀ {chars : List Char}, (∀ char ∈ chars, Shape.isMark char = false) → mark ∉ chars :=
    fun plain listed => absurd ((plain mark listed).symm.trans isMark) (by decide)
  obtain ⟨names, rests⟩ := Text.front_unique (free unmarked) (free unmarked') same
  exact ⟨String.toList_inj.mp names, rests⟩

/-- Behind an identifier no digit stands. -/
theorem IsBehind.no_digits {number : Nat} {rest rest' : List Char} (behind : IsBehind [',', ')', '['] rest) :
    Nat.toDigits 10 number ++ rest' ≠ rest := by
  rintro rfl
  have stops : ∀ char ∈ (Nat.toDigits 10 number ++ rest').head?, Numeral.isDigit char = false :=
    behind.stops (by decide)
  cases digits : Nat.toDigits 10 number with
  | nil => exact Nat.toDigits_ne_nil digits
  | cons digit more =>
    rw [digits] at stops
    have listed : digit ∈ Nat.toDigits 10 number := digits ▸ List.mem_cons_self
    exact absurd (stops digit rfl) (by simp [Numeral.isDigit_of_mem_toDigits listed])

/-- A value type is no array. -/
theorem innermost_of_isValueType {shape : Shape} (value : shape.isValueType = true) :
    shape.innermost = shape ∧ shape.lengths = [] := by
  cases shape <;> first | exact ⟨rfl, rfl⟩ | cases value

/-- The topics of an event can be told from what stands behind their bracket. -/
theorem topics_unique {indexed indexed' : List Bool} {rest rest' : List Char}
    (same : (indexed.map fun topic => if topic then 'i' else '_') ++ ']' :: rest =
      (indexed'.map fun topic => if topic then 'i' else '_') ++ ']' :: rest') : indexed = indexed' ∧ rest = rest' := by
  have free : ∀ indexed : List Bool, ']' ∉ indexed.map fun topic => if topic then 'i' else '_' := by
    intro indexed listed
    obtain ⟨topic, -, mark⟩ := List.mem_map.mp listed
    cases topic <;> exact absurd mark (by decide)
  obtain ⟨marks, rests⟩ := Text.front_unique (free indexed) (free indexed') same
  exact ⟨List.map_injective_iff.mpr (fun topic topic' => by cases topic <;> cases topic' <;> decide) marks, rests⟩

/-- The word for an anonymous event can be told from what stands behind an identifier. -/
theorem anonymous_unique {anonymous anonymous' : Bool} {rest rest' : List Char}
    (behind : IsBehind [',', ')', '['] rest) (behind' : IsBehind [',', ')', '['] rest')
    (same : (if anonymous then " anonymous" else "").toList ++ rest =
      (if anonymous' then " anonymous" else "").toList ++ rest') : anonymous = anonymous' ∧ rest = rest' := by
  have other : ∀ {rest rest' : List Char}, IsBehind [',', ')', '['] rest → " anonymous".toList ++ rest' ≠ rest := by
    rintro rest rest' behind rfl
    exact absurd (behind ' ' (by simp)) (by decide)
  cases anonymous <;> cases anonymous'
  · exact ⟨rfl, same⟩
  · exact absurd same.symm (other behind)
  · exact absurd same (other behind')
  · exact ⟨rfl, List.append_cancel_left same⟩

/-- The shapes that a shape other than an array is made of. -/
def components : Shape → List Shape
  | .userDefined _ underlying => [underlying]
  | .struct _ members => members
  | .tuple members => members
  | .function parameters returns => parameters ++ returns
  | .error _ parameters => parameters
  | .event _ parameters _ _ => parameters
  | _ => []

/-- A shape that is no array can be told from what stands behind it, if its parts can. -/
theorem plain_unique {shape shape' : Shape} {rest rest' : List Char} (plain : shape.isArray = false)
    (plain' : shape'.isArray = false) (parts : ∀ part ∈ shape.components, part.Reads) (readable : shape.Readable)
    (readable' : shape'.Readable) (behind : IsBehind [',', ')', '['] rest) (behind' : IsBehind [',', ')', '['] rest')
    (same : shape.identifier.toList ++ rest = shape'.identifier.toList ++ rest') : shape = shape' ∧ rest = rest' := by
  obtain ⟨keywords, payloads⟩ := keyword_unique plain plain' behind behind' same
  -- shapes of different kinds have different keywords, apart from byte strings
  cases shape <;> cases shape' <;>
    try (simp [keyword, isArray, ite_eq_iff, eq_ite_iff] at plain plain' keywords; done)
  all_goals
    simp only [payload, List.nil_append, List.cons_append, List.append_assoc, List.cons.injEq, true_and] at payloads
  case bool.bool | address.address | bytes.bytes | string.string => exact ⟨rfl, payloads⟩
  case fixedBytes.bytes => exact absurd payloads behind'.no_digits
  case bytes.fixedBytes => exact absurd payloads.symm behind.no_digits
  case fixedBytes.fixedBytes size size' =>
    obtain ⟨rfl, rests⟩ := Numeral.toDigits_unique (behind.stops (by decide)) (behind'.stops (by decide)) payloads
    exact ⟨rfl, rests⟩
  case integer.integer signed bits signed' bits' =>
    obtain ⟨rfl, rests⟩ := Numeral.toDigits_unique (behind.stops (by decide)) (behind'.stops (by decide)) payloads
    have signs : signed = signed' := by cases signed <;> cases signed' <;> simp [keyword] at keywords ⊢
    exact ⟨by rw [signs], rests⟩
  case enumeration.enumeration name count name' count' =>
    obtain ⟨rfl, counts⟩ := named_unique (by decide) (readable.2 name (by simp [names]))
      (readable'.2 name' (by simp [names])) payloads
    obtain ⟨rfl, rests⟩ := Numeral.toDigits_unique (behind.stops (by decide)) (behind'.stops (by decide)) counts
    exact ⟨rfl, rests⟩
  all_goals simp only [Readable, isLegal, names, unmarked_cons, unmarked_append, Bool.and_eq_true] at readable readable'
  case userDefined.userDefined name underlying name' underlying' =>
    obtain ⟨⟨value, legal⟩, own, inner⟩ := readable
    obtain ⟨⟨value', legal'⟩, own', inner'⟩ := readable'
    obtain ⟨rfl, followed⟩ := named_unique (by decide) own own' payloads
    obtain ⟨elements, suffixes⟩ := (parts underlying List.mem_cons_self).tells ⟨legal, inner⟩ ⟨legal', inner'⟩ behind
      behind' followed
    obtain ⟨same, none⟩ := innermost_of_isValueType value
    obtain ⟨same', none'⟩ := innermost_of_isValueType value'
    rw [same, same'] at elements
    rw [none, none'] at suffixes
    exact ⟨by rw [elements], suffixes⟩
  case struct.struct name members name' members' | error.error name members name' members' =>
    obtain ⟨legal, own, inner⟩ := readable
    obtain ⟨legal', own', inner'⟩ := readable'
    obtain ⟨rfl, followed⟩ := named_unique (by decide) own own' payloads
    obtain ⟨rfl, rests⟩ := membersText_unique parts ⟨legal, inner⟩ ⟨legal', inner'⟩ followed
    exact ⟨rfl, rests⟩
  case tuple.tuple members members' =>
    exact (membersText_unique parts readable readable' payloads).imp_left (congrArg _)
  case function.function parameters returns parameters' returns' =>
    obtain ⟨⟨legal, legal'⟩, inner, inner'⟩ := readable
    obtain ⟨⟨other, other'⟩, within, within'⟩ := readable'
    obtain ⟨own, others⟩ := List.forall_mem_append.mp parts
    obtain ⟨rfl, followed⟩ := membersText_unique own ⟨legal, inner⟩ ⟨other, within⟩ payloads
    obtain ⟨rfl, rests⟩ := membersText_unique others ⟨legal', inner'⟩ ⟨other', within'⟩ (List.cons.inj followed).2
    exact ⟨rfl, rests⟩
  case event.event name parameters indexed anonymous name' parameters' indexed' anonymous' =>
    obtain ⟨legal, own, inner⟩ := readable
    obtain ⟨legal', own', inner'⟩ := readable'
    obtain ⟨rfl, followed⟩ := named_unique (by decide) own own' payloads
    obtain ⟨rfl, marks⟩ := membersText_unique parts ⟨legal, inner⟩ ⟨legal', inner'⟩ followed
    obtain ⟨rfl, ends⟩ := topics_unique (List.cons.inj marks).2
    obtain ⟨rfl, rests⟩ := anonymous_unique behind behind' ends
    exact ⟨rfl, rests⟩

/-- The identifier of a shape that is no array tells what it is, if those of its parts do. -/
theorem Reads.plain {shape : Shape} (plain : shape.isArray = false) (parts : ∀ part ∈ shape.components, part.Reads) :
    shape.Reads := by
  refine ⟨fun {shape' rest rest'} readable readable' behind behind' same => ?_⟩
  obtain ⟨-, plain', -, -⟩ := shape'.innermost_spec
  have opens : IsBehind [',', ')', '['] (suffixText shape'.lengths ++ rest') := by
    cases lengths : shape'.lengths with
    | nil => exact behind'
    | cons length more => simp [IsBehind, suffixText]
  rw [toList_identifier_innermost shape', List.append_assoc] at same
  have own : shape.innermost = shape ∧ shape.lengths = [] := by
    cases shape <;> first | exact ⟨rfl, rfl⟩ | cases plain
  rw [own.1, own.2]
  exact plain_unique plain plain' parts readable readable'.innermost behind opens same

/-- The identifier of an array tells what its innermost elements are, if that of its elements does. -/
theorem Reads.array {base : Shape} (length : Option Nat) (reads : base.Reads) : (array base length).Reads := by
  refine ⟨fun {shape' rest rest'} readable readable' behind behind' same => ?_⟩
  have suffixed : (Shape.array base length).identifier = base.identifier ++ arraySuffix length := rfl
  rw [suffixed, String.toList_append, toList_arraySuffix, List.append_assoc] at same
  have split : suffixText (Shape.array base length).lengths ++ rest =
      suffixText base.lengths ++ (suffixText [length] ++ rest) := by
    rw [lengths, suffixText, suffixText, suffixText, List.flatMap_append, List.append_assoc]
  rw [split]
  have legal : base.Readable := ⟨(isLegal_array.mp readable.1).2.1, readable.2⟩
  exact reads.tells legal readable' (by simp [IsBehind, suffixText]) behind' same

mutual
/-- The identifier of every shape tells what its innermost elements are. -/
theorem reads (shape : Shape) : shape.Reads := by
  cases shape with
  | array base length => exact .array length (reads base)
  | userDefined name underlying => exact .plain rfl (List.forall_mem_singleton.mpr (reads underlying))
  | struct _ parts | tuple parts | error _ parts | event _ parts _ _ => exact .plain rfl (readsAll parts)
  | function parameters returns =>
    exact .plain rfl (List.forall_mem_append.mpr ⟨readsAll parameters, readsAll returns⟩)
  | _ => exact .plain rfl nofun
/-- So do the identifiers of several shapes. -/
theorem readsAll (shapes : List Shape) : ∀ shape ∈ shapes, shape.Reads := by
  cases shapes with
  | nil => exact nofun
  | cons shape rest => exact List.forall_mem_cons.mpr ⟨reads shape, readsAll rest⟩
end

/-- Legal shapes whose names hold no marks are the same if their identifiers are. -/
theorem identifier_injOn {shape shape' : Shape} (readable : shape.Readable) (readable' : shape'.Readable)
    (same : shape.identifier = shape'.identifier) : shape = shape' := by
  have texts : shape.identifier.toList ++ [] = shape'.identifier.toList ++ [] := by rw [same]
  have alone : IsBehind [',', ')'] [] := nofun
  exact (shape.reads.complete readable readable' alone alone texts).1

end YulAbi.Shape
