import YulAbi.Proofs.Interface.SourceType
import YulAbi.Proofs.Interface.TypeString

/-!
# Reading parameters back

What the compiler writes for a parameter is read as the description of its source type. The type string and
the annotation lose the same suffix with every array, and the components belong to what is left. The keyword of
an elementary type is read as that type, and an annotation changes it exactly when it names a declared type.
-/

namespace YulAbi.Interface

/-- The characters of the keyword of an integer type. -/
theorem toList_integerText (signed : Bool) (bits : Nat) : (Shape.integerText signed bits).toList =
    (if signed then "int" else "uint").toList ++ Nat.toDigits 10 bits := by
  simp [Shape.integerText, toString]

/-- The characters of the keyword of a fixed byte string. -/
theorem toList_bytesText (size : Nat) : s!"bytes{size}".toList = "bytes".toList ++ Nat.toDigits 10 size := by
  simp [toString]

/-- A width in bits is read. -/
theorem readWidth?_toDigits (bytes : ByteCount) :
    readWidth? (Nat.toDigits 10 (8 * bytes.val)) = some (8 * bytes.val) := by
  obtain ⟨count, positive, small⟩ := bytes
  have read : Numeral.read? 65535 (Nat.toDigits 10 (8 * count)) = some (8 * count) :=
    Numeral.read?_toDigits (by omega)
  have legal : 8 ≤ 8 * count ∧ 8 * count ≤ 256 ∧ 8 * count % 8 = 0 := by omega
  rw [readWidth?, read, Option.filter_some, if_pos (decide_eq_true legal)]

/-- A size in bytes is read. -/
theorem readSize?_toDigits (size : ByteCount) : readSize? (Nat.toDigits 10 size.val) = some size.val := by
  obtain ⟨count, positive, small⟩ := size
  have read : Numeral.read? 255 (Nat.toDigits 10 count) = some count := Numeral.read?_toDigits (by omega)
  rw [readSize?, read, Option.filter_some, if_pos (decide_eq_true ⟨positive, small⟩)]

/-- A text that ends with a number. -/
def IsNumbered (name : String) : Prop := ∃ front number, name.toList = front ++ Nat.toDigits 10 number

/-- A text that ends with a number is none that ends with another character than a digit. -/
theorem IsNumbered.ne {name other : String} (numbered : IsNumbered name)
    (ends : other.toList.getLast?.all (fun char => !Numeral.isDigit char) = true) : name ≠ other := by
  rintro rfl
  obtain ⟨front, number, parts⟩ := numbered
  have digit : Numeral.isDigit ((Nat.toDigits 10 number).getLast Nat.toDigits_ne_nil) = true :=
    Numeral.isDigit_of_mem_toDigits (List.getLast_mem _)
  rw [parts, List.getLast?_append_of_ne_nil _ Nat.toDigits_ne_nil,
    List.getLast?_eq_some_getLast Nat.toDigits_ne_nil, Option.all_some, digit] at ends
  cases ends

/-- A text that ends with a number is no keyword by itself. -/
theorem IsNumbered.namedType? {name : String} (numbered : IsNumbered name) : namedType? name = none := by
  rw [Interface.namedType?, if_neg (numbered.ne rfl), if_neg (numbered.ne rfl), if_neg (numbered.ne rfl),
    if_neg (numbered.ne rfl), if_neg (numbered.ne rfl), if_neg (numbered.ne rfl), if_neg (numbered.ne rfl)]

/-- The keyword of an elementary type is a keyword by itself or one with a number. -/
theorem ElementaryType.read_text (type : ElementaryType) : namedType? type.text = some type.description ∨
    IsNumbered type.text ∧ numberedType type.text = .ok type.description := by
  cases type with
  | bytes | string => exact .inl rfl
  | value type =>
    cases type with
    | bool | address => exact .inl rfl
    | integer signed width =>
      have text := toList_integerText signed (8 * width.val)
      refine .inr ⟨⟨_, _, text⟩, ?_⟩
      cases signed with
      | false =>
        have digits := dropFront?_eq_some.mpr text
        simp only [Bool.false_eq_true, if_false] at digits
        simp only [numberedType, ElementaryType.text, ValueType.text, digits, readWidth?_toDigits]
        rfl
      | true =>
        have digits := dropFront?_eq_some.mpr text
        have other : dropFront? "uint".toList (Shape.integerText true (8 * width.val)).toList = none := by
          rw [text]
          rfl
        simp only [if_true] at digits
        simp only [numberedType, ElementaryType.text, ValueType.text, other, digits, readWidth?_toDigits]
        rfl
    | fixedBytes size =>
      have text := toList_bytesText size.val
      refine .inr ⟨⟨_, _, text⟩, ?_⟩
      have digits := dropFront?_eq_some.mpr text
      have other : dropFront? "uint".toList s!"bytes{size.val}".toList = none := by
        rw [text]
        rfl
      have other' : dropFront? "int".toList s!"bytes{size.val}".toList = none := by
        rw [text]
        rfl
      simp only [numberedType, ElementaryType.text, ValueType.text, other, other', digits, readSize?_toDigits]
      rfl

/-- The keyword of an elementary type consists of letters and digits. -/
theorem ElementaryType.isPlain_of_mem_text (type : ElementaryType) :
    ∀ char ∈ type.text.toList, Identifier.isPlain char = true := by
  have digits : ∀ (keyword : String) (number : Nat), keyword.toList.all Identifier.isPlain = true →
      ∀ char ∈ keyword.toList ++ Nat.toDigits 10 number, Identifier.isPlain char = true := by
    intro keyword number plain char listed
    rcases List.mem_append.mp listed with letter | digit
    · exact List.all_eq_true.mp plain char letter
    · simp [Identifier.isPlain, Numeral.isDigit_of_mem_toDigits digit]
  cases type with
  | bytes | string => exact List.all_eq_true.mp rfl
  | value type =>
    cases type with
    | bool | address => exact List.all_eq_true.mp rfl
    | integer signed width =>
      rw [ElementaryType.text, ValueType.text, toList_integerText]
      cases signed
      · exact digits "uint" _ rfl
      · exact digits "int" _ rfl
    | fixedBytes size =>
      rw [ElementaryType.text, ValueType.text, toList_bytesText]
      exact digits "bytes" _ rfl

/-- Suffixes hold no blanks. -/
theorem isBlank_of_mem_suffixed {base : String} (free : ∀ char ∈ base.toList, Text.isBlank char = false)
    (length : Option ArrayLength) :
    ∀ char ∈ (base ++ SourceType.suffix length).toList, Text.isBlank char = false := by
  intro char listed
  rw [String.toList_append, SourceType.suffix, suffix_eq] at listed
  rcases List.mem_append.mp listed with front | suffix
  · exact free char front
  · rcases List.mem_cons.mp suffix with rfl | inside
    · rfl
    · rcases List.mem_append.mp inside with digit | last
      · exact Text.isBlank_of_isPlain (by simp [Identifier.isPlain, isDigit_of_mem_lengthText digit])
      · rw [List.mem_singleton.mp last]
        rfl

/-- The elements of an array have a shorter type string. -/
theorem shorter_of_suffixed {base : String} {length : Option ArrayLength} {fuel : Nat}
    (enough : (base ++ SourceType.suffix length).toList.length < fuel + 1) : base.toList.length < fuel := by
  rw [String.toList_append, List.length_append, SourceType.suffix, suffix_eq, List.length_cons] at enough
  omega

/-- Type strings hold no blanks. -/
theorem SourceType.isBlank_of_mem_typeText (source : SourceType) :
    ∀ char ∈ source.typeText.toList, Text.isBlank char = false := by
  match source with
  | .elementary type _ => exact fun char listed => Text.isBlank_of_isPlain (type.isPlain_of_mem_text char listed)
  | .userDefined _ _ underlying =>
    exact fun char listed => Text.isBlank_of_isPlain ((ElementaryType.value underlying).isPlain_of_mem_text char listed)
  | .payableAddress | .contract _ | .enumeration .. | .struct .. | .tuple .. =>
    rw [typeText]
    exact fun char listed => Text.isBlank_of_isPlain (List.all_eq_true.mp rfl char listed)
  | .array base length => exact isBlank_of_mem_suffixed base.isBlank_of_mem_typeText length

section

variable (fuel : Nat) (given : Bool) (members : Except TypeStringError (List (Member Description)))
  (internalType : Option String)

/-- The keyword of an elementary type is read as that type, with what the annotation makes of it. -/
theorem ElementaryType.parseWithin_text (type : ElementaryType) :
    parseWithin (fuel + 1) type.text.toList given members internalType =
      .ok (annotate type.description type.text internalType) := by
  have plain := type.isPlain_of_mem_text
  have unsuffixed : type.text.toList.getLast? ≠ some ']' := fun last =>
    absurd (plain ']' (List.mem_of_getLast? last)) (by decide)
  rw [parseWithin, Text.trimBlanks_of_free fun char listed => Text.isBlank_of_isPlain (plain char listed)]
  simp only [if_neg unsuffixed, String.ofList_toList]
  rcases type.read_text with named | ⟨numbered, read⟩
  · rw [named]
  · rw [numbered.namedType?, if_neg (numbered.ne rfl), read]
    rfl

/-- The type string of an address is read as an address, with what the annotation makes of it. -/
theorem parseWithin_address :
    parseWithin (fuel + 1) "address".toList given members internalType =
      .ok (annotate .address "address" internalType) :=
  (ElementaryType.value .address).parseWithin_text fuel given members internalType

/-- The type string of an enumeration is read as that of an integer. -/
theorem parseWithin_uint8 :
    parseWithin (fuel + 1) "uint8".toList given members internalType =
      .ok (annotate (.uint 8) "uint8" internalType) := by
  let byte : ElementaryType := .value (.integer false ⟨1, by decide⟩)
  have text : byte.text = "uint8" := by decide
  have read := byte.parseWithin_text fuel given members internalType
  rwa [text] at read

/-- The type string of a tuple is read as the tuple of its components, with what the annotation makes of it. -/
theorem parseWithin_tuple (components : List (Member Description)) :
    parseWithin (fuel + 1) "tuple".toList true (.ok components) internalType =
      .ok (ofComponents components internalType) :=
  rfl

/-- The type string of an array is read as an array of what its elements are read as. -/
theorem parseWithin_array {base : String} (free : ∀ char ∈ base.toList, Text.isBlank char = false)
    (length : Option ArrayLength) :
    parseWithin (fuel + 1) (base ++ SourceType.suffix length).toList given members
        (internalType.map (· ++ SourceType.suffix length)) =
      (parseWithin fuel base.toList given members internalType).map (.array · (length.map Subtype.val)) := by
  have closed : (base ++ SourceType.suffix length).toList.getLast? = some ']' := by
    rw [String.toList_append, SourceType.suffix, suffix_eq, ← List.cons_append, ← List.append_assoc,
      List.getLast?_concat]
  have read : readLength? (((SourceType.suffix length).toList.drop 1).dropLast) = some (length.map Subtype.val) := by
    refine readLength?_arraySuffix fun count listed => ?_
    obtain ⟨own, -, rfl⟩ := Option.map_eq_some_iff.mp listed
    exact own.property
  have inner : ((internalType.map (· ++ SourceType.suffix length)).bind fun internal =>
      (dropBack? (SourceType.suffix length).toList internal.toList).map String.ofList) = internalType := by
    cases internalType with
    | none => rfl
    | some internal => simp [dropBack?_append]
  rw [parseWithin, Text.trimBlanks_of_free (isBlank_of_mem_suffixed free length)]
  simp only [if_pos closed]
  rw [String.toList_append, SourceType.suffix, splitSuffix?_arraySuffix, ← SourceType.suffix]
  simp only [read, inner]
  cases parseWithin fuel base.toList given members internalType <;> rfl

end

/-- The characters of a declared name are those of identifiers. -/
theorem DeclaredName.chars (name : DeclaredName) :
    name.val.toList ≠ [] ∧ ∀ char ∈ name.val.toList, Identifier.isPlain char = true ∨ char = '$' := by
  have identifier := (Bool.and_eq_true_iff.mp name.property).1
  unfold isIdentifier at identifier
  split at identifier
  · cases identifier
  · rename_i first rest own
    rw [own]
    refine ⟨List.cons_ne_nil _ _, fun char listed => ?_⟩
    simpa using List.all_eq_true.mp (Bool.and_eq_true_iff.mp identifier).2 char listed

/-- Declared names hold no blanks. -/
theorem DeclaredName.isBlank_of_mem (name : DeclaredName) : ∀ char ∈ name.val.toList, Text.isBlank char = false := by
  intro char listed
  rcases (DeclaredName.chars name).2 char listed with plain | rfl
  · exact Text.isBlank_of_isPlain plain
  · rfl

/-- Declared names hold no dots. -/
theorem DeclaredName.dot_notMem (name : DeclaredName) : '.' ∉ name.val.toList := by
  intro listed
  rcases (DeclaredName.chars name).2 '.' listed with plain | same
  · exact absurd plain (by decide)
  · exact absurd same (by decide)

/-- The last segment of a qualified name is the name. -/
theorem lastSegment_qualified (scope : Option DeclaredName) (name : DeclaredName) :
    lastSegment (qualified scope name).toList = name.val := by
  cases scope with
  | none => exact lastSegment_of_free (DeclaredName.dot_notMem name)
  | some scope =>
    rw [qualified, String.toList_append, String.toList_append, List.append_assoc]
    exact lastSegment_append (DeclaredName.dot_notMem name) _

/-- Qualified names hold no blanks. -/
theorem isBlank_of_mem_qualified (scope : Option DeclaredName) (name : DeclaredName) :
    ∀ char ∈ (qualified scope name).toList, Text.isBlank char = false := by
  cases scope with
  | none => exact DeclaredName.isBlank_of_mem name
  | some scope =>
    intro char listed
    rw [qualified, String.toList_append, String.toList_append, List.mem_append, List.mem_append] at listed
    rcases listed with (front | dot) | own
    · exact DeclaredName.isBlank_of_mem scope char front
    · rw [List.mem_singleton.mp dot]
      rfl
    · exact DeclaredName.isBlank_of_mem name char own

/-- Keywords of elementary types may not be declared. -/
theorem ElementaryType.text_mem_typeKeywords (type : ElementaryType) : type.text ∈ typeKeywords := by
  have numbered : ∀ (size : ByteCount) (keyword : String),
      keyword ∈ [Shape.integerText false (8 * size.val), Shape.integerText true (8 * size.val), s!"bytes{size.val}"] →
      keyword ∈ typeKeywords := by
    intro size keyword listed
    obtain ⟨count, positive, small⟩ := size
    refine List.mem_append_right _ (List.mem_flatMap.mpr ⟨count - 1, List.mem_range.mpr (by omega), ?_⟩)
    rwa [Nat.sub_add_cancel positive]
  have plain : ∀ keyword ∈ ["bool", "address", "string", "bytes"], keyword ∈ typeKeywords := by
    intro keyword listed
    exact List.mem_append_left _ (List.mem_append_left ["uint", "int", "function"] listed)
  cases type with
  | bytes => exact plain "bytes" (by simp)
  | string => exact plain "string" (by simp)
  | value type =>
    cases type with
    | bool => exact plain "bool" (by simp)
    | address => exact plain "address" (by simp)
    | integer signed width => exact numbered width _ (by cases signed <;> simp [ElementaryType.text, ValueType.text])
    | fixedBytes size => exact numbered size _ (by simp [ElementaryType.text, ValueType.text])

/-- Qualified names are no keywords of elementary types. -/
theorem qualified_ne_text (scope : Option DeclaredName) (name : DeclaredName) (type : ElementaryType) :
    qualified scope name ≠ type.text := by
  intro same
  cases scope with
  | none =>
    have free := (Bool.and_eq_true_iff.mp name.property).2
    rw [show name.val = type.text from same, List.contains_iff_mem.mpr type.text_mem_typeKeywords] at free
    cases free
  | some scope =>
    have dot : '.' ∈ type.text.toList := by rw [← same]; simp [qualified]
    exact absurd (type.isPlain_of_mem_text '.' dot) (by decide)

/-- An elementary type that is annotated with itself stays. -/
theorem annotate_self (type : ElementaryType) (annotated : Bool) :
    annotate type.description type.text (if annotated then some type.text else none) = type.description := by
  cases annotated
  · rfl
  · rw [if_pos rfl, annotate, if_pos (.inl rfl)]

/-- Elementary types are elementary. -/
theorem ElementaryType.isElementary_description (type : ElementaryType) :
    type.description.isElementary = true := by
  cases type with
  | bytes | string => rfl
  | value type =>
    cases type with
    | integer signed _ => cases signed <;> rfl
    | _ => rfl

/-- The address of a contract is an address. -/
theorem annotate_contract (name : String) : annotate .address "address" (some ("contract " ++ name)) = .address := by
  have marked : ("contract " ++ name).toList = "contract ".toList ++ name.toList := String.toList_append
  have other : dropFront? "enum ".toList ("contract " ++ name).toList = none := by
    rw [marked]
    rfl
  have kept : (dropFront? "contract ".toList ("contract " ++ name).toList).isSome := by
    rw [dropFront?_eq_some.mpr marked]
    rfl
  simp only [annotate, other, kept, true_or, if_true, ite_self]

/-- An annotation with an enumeration makes an enumeration of an integer. -/
theorem annotate_enumeration (scope : Option DeclaredName) (name : DeclaredName) :
    annotate (.uint 8) "uint8" (some ("enum " ++ qualified scope name)) = .enumeration name.val [] := by
  have marked : ("enum " ++ qualified scope name).toList = "enum ".toList ++ (qualified scope name).toList :=
    String.toList_append
  have other : "enum " ++ qualified scope name ≠ "uint8" := fun same => by
    have blank : ' ' ∈ ("enum " ++ qualified scope name).toList := by simp
    rw [same] at blank
    exact absurd blank (by decide)
  have changed : ¬("enum " ++ qualified scope name = "uint8" ∨ (Description.uint 8).isElementary = false) := by
    simp [other, Description.isElementary]
  rw [annotate, if_neg changed, dropFront?_eq_some.mpr marked]
  exact congrArg (Description.enumeration · []) (lastSegment_qualified scope name)

/-- An annotation with a name makes a user-defined type of an elementary one. -/
theorem annotate_qualified (scope : Option DeclaredName) (name : DeclaredName) (type : ElementaryType) :
    annotate type.description type.text (some (qualified scope name)) = .userDefined name.val type.description := by
  have free := isBlank_of_mem_qualified scope name
  have other := qualified_ne_text scope name type
  have blankless : ' ' ∉ (qualified scope name).toList := fun listed => nomatch free ' ' listed
  have filled : (qualified scope name).toList ≠ [] := by
    cases scope with
    | none => exact (DeclaredName.chars name).1
    | some scope => simp [qualified]
  rw [annotate, if_neg (by simp [other, type.isElementary_description]), dropFront?_eq_none (by decide) blankless,
    dropFront?_eq_none (by decide) blankless, dropFront?_eq_none (by decide) blankless]
  simp only [Option.isSome_none, Bool.false_eq_true, or_self, if_false]
  rw [Text.firstBlankFreeRun?_of_free free filled, if_neg fun same => other (Option.some.inj same),
    lastSegment_qualified]

/-- An annotation with a struct gives a tuple its name. -/
theorem ofComponents_qualified (members : List (Member Description)) (scope : Option DeclaredName)
    (name : DeclaredName) :
    ofComponents members (some ("struct " ++ qualified scope name)) = .struct name.val members := by
  have marked : ("struct " ++ qualified scope name).toList = "struct ".toList ++ (qualified scope name).toList :=
    String.toList_append
  rw [ofComponents, Option.bind_some, dropFront?_eq_some.mpr marked]
  exact congrArg (Description.struct · members) (lastSegment_qualified scope name)

/-- A tuple that is annotated with itself stays. -/
theorem ofComponents_self (members : List (Member Description)) (annotated : Bool) :
    ofComponents members (if annotated then some "tuple" else none) = .tuple members := by
  cases annotated <;> rfl

/-- Composites have components. -/
theorem SourceMembers.isEmpty_parameters (members : SourceMembers) : members.parameters.isEmpty = false := by
  cases members <;> rw [SourceMembers.parameters] <;> rfl

/-- The address of an account that takes value is an address. -/
theorem annotate_payable : annotate .address "address" (some "address payable") = .address := rfl

mutual
/-- The type string of a source type is read back with its components and its annotation. The induction is on
the type: an array leaves components and annotation to its elements. -/
theorem SourceType.parseWithin_eq (source : SourceType) {fuel : Nat} (enough : source.typeText.toList.length < fuel) :
    parseWithin fuel source.typeText.toList (!source.components.isEmpty) (describeMembers source.components)
      source.internalType = .ok source.description := by
  obtain ⟨fuel, rfl⟩ := Nat.exists_eq_succ_of_ne_zero (Nat.ne_of_gt (Nat.zero_lt_of_lt enough))
  match source with
  | .elementary type annotated =>
    rw [SourceType.typeText, SourceType.internalType, SourceType.description, type.parseWithin_text, annotate_self]
  | .payableAddress =>
    rw [SourceType.typeText, SourceType.internalType, SourceType.description, parseWithin_address, annotate_payable]
  | .contract name =>
    rw [SourceType.typeText, SourceType.internalType, SourceType.description, parseWithin_address, annotate_contract]
  | .enumeration scope name =>
    rw [SourceType.typeText, SourceType.internalType, SourceType.description, parseWithin_uint8, annotate_enumeration]
  | .userDefined scope name underlying =>
    rw [SourceType.typeText, SourceType.internalType, SourceType.description]
    exact ((ElementaryType.value underlying).parseWithin_text fuel _ _ _).trans
      (congrArg Except.ok (annotate_qualified scope name (.value underlying)))
  | .struct scope name members =>
    rw [SourceType.typeText, SourceType.components, SourceType.internalType, SourceType.description,
      members.describeMembers_eq, members.isEmpty_parameters, Bool.not_false, parseWithin_tuple, ofComponents_qualified]
  | .tuple annotated members =>
    rw [SourceType.typeText, SourceType.components, SourceType.internalType, SourceType.description,
      members.describeMembers_eq, members.isEmpty_parameters, Bool.not_false, parseWithin_tuple, ofComponents_self]
  | .array base length =>
    -- type string and annotation lose the same suffix
    rw [SourceType.typeText] at enough ⊢
    rw [SourceType.components, SourceType.internalType, SourceType.description,
      parseWithin_array _ _ _ _ base.isBlank_of_mem_typeText, base.parseWithin_eq (shorter_of_suffixed enough)]
    rfl
/-- The members of a source type are read back. -/
theorem SourceMembers.describeMembers_eq (members : SourceMembers) :
    describeMembers members.parameters = .ok members.descriptions := by
  match members with
  | .last name type =>
    rw [SourceMembers.parameters, describeMembers, Parameter.describe, type.parseWithin_eq (Nat.lt_succ_self _)]
    rfl
  | .more name type rest =>
    rw [SourceMembers.parameters, describeMembers, Parameter.describe, type.parseWithin_eq (Nat.lt_succ_self _),
      rest.describeMembers_eq]
    rfl
end

/-- A legal width in bits is a whole number of bytes. -/
theorem exists_width {bits : Nat} (legal : (8 ≤ bits && bits ≤ 256 && bits % 8 == 0) = true) :
    ∃ width : ByteCount, 8 * width.val = bits := by
  simp only [Bool.and_eq_true, decide_eq_true_eq, beq_iff_eq] at legal
  obtain ⟨⟨least, most⟩, whole⟩ := legal
  exact ⟨⟨bits / 8, by omega⟩, Nat.mul_div_cancel' (Nat.dvd_of_mod_eq_zero whole)⟩

/-- Every expressible type whose values fit a word is that of a source. -/
theorem exists_value {description : Description} (value : description.isValue = true)
    (expressible : description.isExpressible = true) : ∃ type : ValueType, type.description = description := by
  cases description with
  | bool => exact ⟨.bool, rfl⟩
  | address => exact ⟨.address, rfl⟩
  | uint bits =>
    obtain ⟨width, rfl⟩ := exists_width expressible
    exact ⟨.integer false width, rfl⟩
  | int bits =>
    obtain ⟨width, rfl⟩ := exists_width expressible
    exact ⟨.integer true width, rfl⟩
  | fixedBytes size =>
    simp only [Description.isExpressible, Bool.and_eq_true, decide_eq_true_eq] at expressible
    exact ⟨.fixedBytes ⟨size, expressible⟩, rfl⟩
  | _ => cases value

/-- A legal length is that of a source. -/
theorem exists_length {length : Option Nat}
    (legal : (length.all fun count => 0 < count && count ≤ 0xffffffffffffffff) = true) :
    ∃ own : Option ArrayLength, own.map Subtype.val = length := by
  cases length with
  | none => exact ⟨none, rfl⟩
  | some count =>
    simp only [Option.all_some, Bool.and_eq_true, decide_eq_true_eq] at legal
    exact ⟨some ⟨count, legal⟩, rfl⟩

mutual
/-- Every expressible type is that of a source. -/
theorem exists_source {description : Description} (expressible : description.isExpressible = true) :
    ∃ source : SourceType, source.description = description := by
  have value : description.isValue = true → ∃ source : SourceType, source.description = description := by
    intro value
    obtain ⟨type, same⟩ := exists_value value expressible
    exact ⟨.elementary (.value type) false, same⟩
  cases description with
  | bool | address | uint _ | int _ | fixedBytes _ => exact value rfl
  | bytes => exact ⟨.elementary .bytes false, rfl⟩
  | string => exact ⟨.elementary .string false, rfl⟩
  | enumeration name members =>
    simp only [Description.isExpressible, Bool.and_eq_true, List.isEmpty_iff] at expressible
    obtain ⟨declarable, rfl⟩ := expressible
    exact ⟨.enumeration none ⟨name, declarable⟩, rfl⟩
  | userDefined name underlying =>
    simp only [Description.isExpressible, Bool.and_eq_true] at expressible
    obtain ⟨⟨declarable, value⟩, legal⟩ := expressible
    obtain ⟨type, rfl⟩ := exists_value value legal
    exact ⟨.userDefined none ⟨name, declarable⟩ type, rfl⟩
  | array base length =>
    simp only [Description.isExpressible, Bool.and_eq_true] at expressible
    obtain ⟨source, rfl⟩ := exists_source expressible.1
    obtain ⟨own, rfl⟩ := exists_length expressible.2
    exact ⟨.array source own, rfl⟩
  | struct name members =>
    simp only [Description.isExpressible, Bool.and_eq_true, Bool.not_eq_true', List.isEmpty_eq_false_iff] at expressible
    obtain ⟨sources, rfl⟩ := exists_members expressible.1.2 expressible.2
    exact ⟨.struct none ⟨name, expressible.1.1⟩ sources, rfl⟩
  | tuple members =>
    simp only [Description.isExpressible, Bool.and_eq_true, Bool.not_eq_true', List.isEmpty_eq_false_iff] at expressible
    obtain ⟨sources, rfl⟩ := exists_members expressible.1 expressible.2
    exact ⟨.tuple false sources, rfl⟩
  | function _ _ _ _ | error _ _ | event _ _ _ => cases expressible
/-- Expressible members are those of a source. -/
theorem exists_members {members : List (Member Description)} (filled : members ≠ [])
    (expressible : Description.areExpressible members = true) :
    ∃ sources : SourceMembers, sources.descriptions = members := by
  match members with
  | [] => exact absurd rfl filled
  | ⟨name, type⟩ :: rest =>
    simp only [Description.areExpressible, Bool.and_eq_true] at expressible
    obtain ⟨source, rfl⟩ := exists_source expressible.1
    match rest with
    | [] => exact ⟨.last name source, rfl⟩
    | next :: more =>
      obtain ⟨sources, same⟩ := exists_members (List.cons_ne_nil next more) expressible.2
      exact ⟨.more name source sources, by rw [SourceMembers.descriptions, same]⟩
end

/-- Every type that a source may have is written by the compiler, and whatever the compiler writes for it, with any
qualifications and any optional annotations, is read back as that type. -/
theorem parameters_read_back {description : Description} (expressible : description.isExpressible = true) :
    (∃ source : SourceType, source.description = description) ∧
      ∀ source : SourceType, source.description = description →
        parseTypeString source.typeText source.components source.internalType = .ok description := by
  refine ⟨exists_source expressible, ?_⟩
  rintro source rfl
  exact source.parseWithin_eq (Nat.lt_succ_self _)

/-- Lists of pairs of orders, which a library declares with an enumeration and a type for prices. -/
def orders : SourceType :=
  .array (.array (.struct (some ⟨"Market", by decide⟩) ⟨"Order", by decide⟩
    (.more "maker" .payableAddress
      (.more "price" (.userDefined (some ⟨"Market", by decide⟩) ⟨"Price", by decide⟩ (.integer false ⟨12, by decide⟩))
        (.last "kinds" (.array (.enumeration none ⟨"Kind", by decide⟩) (some ⟨3, by decide⟩))))))
    (some ⟨2, by decide⟩)) none

/-- A list of pairs of structs, some of whose members have declared types, is read back. -/
theorem orders_read_back :
    orders.description.isExpressible = true ∧ orders.typeText = "tuple[2][]" ∧
      orders.internalType = some "struct Market.Order[2][]" ∧
      parseTypeString "tuple[2][]" orders.components (some "struct Market.Order[2][]") = .ok orders.description := by
  have expressible : orders.description.isExpressible = true := by decide +kernel
  exact ⟨expressible, rfl, rfl, (parameters_read_back expressible).2 orders rfl⟩

end YulAbi.Interface
