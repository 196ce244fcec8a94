import Mathlib.Data.List.Nodup
import YulAbi.Description.Document

/-!
# Written descriptions are read back

A description is written with all of its fields, or briefly: a field that has a default is left
out where it has it. Both forms are written by one function, field by field, and a record that is
written by fields is read back as these fields. So either form is read as the description that it
was written for, as long as all numbers fit the width of their fields.
-/

namespace YulAbi

namespace Document

/-- The value of a field is nested no deeper than the deepest one. -/
theorem depth_le_depthOfFields {entries : List (String × Document)} {entry : String × Document}
    (listed : entry ∈ entries) : entry.2.depth ≤ depthOfFields entries := by
  induction entries with
  | nil => cases listed
  | cons first rest ih =>
    rcases List.mem_cons.mp listed with rfl | behind
    · exact Nat.le_max_left _ _
    · exact Nat.le_trans (ih behind) (Nat.le_max_right _ _)

/-- Those of some named fields that are there. -/
def presentFields (fields : List (String × Option Document)) : List (String × Document) :=
  fields.filterMap fun field => field.2.map fun value => (field.1, value)

/-- The record of those of some named fields that are there. -/
def ofFields (fields : List (String × Option Document)) : Document := .record (presentFields fields)

section

variable {fields : List (String × Option Document)}

/-- Fields that are there have their names. -/
theorem names_presentFields : List.Sublist ((presentFields fields).map Prod.fst) (fields.map Prod.fst) := by
  induction fields with
  | nil => exact List.Sublist.refl _
  | cons field rest ih =>
    obtain ⟨name, content⟩ := field
    cases content with
    | none => exact ih.cons _
    | some value => exact ih.cons_cons _

/-- A field is found by its name if no other one has it. -/
theorem find?_presentFields (distinct : (fields.map Prod.fst).Nodup) {field : String × Option Document}
    (listed : field ∈ fields) :
    ((presentFields fields).find? fun entry => entry.1 == field.1).map Prod.snd = field.2 := by
  induction fields with
  | nil => cases listed
  | cons first rest ih =>
    obtain ⟨name, content⟩ := first
    obtain ⟨fresh, apart⟩ := List.nodup_cons.mp distinct
    rcases List.mem_cons.mp listed with rfl | behind
    · cases content with
      | none =>
        have absent : (presentFields rest).find? (fun entry => entry.1 == name) = none := by
          refine List.find?_eq_none.mpr fun entry member same => fresh ?_
          rw [← eq_of_beq same]
          exact names_presentFields.subset (List.mem_map_of_mem member)
        exact congrArg (Option.map Prod.snd) absent
      | some value =>
        have found : (presentFields ((name, some value) :: rest)).find? (fun entry => entry.1 == name) =
            some (name, value) := List.find?_cons_of_pos (beq_self_eq_true name)
        exact congrArg (Option.map Prod.snd) found
    · have different : name ≠ field.1 := by
        rintro rfl
        exact fresh (List.mem_map.mpr ⟨field, behind, rfl⟩)
      cases content with
      | none => exact ih apart behind
      | some value =>
        have skipped : (presentFields ((name, some value) :: rest)).find? (fun entry => entry.1 == field.1) =
            (presentFields rest).find? (fun entry => entry.1 == field.1) :=
          List.find?_cons_of_neg (by simpa using different)
        rw [skipped]
        exact ih apart behind

/-- A record that is written by its fields is read back as its fields. -/
theorem readFieldsOf?_ofFields {names : List String} (named : fields.map Prod.fst = names) (distinct : names.Nodup) :
    (ofFields fields).readFieldsOf? names = some (fields.map Prod.snd) := by
  subst named
  have once : ∀ name : String, ((presentFields fields).filter fun entry => entry.1 == name).length ≤ 1 := by
    intro name
    have counted := List.nodup_iff_count_le_one.mp (names_presentFields.nodup distinct) name
    rwa [List.count, List.countP_map, List.countP_eq_length_filter] at counted
  have admitted : (fields.map Prod.fst).all (fun name =>
      ((presentFields fields).filter fun entry => entry.1 == name).length ≤ 1) = true :=
    List.all_eq_true.mpr fun name _ => decide_eq_true (once name)
  rw [ofFields, readFieldsOf?, if_pos admitted, List.map_map]
  exact congrArg some (List.map_congr_left fun field listed => find?_presentFields distinct listed)

/-- A field that is there is nested less deep than the record. -/
theorem depth_lt_ofFields {name : String} {value : Document} (listed : (name, some value) ∈ fields) :
    value.depth < (ofFields fields).depth := by
  have present : (name, value) ∈ presentFields fields := List.mem_filterMap.mpr ⟨_, listed, rfl⟩
  exact Nat.lt_succ_of_le (depth_le_depthOfFields present)

end

/-- A field that may be left out where it has its default. -/
def spared (brief isDefault : Bool) (value : Document) : Option Document :=
  if brief && isDefault then none else some value

/-- A field that was left out has its default, and any other one is read. -/
theorem defaulted?_spared {α : Type} {default value : α} {read : Document → Option α} (brief : Bool)
    {isDefault : Bool} {document : Document} (same : isDefault = true → value = default)
    (reads : spared brief isDefault document = some document → read document = some value) :
    defaulted? default read (spared brief isDefault document) = some value := by
  cases left : brief && isDefault with
  | true =>
    rw [spared, left, same (Bool.and_eq_true_iff.mp left).2]
    rfl
  | false =>
    have there : spared brief isDefault document = some document := by rw [spared, left]; rfl
    rw [there]
    exact reads there

/-- Items are read one after the other. -/
theorem readList?_cons {α : Type} {read : Document → Option α} {item : Document} {items : List Document} {value : α}
    {values : List α} (first : read item = some value) (others : readList? read (.array items) = some values) :
    readList? read (.array (item :: items)) = some (value :: values) := by
  rw [readList?] at others ⊢
  rw [List.mapM_cons, first, others]
  rfl

end Document

namespace Description

open Document

mutual
/-- Whether all numbers fit the width of their fields: 16 bits for widths, 8 for sizes, 64 for lengths. -/
def fitsFields : Description → Bool
  | .uint bits => bits ≤ 65535
  | .int bits => bits ≤ 65535
  | .fixedBytes size => size ≤ 255
  | .userDefined _ underlying => underlying.fitsFields
  | .array base length => base.fitsFields && length.all (· ≤ 0xffffffffffffffff)
  | .struct _ members => membersFit members
  | .tuple members => membersFit members
  | .function _ parameters returns _ => membersFit parameters && membersFit returns
  | .error _ parameters => membersFit parameters
  | .event _ parameters _ => parametersFit parameters
  | _ => true
/-- Whether all numbers in parts fit the width of their fields. -/
def membersFit : List (Member Description) → Bool
  | [] => true
  | member :: rest => member.type.fitsFields && membersFit rest
/-- Whether all numbers in event parameters fit the width of their fields. -/
def parametersFit : List (EventParameter Description) → Bool
  | [] => true
  | parameter :: rest => parameter.type.fitsFields && parametersFit rest
end

mutual
/-- Writes a description; briefly, every field with a default is left out where it has it. -/
def form (brief : Bool) : Description → Document
  | .bool => .text "bool"
  | .address => .text "address"
  | .uint bits => .record [("uint", .natural bits)]
  | .int bits => .record [("int", .natural bits)]
  | .enumeration name members =>
    .record [("enum", ofFields
      [("name", some (.text name)),
       ("members", spared brief members.isEmpty (.array (members.map .text)))])]
  | .fixedBytes size => .record [("fixed-bytes", .natural size)]
  | .userDefined name underlying =>
    .record [("user-defined", ofFields
      [("name", some (.text name)), ("underlying", some (underlying.form brief))])]
  | .bytes => .text "bytes"
  | .string => .text "string"
  | .array base length =>
    .record [("array", ofFields
      [("base", some (base.form brief)), ("length", spared brief length.isNone (lengthDocument length))])]
  | .struct name members =>
    .record [("struct", ofFields
      [("name", some (.text name)), ("members", some (.array (memberForms brief members)))])]
  | .tuple members => .record [("tuple", ofFields [("members", some (.array (memberForms brief members)))])]
  | .function name parameters returns mutability =>
    .record [("function", ofFields
      [("name", some (.text name)),
       ("parameters", spared brief parameters.isEmpty (.array (memberForms brief parameters))),
       ("returns", spared brief returns.isEmpty (.array (memberForms brief returns))),
       ("state-mutability", spared brief (mutability == .nonpayable) mutability.toDocument)])]
  | .error name parameters =>
    .record [("error", ofFields
      [("name", some (.text name)),
       ("parameters", spared brief parameters.isEmpty (.array (memberForms brief parameters)))])]
  | .event name parameters anonymous =>
    .record [("event", ofFields
      [("name", some (.text name)),
       ("parameters", spared brief parameters.isEmpty (.array (parameterForms brief parameters))),
       ("anonymous", spared brief (!anonymous) (.bool anonymous))])]
/-- Writes named parts. -/
def memberForms (brief : Bool) : List (Member Description) → List Document
  | [] => []
  | member :: rest =>
    ofFields [("name", some (.text member.name)), ("type", some (member.type.form brief))] ::
      memberForms brief rest
/-- Writes event parameters. -/
def parameterForms (brief : Bool) : List (EventParameter Description) → List Document
  | [] => []
  | parameter :: rest =>
    ofFields [("name", some (.text parameter.name)), ("type", some (parameter.type.form brief)),
      ("indexed", spared brief (!parameter.indexed) (.bool parameter.indexed))] :: parameterForms brief rest
end

mutual
/-- The form with all fields is what descriptions are written as. -/
theorem form_false : (description : Description) → description.form false = description.toDocument
  | .bool | .address | .uint _ | .int _ | .enumeration _ _ | .fixedBytes _ | .bytes | .string => rfl
  | .userDefined _ underlying => by simp [form, toDocument, ofFields, presentFields, form_false underlying]
  | .array base _ => by simp [form, toDocument, ofFields, presentFields, spared, form_false base]
  | .struct _ members | .tuple members => by simp [form, toDocument, ofFields, presentFields, memberForms_false members]
  | .function _ parameters returns _ => by
    simp [form, toDocument, ofFields, presentFields, spared, memberForms_false parameters, memberForms_false returns]
  | .error _ parameters => by simp [form, toDocument, ofFields, presentFields, spared, memberForms_false parameters]
  | .event _ parameters _ => by simp [form, toDocument, ofFields, presentFields, spared, parameterForms_false parameters]
/-- The same for named parts. -/
theorem memberForms_false : (members : List (Member Description)) → memberForms false members = memberDocuments members
  | [] => rfl
  | member :: rest => by
    simp [memberForms, memberDocuments, ofFields, presentFields, form_false member.type, memberForms_false rest]
/-- The same for event parameters. -/
theorem parameterForms_false : (parameters : List (EventParameter Description)) →
    parameterForms false parameters = eventParameterDocuments parameters
  | [] => rfl
  | parameter :: rest => by
    simp [parameterForms, eventParameterDocuments, ofFields, presentFields, spared, form_false parameter.type,
      parameterForms_false rest]
end

section

variable {brief : Bool} {filler : Filler} {fuel : Nat}

/-- Texts are read as they are written. -/
theorem readTexts_written (texts : List String) : readList? readText? (.array (texts.map .text)) = some texts := by
  induction texts with
  | nil => rfl
  | cons text rest ih => exact readList?_cons rfl ih

/-- A number is read as it is written if it fits. -/
theorem readNatural?_written {limit value : Nat} (fits : value ≤ limit) :
    (Document.natural value).readNatural? limit = some value := if_pos fits

/-- A length is read as it is written if it fits. -/
theorem readLength_written {length : Option Nat} (fits : length.all (· ≤ 0xffffffffffffffff) = true) :
    readOptional? readCount? (lengthDocument length) = some length := by
  cases length with
  | none => rfl
  | some count => exact congrArg (Option.map some) (readNatural?_written (of_decide_eq_true fits))

/-- A keyword is read as it is written, and it is the one of most functions if it was left out. -/
theorem readMutability_written (filler : Filler) (brief : Bool) (mutability : Mutability) :
    defaulted? .nonpayable (Mutability.readVariant? filler)
      (spared brief (mutability == .nonpayable) mutability.toDocument) = some mutability := by
  cases brief <;> cases mutability <;> rfl

/-- A flag is read as it is written, and it is off if it was left out. -/
theorem readFlag_written (brief flag : Bool) :
    defaulted? false readBool? (spared brief (!flag) (.bool flag)) = some flag := by
  cases brief <;> cases flag <;> rfl

/-- A kind with data is none of those without, and what belongs to it is read. -/
theorem readWithin?_record {kind : String} (content : Document)
    (data : (bareKinds.find? fun entry => entry.1 == kind) = none) :
    readWithin? filler (fuel + 1) (.record [(kind, content)]) = readContent? filler fuel kind content := by
  rw [readWithin?]
  simp only [readVariant?, data]
  rfl

/-- What stands in a field is nested at most as deep as what belongs to a kind. -/
theorem depth_le_of_field {kind name : String} {value : Document} {fields : List (String × Option Document)}
    (listed : (name, some value) ∈ fields) (enough : (Document.record [(kind, ofFields fields)]).depth ≤ fuel + 1) :
    value.depth ≤ fuel :=
  Nat.le_trans (Nat.le_of_lt (depth_lt_ofFields listed))
    (Nat.le_trans (Nat.le_max_left _ _) (Nat.le_of_succ_le_succ enough))

/-- Items in a field are nested at most as deep as what belongs to a kind. -/
theorem depthOfItems_le_of_field {kind name : String} {content : Option Document} {items : List Document}
    {fields : List (String × Option Document)} (there : content = some (.array items))
    (listed : (name, content) ∈ fields) (enough : (Document.record [(kind, ofFields fields)]).depth ≤ fuel + 1) :
    depthOfItems items ≤ fuel := by
  subst there
  have bound : (Document.array items).depth ≤ fuel := depth_le_of_field listed enough
  exact Nat.le_trans (Nat.le_succ _) bound

/-- A document is nested at least one level deep. -/
theorem exists_fuel {document : Document} (enough : document.depth ≤ fuel) : ∃ rest, fuel = rest + 1 := by
  cases fuel with
  | zero => cases document <;> simp [Document.depth] at enough
  | succ rest => exact ⟨rest, rfl⟩

/-- The type of a part is nested at most as deep as the parts. -/
theorem depth_le_of_part {name type : String × Option Document} {value : Document}
    {fields : List (String × Option Document)} {items : List Document} (same : type.2 = some value)
    (enough : depthOfItems (ofFields (name :: type :: fields) :: items) ≤ fuel) : value.depth ≤ fuel := by
  obtain ⟨label, content⟩ := type
  cases same
  exact Nat.le_trans (Nat.le_of_lt (depth_lt_ofFields (.tail _ (.head _))))
    (Nat.le_trans (Nat.le_max_left _ _) enough)

mutual
/-- A description is read as it is written, in either form. -/
theorem readWithin?_form : (description : Description) → {fuel : Nat} → description.fitsFields = true →
    (description.form brief).depth ≤ fuel + 1 →
    readWithin? filler (fuel + 1) (description.form brief) = some description
  | .bool, _, _, _ | .address, _, _, _ | .bytes, _, _, _ | .string, _, _, _ => by
    rw [form, readWithin?]
    rfl
  | .uint number, _, fits, _ | .int number, _, fits, _ | .fixedBytes number, _, fits, _ => by
    rw [form, readWithin?_record _ rfl, readContent?, readNatural?_written (of_decide_eq_true fits)]
    rfl
  | .enumeration name members, fuel, fits, enough => by
    rw [form, readWithin?_record _ rfl, readContent?]
    have texts := defaulted?_spared brief List.isEmpty_iff.mp fun _ => readTexts_written members
    simp (disch := simp) only [readFieldsOf?_ofFields]
    simp [required?, readText?, texts]
  | .userDefined name underlying, fuel, fits, enough => by
    rw [form] at enough ⊢
    -- a part stands deeper in the document, so the fuel that is left suffices for it
    have inside := depth_le_of_field (.tail _ (.head _)) enough
    obtain ⟨less, rfl⟩ := exists_fuel inside
    have part := readWithin?_form underlying fits inside
    rw [readWithin?_record _ rfl, readContent?]
    simp (disch := simp) only [readFieldsOf?_ofFields]
    simp [required?, readText?, part]
  | .array base length, fuel, fits, enough => by
    rw [form] at enough ⊢
    rw [fitsFields, Bool.and_eq_true] at fits
    have inside := depth_le_of_field (.head _) enough
    obtain ⟨less, rfl⟩ := exists_fuel inside
    have part := readWithin?_form base fits.1 inside
    rw [readWithin?_record _ rfl, readContent?]
    have bound := defaulted?_spared brief Option.isNone_iff_eq_none.mp fun _ => readLength_written fits.2
    simp (disch := simp) only [readFieldsOf?_ofFields]
    simp [part, bound]
  | .struct name members, fuel, fits, enough => by
    rw [form] at enough ⊢
    have parts := readMembers_form members fits (depthOfItems_le_of_field rfl (.tail _ (.head _)) enough)
    rw [readWithin?_record _ rfl, readContent?]
    simp (disch := simp) only [readFieldsOf?_ofFields]
    simp [required?, readText?, parts]
  | .tuple members, fuel, fits, enough => by
    rw [form] at enough ⊢
    have parts := readMembers_form members fits (depthOfItems_le_of_field rfl (.head _) enough)
    rw [readWithin?_record _ rfl, readContent?]
    simp (disch := simp) only [readFieldsOf?_ofFields]
    simp [parts]
  | .function name parameters returns mutability, fuel, fits, enough => by
    rw [form] at enough ⊢
    rw [fitsFields, Bool.and_eq_true] at fits
    have taken := defaulted?_spared brief List.isEmpty_iff.mp fun there =>
      readMembers_form parameters fits.1 (depthOfItems_le_of_field there (.tail _ (.head _)) enough)
    have given := defaulted?_spared brief List.isEmpty_iff.mp fun there =>
      readMembers_form returns fits.2 (depthOfItems_le_of_field there (.tail _ (.tail _ (.head _))) enough)
    have keyword := readMutability_written filler brief mutability
    rw [readWithin?_record _ rfl, readContent?]
    simp (disch := simp) only [readFieldsOf?_ofFields]
    simp [required?, readText?, taken, given, keyword]
  | .error name parameters, fuel, fits, enough => by
    rw [form] at enough ⊢
    have taken := defaulted?_spared brief List.isEmpty_iff.mp fun there =>
      readMembers_form parameters fits (depthOfItems_le_of_field there (.tail _ (.head _)) enough)
    rw [readWithin?_record _ rfl, readContent?]
    simp (disch := simp) only [readFieldsOf?_ofFields]
    simp [required?, readText?, taken]
  | .event name parameters anonymous, fuel, fits, enough => by
    rw [form] at enough ⊢
    have taken := defaulted?_spared brief List.isEmpty_iff.mp fun there =>
      readParameters_form parameters fits (depthOfItems_le_of_field there (.tail _ (.head _)) enough)
    have flag := readFlag_written brief anonymous
    rw [readWithin?_record _ rfl, readContent?]
    simp (disch := simp) only [readFieldsOf?_ofFields]
    simp [required?, readText?, taken, flag]
/-- Named parts are read as they are written. -/
theorem readMembers_form : (members : List (Member Description)) → {fuel : Nat} → membersFit members = true →
    depthOfItems (memberForms brief members) ≤ fuel →
    readList? (readMember? filler fuel) (.array (memberForms brief members)) = some members
  | [], _, _, _ => rfl
  | member :: rest, fuel, fits, enough => by
    rw [membersFit, Bool.and_eq_true] at fits
    have others := readMembers_form rest fits.2 (Nat.le_trans (Nat.le_max_right _ _) enough)
    have inside := depth_le_of_part rfl enough
    obtain ⟨less, rfl⟩ := exists_fuel inside
    have type := readWithin?_form member.type fits.1 inside
    refine readList?_cons ?_ others
    rw [readMember?]
    simp (disch := simp) only [readFieldsOf?_ofFields]
    simp [required?, readText?, type]
/-- Event parameters are read as they are written. -/
theorem readParameters_form : (parameters : List (EventParameter Description)) → {fuel : Nat} →
    parametersFit parameters = true → depthOfItems (parameterForms brief parameters) ≤ fuel →
    readList? (readEventParameter? filler fuel) (.array (parameterForms brief parameters)) = some parameters
  | [], _, _, _ => rfl
  | parameter :: rest, fuel, fits, enough => by
    rw [parametersFit, Bool.and_eq_true] at fits
    have others := readParameters_form rest fits.2 (Nat.le_trans (Nat.le_max_right _ _) enough)
    have inside := depth_le_of_part rfl enough
    obtain ⟨less, rfl⟩ := exists_fuel inside
    have type := readWithin?_form parameter.type fits.1 inside
    have flag := readFlag_written brief parameter.indexed
    refine readList?_cons ?_ others
    rw [readEventParameter?]
    simp (disch := simp) only [readFieldsOf?_ofFields]
    simp [required?, readText?, type, flag]
end

end

/-- The brief form of a description: every field that has a default is left out where it has it. -/
def briefDocument (description : Description) : Document := description.form true

/-- A description whose numbers fit their fields is read back as it was written, with all fields and also
where every field that has its default was left out. -/
theorem written_description_is_read_back (description : Description) (fits : description.fitsFields = true) :
    ofDocument? description.toDocument = some description ∧
      ofDocument? description.briefDocument = some description := by
  have reads : ∀ brief, ofDocument? (description.form brief) = some description := by
    intro brief
    obtain ⟨fuel, same⟩ := exists_fuel (Nat.le_refl (description.form brief).depth)
    rw [ofDocument?, same]
    exact readWithin?_form description fits (Nat.le_of_eq same)
  exact ⟨form_false description ▸ reads false, reads true⟩

/-- A function with a list of numbers and no result, all of whose other fields have their defaults. -/
theorem function_description_is_read_back :
    (function "f" [⟨"x", .array (.uint 256) none⟩] [] .nonpayable).fitsFields = true ∧
      (function "f" [⟨"x", .array (.uint 256) none⟩] [] .nonpayable).briefDocument =
        .record [("function", .record
          [("name", .text "f"),
           ("parameters", .array [.record
             [("name", .text "x"), ("type", .record [("array", .record [("base", .record [("uint", .natural 256)])])])]])])] ∧
      ofDocument? (function "f" [⟨"x", .array (.uint 256) none⟩] [] .nonpayable).briefDocument =
        some (function "f" [⟨"x", .array (.uint 256) none⟩] [] .nonpayable) :=
  ⟨by decide, rfl, (written_description_is_read_back _ (by decide)).2⟩

end Description

end YulAbi
