import YulAbi.Proofs.Packing.Rearranged
import YulAbi.Proofs.Text
import YulAbi.Text

/-!
# Labels of packed fields

The label of a field puts the names of the members and the indices of the elements that lead to
it behind each other. A plain identifier shows no difference between the dots, the brackets and
the characters of names that are not plain, so labels of different fields may have the same one.
They have not if the members of every struct and tuple have different names and these are made
of letters and digits: then each piece of a label ends where its run of letters and digits does,
and two paths can be told at the first index in which they differ.
-/

namespace YulAbi

namespace Identifier

/-- What becomes of a character. -/
def plainChar (char : Char) : Char := if isPlain char then char else '_'

/-- Whether a name has letters and digits only, and a letter in front. -/
def isName (name : String) : Bool :=
  match name.toList with
  | [] => false
  | first :: rest => !Numeral.isDigit first && (first :: rest).all fun char => isPlain char && char != '_'

/-- What a name is made of. -/
theorem isName_iff {name : String} : isName name = true ↔
    (∃ first ∈ name.toList.head?, Numeral.isDigit first = false) ∧
      ∀ char ∈ name.toList, isPlain char = true ∧ (char != '_') = true := by
  unfold isName
  cases name.toList with
  | nil => simp
  | cons first rest => simp only [Bool.and_eq_true, Bool.not_eq_true', List.all_eq_true, List.head?_cons,
      Option.mem_some_iff, exists_eq_left']

/-- Names stay as they are. -/
theorem map_plainChar_of_isName {name : String} (named : isName name = true) :
    name.toList.map plainChar = name.toList := by
  refine (List.map_congr_left fun char listed => ?_).trans (List.map_id _)
  exact if_pos ((isName_iff.mp named).2 char listed).1

/-- Digits stay as they are. -/
theorem map_plainChar_toDigits (number : Nat) :
    (Nat.toDigits 10 number).map plainChar = Nat.toDigits 10 number := by
  refine (List.map_congr_left fun char listed => ?_).trans (List.map_id _)
  exact if_pos (by simp [isPlain, Numeral.isDigit_of_mem_toDigits listed])

/-- Without a digit in front, only characters are replaced. -/
theorem toList_sanitize {name : String} {first : Char} (found : first ∈ name.toList.head?)
    (letter : Numeral.isDigit first = false) : (sanitize name).toList = name.toList.map plainChar := by
  cases chars : name.toList with
  | nil => simp [chars] at found
  | cons other rest =>
    obtain rfl : other = first := by simpa [chars] using found
    have still : Numeral.isDigit (plainChar other) = false := by
      unfold plainChar
      split
      · exact letter
      · decide
    rw [sanitize, String.toList_ofList, chars]
    exact if_neg (Bool.eq_false_iff.mp still)

end Identifier

namespace SolType

mutual
/-- Whether in every struct and tuple the members that have a label have different ones, which are names of letters and
digits. -/
def isWellNamed : SolType → Bool
  | .struct _ members => areWellNamed members
  | .tuple members => areWellNamed members
  | .array base _ => base.isWellNamed
  | _ => true
/-- Whether this is so for members and inside of them. -/
def areWellNamed : List (Labelled SolType) → Bool
  | [] => true
  | member :: rest =>
    (member.label.all fun label => Identifier.isName label && !(rest.map Labelled.label).contains (some label)) &&
      member.type.isWellNamed && areWellNamed rest
end

section

variable {members : List (Labelled SolType)} {member : Labelled SolType}

/-- What is asked of the first member. -/
theorem areWellNamed_cons {rest : List (Labelled SolType)} : areWellNamed (member :: rest) = true ↔
    (∀ label ∈ member.label, Identifier.isName label = true ∧ ∀ other ∈ rest, other.label ≠ some label) ∧
      member.type.isWellNamed = true ∧ areWellNamed rest = true := by
  simp [areWellNamed, Option.all_eq_true, and_assoc]

/-- Every member has a name and a type of this kind. -/
theorem isWellNamed_of_mem (named : areWellNamed members = true) (listed : member ∈ members) :
    (∀ label ∈ member.label, Identifier.isName label = true) ∧ member.type.isWellNamed = true := by
  induction members with
  | nil => cases listed
  | cons first rest ih =>
    obtain ⟨own, inside, others⟩ := areWellNamed_cons.mp named
    rcases List.mem_cons.mp listed with rfl | later
    · exact ⟨fun label found => (own label found).1, inside⟩
    · exact ih others later

/-- A label leads to one member only. -/
theorem index_unique (named : areWellNamed members = true) {index index' : Nat} {member' : Labelled SolType}
    (listed : members[index]? = some member) (listed' : members[index']? = some member') {label : String}
    (own : member.label = some label) (own' : member'.label = some label) : index = index' := by
  induction members generalizing index index' with
  | nil => cases listed
  | cons first rest ih =>
    obtain ⟨unique, -, others⟩ := areWellNamed_cons.mp named
    cases index with
    | zero =>
      cases index' with
      | zero => rfl
      | succ index' =>
        cases listed
        exact absurd own' ((unique label own).2 member' (List.mem_of_getElem? listed'))
    | succ index =>
      cases index' with
      | zero =>
        cases listed'
        exact absurd own ((unique label own').2 member (List.mem_of_getElem? listed))
      | succ index' => rw [ih others listed listed']

end

end SolType

namespace Packing

/-- What the label of a member, or its index if it has none, becomes in a plain identifier. -/
def nameText (index : Nat) (label : Option String) : List Char :=
  match label with
  | some label => label.toList
  | none => '_' :: Nat.toDigits 10 index

/-- Whether a text is empty or begins with an underscore. -/
def IsBehind (rest : List Char) : Prop := ∀ char ∈ rest.head?, char = '_'

/-- Whether a label begins with something else than a digit. -/
def IsLed (label : String) : Prop := ∃ first ∈ label.toList.head?, Numeral.isDigit first = false

/-- A member can be told from what follows its name. -/
theorem nameText_unique {index index' : Nat} {label label' : Option String} {rest rest' : List Char}
    (named : ∀ name ∈ label, Identifier.isName name = true) (named' : ∀ name ∈ label', Identifier.isName name = true)
    (behind : IsBehind rest) (behind' : IsBehind rest')
    (same : nameText index label ++ rest = nameText index' label' ++ rest') :
    label = label' ∧ (label = none → index = index') := by
  have stops : ∀ {rest : List Char}, IsBehind rest → ∀ char ∈ rest.head?, (char != '_') = false :=
    fun behind char found => by simp [behind char found]
  have digits : ∀ {rest : List Char}, IsBehind rest → ∀ char ∈ rest.head?, Numeral.isDigit char = false :=
    fun behind char found => by rw [behind char found]; decide
  -- a name does not begin with the underscore that stands in front of an index
  have apart : ∀ {name : String} {more more' : List Char}, Identifier.isName name = true →
      name.toList ++ more ≠ '_' :: more' := by
    intro name more more' named same
    obtain ⟨⟨first, found, -⟩, letters⟩ := Identifier.isName_iff.mp named
    cases chars : name.toList with
    | nil => simp [chars] at found
    | cons char others =>
      rw [chars] at same letters
      have plain := (letters char List.mem_cons_self).2
      rw [(List.cons.inj same).1] at plain
      exact absurd plain (by decide)
  cases label with
  | some name =>
    cases label' with
    | some name' =>
      have letters := fun char listed => ((Identifier.isName_iff.mp (named name rfl)).2 char listed).2
      have letters' := fun char listed => ((Identifier.isName_iff.mp (named' name' rfl)).2 char listed).2
      obtain ⟨equal, -⟩ := Text.run_unique letters letters' (stops behind) (stops behind') same
      exact ⟨congrArg some (String.toList_inj.mp equal), nofun⟩
    | none => exact absurd same (apart (named name rfl))
  | none =>
    cases label' with
    | some name' => exact absurd same.symm (apart (named' name' rfl))
    | none =>
      exact ⟨rfl, fun _ => (Numeral.toDigits_unique (digits behind) (digits behind') (List.cons.inj same).2).1⟩

namespace Part

/-- What the label becomes in a plain identifier. -/
def text (part : Part) : List Char := part.label.toList.map Identifier.plainChar

/-- What stands between the label and the name of a member. -/
def joint (part : Part) : List Char := if part.label.isEmpty then [] else ['_']

section

variable {part child child' : Part} {index index' : Nat} {path path' : List Nat} {rest rest' : List Char}

/-- The members of a struct or tuple are named well. -/
theorem areWellNamed_of_members {name : String} {members : List (Labelled SolType)}
    (named : part.type.isWellNamed = true) (own : part.type = .struct name members ∨ part.type = .tuple members) :
    SolType.areWellNamed members = true := by
  rcases own with own | own <;> simpa [own, SolType.isWellNamed] using named

/-- What is inside a well-named type is well-named. -/
theorem isWellNamed_child (named : part.type.isWellNamed = true) (h : part.children[index]? = some child) :
    child.type.isWellNamed = true := by
  rcases child_cases h with ⟨name, members, member, own, listed, rfl⟩ | ⟨base, count, own, -, rfl⟩
  · exact (SolType.isWellNamed_of_mem (areWellNamed_of_members named own) (List.mem_of_getElem? listed)).2
  · rwa [own, SolType.isWellNamed] at named

/-- The text of a member. -/
theorem text_member (part : Part) (index : Nat) {member : Labelled SolType}
    (named : ∀ name ∈ member.label, Identifier.isName name = true) :
    (part.member index member).text = part.text ++ (part.joint ++ nameText index member.label) := by
  have name : (member.label.getD s!"_{index}").toList.map Identifier.plainChar = nameText index member.label := by
    cases found : member.label with
    | some name => exact Identifier.map_plainChar_of_isName (named name found)
    | none => simp [nameText, toString, Nat.repr_eq_ofList_toDigits, Identifier.map_plainChar_toDigits]; decide
  rw [text, Part.member, memberPath, joint]
  split
  · rename_i empty
    rw [name, text, String.isEmpty_iff.mp empty]
    rfl
  · simp only [String.toList_append, List.map_append, name, List.append_assoc]
    rfl

/-- The text of an element. -/
theorem text_element (part : Part) (base : SolType) (index : Nat) :
    (part.element base index).text = part.text ++ '_' :: (Nat.toDigits 10 index ++ ['_']) := by
  have bracket : Identifier.plainChar '[' = '_' ∧ Identifier.plainChar ']' = '_' := by decide
  simp [text, element, toString, Nat.repr_eq_ofList_toDigits, Identifier.map_plainChar_toDigits, bracket]

/-- A child can be told from what follows its label. -/
theorem text_unique (named : part.type.isWellNamed = true) (h : part.children[index]? = some child)
    (h' : part.children[index']? = some child') (behind : IsBehind rest) (behind' : IsBehind rest')
    (same : child.text ++ rest = child'.text ++ rest') : index = index' := by
  rcases child_cases h with ⟨name, members, member, own, listed, rfl⟩ | ⟨base, count, own, -, rfl⟩ <;>
    rcases child_cases h' with ⟨name', members', member', own', listed', rfl⟩ | ⟨base', count', own', -, rfl⟩
  · obtain rfl : members = members' := by
      rcases own with own | own <;> rcases own' with own' | own' <;> cases own.symm.trans own' <;> rfl
    have several := areWellNamed_of_members named own
    have names := (SolType.isWellNamed_of_mem several (List.mem_of_getElem? listed)).1
    have names' := (SolType.isWellNamed_of_mem several (List.mem_of_getElem? listed')).1
    rw [text_member part index names, text_member part index' names'] at same
    simp only [List.append_assoc, List.append_cancel_left_eq] at same
    obtain ⟨equal, unnamed⟩ := nameText_unique names names' behind behind' same
    cases label : member.label with
    | some name => exact SolType.index_unique several listed listed' label (equal ▸ label)
    | none => exact unnamed label
  · rcases own with own | own <;> cases own.symm.trans own'
  · rcases own' with own' | own' <;> cases own.symm.trans own'
  · rw [text_element, text_element] at same
    simp only [List.append_assoc, List.cons_append, List.append_cancel_left_eq, List.cons.injEq, true_and] at same
    refine (Numeral.toDigits_unique ?_ ?_ same).1 <;> simp <;> decide

/-- The label of a child is that of its owner and something more, which begins with no digit. -/
theorem label_child (named : part.type.isWellNamed = true) (h : part.children[index]? = some child)
    (led : part.label = "" ∨ IsLed part.label) : IsLed child.label := by
  have more : ∀ text : String, IsLed text → IsLed (part.label ++ text) := by
    intro text ⟨first, found, letter⟩
    rcases led with empty | ⟨front, found', letter'⟩
    · exact ⟨first, by simpa [empty] using found, letter⟩
    · exact ⟨front, by rw [String.toList_append, List.head?_append, Option.mem_def.mp found']; rfl, letter'⟩
  rcases child_cases h with ⟨name, members, member, own, listed, rfl⟩ | ⟨base, count, own, -, rfl⟩
  · have names := (SolType.isWellNamed_of_mem (areWellNamed_of_members named own) (List.mem_of_getElem? listed)).1
    rw [Part.member, memberPath]
    split
    · cases label : member.label with
      | some name => exact (Identifier.isName_iff.mp (names name label)).1
      | none => exact ⟨'_', by simp [toString], by decide⟩
    · rw [String.append_assoc]
      exact more _ ⟨'.', by simp, by decide⟩
  · exact more _ ⟨'[', by simp [toString], by decide⟩

/-- An underscore stands between the text of an owner that has a label and what a child adds. -/
theorem text_child (named : part.type.isWellNamed = true) (h : part.children[index]? = some child)
    (led : IsLed part.label) : ∃ rest, child.text = part.text ++ rest ∧ IsBehind rest := by
  rcases child_cases h with ⟨name, members, member, own, listed, rfl⟩ | ⟨base, count, own, -, rfl⟩
  · have names := (SolType.isWellNamed_of_mem (areWellNamed_of_members named own) (List.mem_of_getElem? listed)).1
    obtain ⟨first, found, -⟩ := led
    have some : part.label.isEmpty = false := Bool.eq_false_iff.mpr fun empty => by
      rw [String.isEmpty_iff.mp empty] at found
      cases found
    refine ⟨_, text_member part index names, ?_⟩
    rw [joint, some]
    rintro char ⟨⟩
    rfl
  · refine ⟨_, text_element part base index, ?_⟩
    rintro char ⟨⟩
    rfl

/-- The same holds of everything inside. The induction is on the path. -/
theorem text_at? (named : part.type.isWellNamed = true) (led : IsLed part.label) (h : part.at? path = some child) :
    IsLed child.label ∧ ∃ rest, child.text = part.text ++ rest ∧ IsBehind rest := by
  induction path generalizing part with
  | nil =>
    cases h
    exact ⟨led, [], (List.append_nil _).symm, nofun⟩
  | cons index path ih =>
    obtain ⟨next, found, reached⟩ := Option.bind_eq_some_iff.mp h
    obtain ⟨front, onward, behind⟩ := text_child named found led
    obtain ⟨led', more, further, behind'⟩ :=
      ih (isWellNamed_child named found) (label_child named found (.inr led)) reached
    refine ⟨led', front ++ more, by rw [further, onward, List.append_assoc], fun char found' => ?_⟩
    cases front with
    | nil => exact behind' char found'
    | cons first others => exact behind char found'

/-- Different paths to values give different texts. The induction follows both paths until they part. -/
theorem path_unique (named : part.type.isWellNamed = true) (led : part.label = "" ∨ IsLed part.label)
    (h : part.at? path = some child) (h' : part.at? path' = some child') (value : child.isValue = true)
    (value' : child'.isValue = true) (same : child.text = child'.text) : path = path' := by
  induction path generalizing part path' with
  | nil =>
    cases h
    exact (path_of_isValue value h').symm
  | cons index path ih =>
    cases path' with
    | nil =>
      cases h'
      exact path_of_isValue value' h
    | cons index' path' =>
      obtain ⟨next, found, reached⟩ := Option.bind_eq_some_iff.mp h
      obtain ⟨next', found', reached'⟩ := Option.bind_eq_some_iff.mp h'
      have inner := isWellNamed_child named found
      have led' := label_child named found led
      obtain ⟨-, rest, text, behind⟩ := text_at? inner led' reached
      obtain ⟨-, rest', text', behind'⟩ :=
        text_at? (isWellNamed_child named found') (label_child named found' led) reached'
      obtain rfl := text_unique named found found' behind behind' (by rw [← text, ← text', same])
      cases found.symm.trans found'
      rw [ih inner (.inr led') reached reached']

end

end Part

/-- Labels of different values inside a well-named type have different plain identifiers. -/
theorem sanitize_label_injective {root : SolType} (composite : (Part.root root).isComposite = true)
    (named : root.isWellNamed = true) {part part' : Part} (reached : (Part.root root).at? part.path = some part)
    (reached' : (Part.root root).at? part'.path = some part') (value : part.isValue = true)
    (value' : part'.isValue = true) (same : Identifier.sanitize part.label = Identifier.sanitize part'.label) :
    part.path = part'.path := by
  -- values are inside the type, so their labels begin with a letter, an underscore or a bracket
  have led : ∀ {part : Part}, (Part.root root).at? part.path = some part → part.isValue = true → IsLed part.label := by
    intro part reached value
    cases path : part.path with
    | nil =>
      rw [path] at reached
      cases reached
      exact absurd value (Bool.eq_false_iff.mp (Part.isValue_of_isComposite composite))
    | cons index rest =>
      rw [path] at reached
      obtain ⟨next, found, further⟩ := Option.bind_eq_some_iff.mp reached
      exact (Part.text_at? (Part.isWellNamed_child named found) (Part.label_child named found (.inl rfl)) further).1
  have texts : ∀ {part : Part}, IsLed part.label → (Identifier.sanitize part.label).toList = part.text :=
    fun ⟨first, found, letter⟩ => Identifier.toList_sanitize found letter
  refine Part.path_unique named (.inl rfl) reached reached' value value' ?_
  rw [← texts (led reached value), ← texts (led reached' value'), same]

/-- The fields of a layout of a well-named type differ in the plain identifiers of their labels. -/
theorem nodup_labels_of_place {root : SolType} {mode : PackingMode} {layout : PackedLayout}
    (legal : root.shape.isLegal = true) (named : root.isWellNamed = true) (placed : place root mode = .ok layout) :
    (layout.placements.map fun placement => Identifier.sanitize placement.label).Nodup := by
  obtain ⟨composite, -, entries, ordered⟩ := place_inDeclarationOrder legal placed
  rw [← ordered.fields, List.map_map, List.Nodup, List.pairwise_map]
  refine ordered.ordered.imp_of_mem fun {left right} listed listed' earlier same => ?_
  obtain ⟨reached, value⟩ := (ordered.complete left.1).mp (List.mem_map_of_mem listed)
  obtain ⟨reached', value'⟩ := (ordered.complete right.1).mp (List.mem_map_of_mem listed')
  have paths : left.1.path = right.1.path := by
    refine sanitize_label_injective composite named reached reached' value value' ?_
    rw [← (ordered.records left listed).label, ← (ordered.records right listed').label]
    exact same
  exact List.lt_irrefl _ (paths ▸ earlier)

/-- Fields keep their labels when they move. -/
theorem Rearranges.labels {before after : PackedLayout} (h : Rearranges before after) :
    after.placements.map Placement.label = before.placements.map Placement.label := by
  have labels : List.Forall₂ (· = ·) (before.placements.map Placement.label) (after.placements.map Placement.label) :=
    List.forall₂_map_left_iff.mpr (List.forall₂_map_right_iff.mpr (h.fields.imp fun _ _ same => same.1.symm))
  exact (List.forall₂_eq_eq_eq ▸ labels).symm

/-- The fields of a well-named type that has been packed differ in the plain identifiers of their labels. -/
theorem nodup_labels_of_pack {root : SolType} {settings : PackingSettings} {layout : PackedLayout}
    (legal : root.shape.isLegal = true) (named : root.isWellNamed = true) (packed : pack root settings = .ok layout) :
    (layout.placements.map fun placement => Identifier.sanitize placement.label).Nodup := by
  obtain ⟨placed, found, more⟩ := Attempt.bind_eq_ok.mp packed
  obtain ⟨⟨⟩, -, rest⟩ := Attempt.bind_eq_ok.mp more
  have different := nodup_labels_of_place legal named found
  split at rest
  · obtain ⟨valid, ordered⟩ := place_spec legal found
    obtain ⟨optimized, better, rearranged, -⟩ := optimize_spec valid ordered
    cases better.symm.trans rest
    have labels := congrArg (List.map Identifier.sanitize) rearranged.labels
    rw [List.map_map, List.map_map] at labels
    exact labels ▸ different
  · cases rest
    exact different

end Packing

end YulAbi
