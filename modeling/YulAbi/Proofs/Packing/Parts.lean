import YulAbi.Packing.Place
import YulAbi.Proofs.Arena.Sound
import YulAbi.Proofs.Shape.Kinds

/-!
# The parts of a packed type

The parts of a struct, tuple or fixed-size array are found by following indices: of members,
and of elements, each of which counts on its own. Declaration order is the order of these
paths, in which an owner comes before what is inside. The parts listed this way are just those
that can be reached, and each of them knows the outermost array around it.
-/

namespace YulAbi.Packing

/-- A part of a type. -/
structure Part where
  /-- The indices that lead to it. -/
  path : List Nat
  /-- The text of the path. -/
  label : String
  /-- Type of the part. -/
  type : SolType
  /-- The path of the outermost fixed-size array around it and the index of the element there, if any. -/
  array : Option (List Nat × Nat)

namespace Part

/-- The type itself. -/
def root (type : SolType) : Part := ⟨[], "", type, none⟩

/-- A member of a struct or tuple. -/
def member (owner : Part) (index : Nat) (member : Labelled SolType) : Part :=
  ⟨owner.path ++ [index], memberPath owner.label index member.label, member.type, owner.array⟩

/-- An element of an array. The outermost array stays the same inside an array. -/
def element (owner : Part) (base : SolType) (index : Nat) : Part :=
  ⟨owner.path ++ [index], owner.label ++ s!"[{index}]", base, owner.array.or (some (owner.path, index))⟩

/-- Members and elements in order. -/
def children (part : Part) : List Part :=
  match part.type with
  | .struct _ members => members.zipIdx.map fun entry => part.member entry.2 entry.1
  | .tuple members => members.zipIdx.map fun entry => part.member entry.2 entry.1
  | .array base (some count) => (List.range' 0 count).map (part.element base)
  | _ => []

/-- The part that further indices lead to. -/
def at? (part : Part) : List Nat → Option Part
  | [] => some part
  | index :: rest => part.children[index]?.bind fun child => child.at? rest

/-- Whether a part is a struct, tuple or fixed-size array, with or without anything inside. -/
def isComposite (part : Part) : Bool :=
  match part.type with
  | .struct .. | .tuple _ | .array _ (some _) => true
  | _ => false

/-- Whether a part is a fixed-size array with no other around it. -/
def isOutermostArray (part : Part) : Bool :=
  match part.type, part.array with
  | .array _ (some _), none => true
  | _, _ => false

/-- Whether a part is a value. -/
def isValue (part : Part) : Bool := part.type.shape.isValueType

/-- Whether a part is encoded dynamically. -/
def isDynamic (part : Part) : Bool := part.type.shape.isDynamicallyEncoded

section

variable {part child owner : Part} {path : List Nat}

/-- A child is a member of a struct or tuple, or an element of a fixed-size array. -/
theorem child_cases {index : Nat} (h : part.children[index]? = some child) :
    (∃ name members member, (part.type = .struct name members ∨ part.type = .tuple members) ∧
        members[index]? = some member ∧ child = part.member index member) ∨
      ∃ base count, part.type = .array base (some count) ∧ index < count ∧ child = part.element base index := by
  have among : ∀ members : List (Labelled SolType),
      (members.zipIdx.map fun entry => part.member entry.2 entry.1)[index]? = some child →
        ∃ member, members[index]? = some member ∧ child = part.member index member := by
    intro members found
    rw [List.getElem?_map, List.getElem?_zipIdx, Option.map_map, Nat.zero_add] at found
    obtain ⟨member, listed, rfl⟩ := Option.map_eq_some_iff.mp found
    exact ⟨member, listed, rfl⟩
  unfold children at h
  split at h
  · rename_i name members own
    obtain ⟨member, listed, rfl⟩ := among members h
    exact .inl ⟨name, members, member, .inl own, listed, rfl⟩
  · rename_i members own
    obtain ⟨member, listed, rfl⟩ := among members h
    exact .inl ⟨"", members, member, .inr own, listed, rfl⟩
  · rename_i base count own
    rw [List.getElem?_map] at h
    obtain ⟨number, found, rfl⟩ := Option.map_eq_some_iff.mp h
    obtain ⟨inside, rfl⟩ := List.getElem?_eq_some_iff.mp found
    rw [List.length_range'] at inside
    exact .inr ⟨base, count, own, inside, by rw [List.getElem_range', Nat.zero_add, Nat.one_mul]⟩
  · cases h

/-- An index leads one step further. -/
theorem path_child {index : Nat} (h : part.children[index]? = some child) : child.path = part.path ++ [index] := by
  rcases child_cases h with ⟨_, _, _, -, -, rfl⟩ | ⟨_, _, -, -, rfl⟩ <;> rfl

/-- A part is larger than what it is made of. -/
theorem sizeOf_child (h : child ∈ part.children) : sizeOf child.type < sizeOf part.type := by
  obtain ⟨index, found⟩ := List.mem_iff_getElem?.mp h
  rcases child_cases found with ⟨name, members, member, own, listed, rfl⟩ | ⟨base, count, own, -, rfl⟩
  · have smaller := List.sizeOf_lt_of_mem (List.mem_of_getElem? listed)
    have labelled : sizeOf member = 1 + sizeOf member.label + sizeOf member.type := rfl
    rcases own with own | own <;>
      · simp only [own, Part.member, SolType.struct.sizeOf_spec, SolType.tuple.sizeOf_spec]
        omega
  · simp only [own, element, SolType.array.sizeOf_spec]
    omega

/-- A part and everything inside, owners first. -/
def parts (part : Part) : List Part :=
  part :: part.children.attach.flatMap fun child => child.1.parts
termination_by sizeOf part.type
decreasing_by exact sizeOf_child child.2

/-- A part is followed by what is inside each of its children. -/
theorem parts_eq (part : Part) : part.parts = part :: part.children.flatMap parts := by
  rw [parts, List.flatMap_subtype (fun _ _ => rfl), List.unattach_attach]

/-- What holds of a part if it holds of its children holds of every part. -/
theorem induction {motive : Part → Prop} (step : ∀ part, (∀ child ∈ part.children, motive child) → motive part)
    (part : Part) : motive part := by
  induction size : sizeOf part.type using Nat.strongRecOn generalizing part with
  | _ size ih => exact step part fun child listed => ih _ (size ▸ sizeOf_child listed) child rfl

/-- A composite is not a value. -/
theorem isValue_of_isComposite (composite : part.isComposite = true) : part.isValue = false := by
  unfold isComposite at composite
  split at composite
  · simp [isValue, *, SolType.shape, Shape.isValueType]
  · simp [isValue, *, SolType.shape, Shape.isValueType]
  · simp [isValue, *, SolType.shape, Shape.isValueType]
  · cases composite

/-- A part that is not composite has no children. -/
theorem children_of_simple (simple : part.isComposite = false) : part.children = [] := by
  unfold isComposite at simple
  unfold children
  split at simple
  · cases simple
  · cases simple
  · cases simple
  · rfl

/-- Nothing leads further from a value. -/
theorem path_of_isValue (value : part.isValue = true) (h : part.at? path = some child) : path = [] := by
  cases path with
  | nil => rfl
  | cons index rest =>
    have simple : part.isComposite = false := by
      cases composite : part.isComposite with
      | false => rfl
      | true => exact absurd value (Bool.eq_false_iff.mp (isValue_of_isComposite composite))
    obtain ⟨next, found, -⟩ := Option.bind_eq_some_iff.mp h
    rw [children_of_simple simple] at found
    cases found

/-- An outermost array is composite, and no array is around it. -/
theorem of_isOutermostArray (outermost : part.isOutermostArray = true) :
    part.isComposite = true ∧ part.array = none := by
  unfold isOutermostArray at outermost
  split at outermost
  · exact ⟨by simp [isComposite, *], by assumption⟩
  · cases outermost

/-- Indices lead further one after the other. -/
theorem path_at? (h : part.at? path = some child) : child.path = part.path ++ path := by
  induction path generalizing part with
  | nil =>
    cases h
    exact (List.append_nil _).symm
  | cons index rest ih =>
    obtain ⟨next, found, reached⟩ := Option.bind_eq_some_iff.mp h
    rw [ih reached, path_child found, List.append_assoc]
    rfl

/-- A path may be followed in two steps. -/
theorem at?_append (part : Part) (first second : List Nat) :
    part.at? (first ++ second) = (part.at? first).bind fun reached => reached.at? second := by
  induction first generalizing part with
  | nil => rfl
  | cons index rest ih =>
    rw [List.cons_append, at?, at?]
    cases part.children[index]? with
    | none => rfl
    | some child => exact ih child

/-- The parts are those that some path leads to. -/
theorem mem_parts (part : Part) : child ∈ part.parts ↔ ∃ path, part.at? path = some child := by
  induction part using Part.induction with
  | _ part ih =>
    rw [parts_eq, List.mem_cons, List.mem_flatMap]
    constructor
    · rintro (rfl | ⟨next, listed, inside⟩)
      · exact ⟨[], rfl⟩
      · obtain ⟨path, reached⟩ := (ih next listed).mp inside
        obtain ⟨index, found⟩ := List.mem_iff_getElem?.mp listed
        exact ⟨index :: path, Option.bind_eq_some_iff.mpr ⟨next, found, reached⟩⟩
    · rintro ⟨path, reached⟩
      cases path with
      | nil => exact .inl (Option.some.inj reached).symm
      | cons index rest =>
        obtain ⟨next, found, reached'⟩ := Option.bind_eq_some_iff.mp reached
        exact .inr ⟨next, List.mem_of_getElem? found, (ih next (List.mem_of_getElem? found)).mpr ⟨rest, reached'⟩⟩

/-- The parts of a whole type are found by their own paths. -/
theorem mem_parts_root {type : SolType} : child ∈ (root type).parts ↔ (root type).at? child.path = some child := by
  refine (mem_parts (root type)).trans ⟨fun ⟨path, reached⟩ => ?_, fun reached => ⟨_, reached⟩⟩
  rw [path_at? reached]
  exact reached

/-- A path comes before those that lead further. -/
theorem lt_append_cons (path : List Nat) (index : Nat) (rest : List Nat) : path < path ++ index :: rest := by
  have behind : path ++ [] < path ++ index :: rest := List.append_left_lt (List.nil_lt_cons index rest)
  rwa [List.append_nil] at behind

/-- The parts are in declaration order. -/
theorem parts_ordered (part : Part) : part.parts.Pairwise fun left right => left.path < right.path := by
  induction part using Part.induction with
  | _ part ih =>
    rw [parts_eq, List.pairwise_cons, List.pairwise_flatMap]
    refine ⟨fun inner listed => ?_, ih, List.pairwise_iff_getElem.mpr fun first second inside inside' earlier => ?_⟩
    · obtain ⟨child, among, inner'⟩ := List.mem_flatMap.mp listed
      obtain ⟨path, reached⟩ := (mem_parts child).mp inner'
      obtain ⟨index, found⟩ := List.mem_iff_getElem?.mp among
      rw [path_at? reached, path_child found, List.append_assoc]
      exact lt_append_cons _ _ _
    · intro left listed right listed'
      obtain ⟨path, reached⟩ := (mem_parts _).mp listed
      obtain ⟨path', reached'⟩ := (mem_parts _).mp listed'
      rw [path_at? reached, path_child (List.getElem?_eq_getElem inside), path_at? reached',
        path_child (List.getElem?_eq_getElem inside'), List.append_assoc, List.append_assoc]
      exact List.append_left_lt (List.cons_lt_cons_iff.mpr (.inl earlier))

/-- The parts inside an array keep the outermost one. -/
theorem array_at? (h : part.at? path = some child) {array : List Nat × Nat} (around : part.array = some array) :
    child.array = some array := by
  induction path generalizing part with
  | nil =>
    cases h
    exact around
  | cons index rest ih =>
    obtain ⟨next, found, reached⟩ := Option.bind_eq_some_iff.mp h
    refine ih reached ?_
    rcases child_cases found with ⟨_, _, member, -, -, rfl⟩ | ⟨base, count, -, -, rfl⟩
    · exact around
    · rw [element, around]
      rfl

/-- Whatever is inside an outermost array lies in one of its elements. -/
theorem array_of_isOutermostArray (outermost : part.isOutermostArray = true) {index : Nat}
    (h : part.at? (index :: path) = some child) : child.array = some (part.path, index) := by
  obtain ⟨next, found, reached⟩ := Option.bind_eq_some_iff.mp h
  refine array_at? reached ?_
  unfold isOutermostArray at outermost
  split at outermost
  · rename_i own alone
    rcases child_cases found with ⟨name, members, member, other, -, -⟩ | ⟨base, count, -, -, rfl⟩
    · rcases other with other | other <;> exact nomatch own.symm.trans other
    · rw [element, alone]
      rfl
  · cases outermost

/-- Around a part inside an array there is the outermost one, in one of whose elements it lies. -/
theorem array_spec (h : part.at? path = some child) (alone : part.array = none) {array : List Nat × Nat}
    (around : child.array = some array) : ∃ outer rest, outer ∈ part.parts ∧ outer.isOutermostArray = true ∧
      outer.path = array.1 ∧ child.path = array.1 ++ array.2 :: rest := by
  induction path generalizing part with
  | nil =>
    cases h
    exact nomatch alone.symm.trans around
  | cons index rest ih =>
    obtain ⟨next, found, reached⟩ := Option.bind_eq_some_iff.mp h
    by_cases outermost : part.isOutermostArray = true
    · obtain rfl := Option.some.inj (around.symm.trans (array_of_isOutermostArray outermost h))
      exact ⟨part, rest, part.parts_eq ▸ List.mem_cons_self, outermost, rfl, path_at? h⟩
    · have alone' : next.array = none := by
        rcases child_cases found with ⟨_, _, member, -, -, rfl⟩ | ⟨base, count, own, -, rfl⟩
        · exact alone
        · simp [isOutermostArray, own, alone] at outermost
      obtain ⟨outer, rest', listed, facts⟩ := ih reached alone'
      rw [parts_eq]
      exact ⟨outer, rest', List.mem_cons_of_mem _ (List.mem_flatMap.mpr ⟨next, List.mem_of_getElem? found, listed⟩),
        facts⟩

/-- The parts of a legal type are legal. -/
theorem legal_child (legal : part.type.shape.isLegal = true) (h : child ∈ part.children) :
    child.type.shape.isLegal = true ∧ child.type.shape.isSignature = false := by
  obtain ⟨index, found⟩ := List.mem_iff_getElem?.mp h
  rcases child_cases found with ⟨name, members, member, own, listed, rfl⟩ | ⟨base, count, own, -, rfl⟩
  · have several : Shape.areLegal (SolType.shapes members) = true := by
      rcases own with own | own <;> simpa [own, SolType.shape, Shape.isLegal] using legal
    rw [SolType.shapes_eq_map] at several
    exact (Shape.areLegal_iff.mp several _ (List.mem_map_of_mem (List.mem_of_getElem? listed))).symm
  · rw [own] at legal
    obtain ⟨plain, element, -⟩ := Shape.isLegal_array.mp legal
    exact ⟨element, plain⟩

/-- Parts of legal types are legal, and none but the type itself is a signature. -/
theorem legal_at? (legal : part.type.shape.isLegal = true) (plain : part.type.shape.isSignature = false)
    (h : part.at? path = some child) : child.type.shape.isLegal = true ∧ child.type.shape.isSignature = false := by
  induction path generalizing part with
  | nil =>
    cases h
    exact ⟨legal, plain⟩
  | cons index rest ih =>
    obtain ⟨next, found, reached⟩ := Option.bind_eq_some_iff.mp h
    obtain ⟨legal', plain'⟩ := legal_child legal (List.mem_of_getElem? found)
    exact ih legal' plain' reached

/-- A composite is encoded dynamically if one of its children is, and only then. -/
theorem isDynamic_iff (legal : part.type.shape.isLegal = true) (composite : part.isComposite = true) :
    part.isDynamic = true ↔ ∃ child ∈ part.children, child.isDynamic = true := by
  have members : ∀ members : List (Labelled SolType),
      Shape.anyDynamicallyEncoded (SolType.shapes members) = true ↔
        ∃ child ∈ members.zipIdx.map (fun entry => part.member entry.2 entry.1), child.isDynamic = true := by
    intro members
    rw [Shape.anyDynamicallyEncoded_eq_any, SolType.shapes_eq_map, List.any_map, List.any_eq_true]
    constructor
    · rintro ⟨member, listed, dynamic⟩
      obtain ⟨index, found⟩ := List.mem_iff_getElem?.mp listed
      exact ⟨_, List.mem_map_of_mem (List.mk_mem_zipIdx_iff_getElem?.mpr found), dynamic⟩
    · rintro ⟨child, listed, dynamic⟩
      obtain ⟨entry, among, rfl⟩ := List.mem_map.mp listed
      exact ⟨entry.1, List.fst_mem_of_mem_zipIdx among, dynamic⟩
  unfold isComposite at composite
  split at composite
  · rename_i name members' own
    simpa only [isDynamic, children, own, SolType.shape, Shape.isDynamicallyEncoded] using members members'
  · rename_i members' own
    simpa only [isDynamic, children, own, SolType.shape, Shape.isDynamicallyEncoded] using members members'
  · rename_i base count own
    rw [own] at legal
    obtain ⟨-, -, some⟩ := Shape.isLegal_array.mp legal
    have first : 0 < count := Nat.pos_of_ne_zero fun none => some (congrArg _ none)
    simp only [isDynamic, children, own, SolType.shape, Shape.isDynamicallyEncoded]
    constructor
    · exact fun dynamic => ⟨part.element base 0, List.mem_map_of_mem (by simpa using first), dynamic⟩
    · rintro ⟨child, listed, dynamic⟩
      obtain ⟨index, -, rfl⟩ := List.mem_map.mp listed
      exact dynamic
  · cases composite

/-- All parts of what is encoded statically are. -/
theorem isDynamic_at? (legal : part.type.shape.isLegal = true) (static : part.isDynamic = false)
    (h : part.at? path = some child) : child.isDynamic = false := by
  induction path generalizing part with
  | nil =>
    cases h
    exact static
  | cons index rest ih =>
    obtain ⟨next, found, reached⟩ := Option.bind_eq_some_iff.mp h
    have listed := List.mem_of_getElem? found
    have composite : part.isComposite = true := by
      rcases child_cases found with ⟨_, _, _, own | own, -, -⟩ | ⟨_, _, own, -, -⟩ <;> simp only [isComposite, own]
    refine ih (legal_child legal listed).1 (Bool.eq_false_iff.mpr fun dynamic => ?_) reached
    exact Bool.eq_false_iff.mp static ((isDynamic_iff legal composite).mpr ⟨next, listed, dynamic⟩)

end

end Part

end YulAbi.Packing
