import YulAbi.Proofs.Arena.Sound
import YulAbi.Proofs.Shape.Kinds
import YulAbi.Proofs.Step

/-!
# The packed layout of a shape

The parts of a struct, tuple or fixed-size array follow each other bit by bit. A part that would
cross the end of a word starts at the next word, so a part that is wider than a word starts with
one, and any other lies inside one. Legal shapes that are encoded statically have a packed layout.
-/

namespace YulAbi.Shape

/-- A field starts no earlier than the bits in front of it end. -/
theorem le_nextFieldStart (cursor width : Nat) : cursor ≤ nextFieldStart cursor width := by
  unfold nextFieldStart
  dsimp only
  split <;> omega

/-- A field starts with a word, or it lies inside the word in which it starts. -/
theorem nextFieldStart_cases (cursor width : Nat) : nextFieldStart cursor width % wordBits = 0 ∨
    nextFieldStart cursor width % wordBits + width ≤ wordBits := by
  have word : wordBits = 256 := rfl
  rw [word, nextFieldStart, word]
  split <;> omega

/-- Fields end no earlier than the bits in front of them. -/
theorem le_packedEnd (cursor : Nat) (widths : List Nat) : cursor ≤ packedEnd cursor widths := by
  induction widths generalizing cursor with
  | nil => exact Nat.le_refl _
  | cons width rest ih =>
    calc cursor ≤ nextFieldStart cursor width := le_nextFieldStart cursor width
      _ ≤ nextFieldStart cursor width + width := Nat.le_add_right _ _
      _ ≤ packedEnd cursor (width :: rest) := ih _

/-- Where one of several fields starts. -/
def fieldStart (widths : List Nat) (index : Nat) : Nat :=
  nextFieldStart (packedEnd 0 (widths.take index)) (widths[index]?.getD 0)

section

variable {widths : List Nat} {index later : Nat}

/-- More fields end no earlier. -/
theorem packedEnd_take_le (fewer : index ≤ later) :
    packedEnd 0 (widths.take index) ≤ packedEnd 0 (widths.take later) := by
  obtain ⟨more, joined⟩ := List.take_prefix_take_left (l := widths) fewer
  rw [← joined, packedEnd, packedEnd, List.foldl_append]
  exact le_packedEnd _ more

/-- A field ends where it and the fields in front of it end. -/
theorem fieldStart_add (inside : index < widths.length) :
    fieldStart widths index + widths[index] = packedEnd 0 (widths.take (index + 1)) := by
  rw [List.take_succ_eq_append_getElem inside, packedEnd, List.foldl_append, fieldStart,
    List.getElem?_eq_getElem inside]
  rfl

/-- A field ends before the ones behind it start. -/
theorem fieldStart_add_le (inside : index < widths.length) (before : index < later) :
    fieldStart widths index + widths[index] ≤ fieldStart widths later := by
  rw [fieldStart_add inside]
  exact Nat.le_trans (packedEnd_take_le before) (le_nextFieldStart _ _)

/-- A field ends before the last one does. -/
theorem fieldStart_add_le_packedEnd (inside : index < widths.length) :
    fieldStart widths index + widths[index] ≤ packedEnd 0 widths := by
  rw [fieldStart_add inside]
  exact Nat.le_trans (packedEnd_take_le inside) (Nat.le_of_eq (by rw [List.take_length]))

/-- A field starts with a word, or it lies inside the word in which it starts. -/
theorem fieldStart_cases (inside : index < widths.length) : fieldStart widths index % wordBits = 0 ∨
    fieldStart widths index % wordBits + widths[index] ≤ wordBits := by
  rw [fieldStart, List.getElem?_eq_getElem inside]
  exact nextFieldStart_cases _ _

end

/-- The members of a struct or tuple and the elements of a fixed-size array, one by one. -/
def packedParts : Shape → List Shape
  | .array base (some length) => List.replicate length base
  | .struct _ members | .tuple members => members
  | _ => []

/-- Whether the parts of a shape have the given widths and stand where fields of these widths do. -/
structure IsPacked (shape : Shape) (widths : List Nat) : Prop where
  /-- There is a width for each part. -/
  counted : widths.length = shape.packedParts.length
  /-- Each part has its width. -/
  each : ∀ index (inside : index < shape.packedParts.length) (inside' : index < widths.length),
    shape.packedParts[index].exactBits = .ok widths[index]
  /-- Each part stands where its field starts. -/
  starts : ∀ index < shape.packedParts.length, shape.memberOffset index .packed = .ok (fieldStart widths index)
  /-- The shape ends with the last field. -/
  ends : shape.exactBits = .ok (packedEnd 0 widths)

section

variable {shape base part : Shape} {members : List Shape} {widths : List Nat} {width : Nat}

/-- A legal value is no wider than a word. -/
theorem exactBits_of_isValueType (shape : Shape) (legal : shape.isLegal = true) (value : shape.isValueType = true) :
    ∃ bits, shape.exactBits = .ok bits ∧ 0 < bits ∧ bits ≤ wordBits := by
  have word : wordBits = 256 := rfl
  cases shape with
  | integer signed bits =>
    obtain ⟨some, fits, -⟩ := isLegal_integer.mp legal
    exact ⟨bits, rfl, some, fits⟩
  | enumeration name memberCount =>
    simp only [isLegal, Bool.and_eq_true, decide_eq_true_eq] at legal
    have few : (max memberCount 2 - 1).log2 < 8 := (Nat.log2_lt (by omega)).mpr (by omega)
    exact ⟨enumerationBits memberCount, rfl, Nat.succ_pos _, by rw [enumerationBits]; omega⟩
  | fixedBytes size =>
    simp only [isLegal, Bool.and_eq_true, decide_eq_true_eq] at legal
    have bytes : wordBytes = 32 := rfl
    exact ⟨size * 8, rfl, by omega, by omega⟩
  | userDefined name underlying =>
    obtain ⟨wrapped, part⟩ := isLegal_userDefined.mp legal
    exact exactBits_of_isValueType underlying part wrapped
  | bool => exact ⟨8, rfl, by omega, by omega⟩
  | address => exact ⟨160, rfl, by omega, by omega⟩
  | function parameters returns => exact ⟨192, rfl, by omega, by omega⟩
  | _ => cases value

/-- Several shapes have widths if each of them has one. -/
theorem exists_exactBitsAll {shapes : List Shape} (each : ∀ shape ∈ shapes, ∃ bits, shape.exactBits = .ok bits) :
    ∃ widths, exactBitsAll shapes = .ok widths := by
  induction shapes with
  | nil => exact ⟨[], rfl⟩
  | cons shape rest ih =>
    obtain ⟨⟨own, first⟩, others⟩ := List.forall_mem_cons.mp each
    obtain ⟨widths, listed⟩ := ih others
    exact ⟨own :: widths, by rw [exactBitsAll, first, listed]; rfl⟩

/-- Several shapes have one width each. -/
theorem exactBitsAll_getElem {shapes : List Shape} (h : exactBitsAll shapes = .ok widths) :
    widths.length = shapes.length ∧ ∀ index (inside : index < shapes.length) (inside' : index < widths.length),
      shapes[index].exactBits = .ok widths[index] := by
  induction shapes generalizing widths with
  | nil =>
    cases h
    exact ⟨rfl, fun _ inside => nomatch inside⟩
  | cons shape rest ih =>
    obtain ⟨own, first, h⟩ := Attempt.bind_eq_ok.mp h
    obtain ⟨others, listed, h⟩ := Attempt.bind_eq_ok.mp h
    cases h
    obtain ⟨counted, each⟩ := ih listed
    refine ⟨congrArg Nat.succ counted, fun index inside inside' => ?_⟩
    cases index with
    | zero => exact first
    | succ before => exact each before (Nat.lt_of_succ_lt_succ inside) (Nat.lt_of_succ_lt_succ inside')

/-- Elements are packed with the width of their base. -/
theorem isPacked_array {length : Nat} (static : base.isDynamicallyEncoded = false)
    (measured : base.exactBits = .ok width) : (array base (some length)).IsPacked (List.replicate length width) where
  counted := by rw [packedParts, List.length_replicate, List.length_replicate]
  each index inside inside' := by
    simp only [packedParts, List.getElem_replicate]
    exact measured
  starts index inside := by
    rw [packedParts, List.length_replicate] at inside
    have there : (some length).any (· ≤ index) = false := decide_eq_false (Nat.not_le_of_lt inside)
    rw [memberOffset, elementOffset, there, if_neg Bool.false_ne_true, packedOffset, partWidths, measured]
    rfl
  ends := by
    rw [exactBits, static, if_neg Bool.false_ne_true, measured]
    rfl

/-- Members are packed with their widths. -/
theorem IsComposite.isPacked (composite : shape.IsComposite members) (static : anyDynamicallyEncoded members = false)
    (measured : exactBitsAll members = .ok widths) : shape.IsPacked widths := by
  obtain ⟨counted, each⟩ := exactBitsAll_getElem measured
  constructor
  case counted => rcases composite with ⟨name, rfl⟩ | rfl <;> exact counted
  case each => rcases composite with ⟨name, rfl⟩ | rfl <;> exact each
  case starts =>
    intro index inside
    rcases composite with ⟨name, rfl⟩ | rfl <;>
      · rw [memberOffset, compositeOffset]
        refine (if_pos inside).trans ?_
        rw [packedOffset, partWidths, measured]
        rfl
  case ends =>
    rcases composite with ⟨name, rfl⟩ | rfl <;>
      · rw [exactBits, static, if_neg Bool.false_ne_true, measured]
        rfl

/-- Whether a shape can be packed: it is a legal part that is encoded statically. -/
structure IsPackable (shape : Shape) : Prop where
  /-- Sizes are in range. -/
  legal : shape.isLegal = true
  /-- A signature is no part. -/
  plain : shape.isSignature = false
  /-- Only static parts have widths. -/
  static : shape.isDynamicallyEncoded = false

/-- So can its parts. -/
theorem IsPackable.of_part (h : shape.IsPackable) (listed : part ∈ shape.packedParts) : part.IsPackable := by
  have among : areLegal shape.packedParts = true ∧ anyDynamicallyEncoded shape.packedParts = false := by
    obtain ⟨legal, -, static⟩ := h
    cases shape with
    | struct name members => exact ⟨legal, static⟩
    | tuple members => exact ⟨legal, static⟩
    | array base length =>
      cases length with
      | none => cases listed
      | some count =>
        refine ⟨areLegal_elements legal count, ?_⟩
        rw [anyDynamicallyEncoded_eq_any, List.any_eq_false]
        intro element copied
        rw [List.eq_of_mem_replicate copied]
        exact Bool.eq_false_iff.mp static
    | _ => cases listed
  obtain ⟨plain, legal⟩ := areLegal_iff.mp among.1 part listed
  rw [anyDynamicallyEncoded_eq_any, List.any_eq_false] at among
  exact ⟨legal, plain, Bool.eq_false_iff.mpr (among.2 part listed)⟩

/-- What can be packed has a width if it is a value or has a packed layout. -/
theorem IsPackable.exists_bits (h : shape.IsPackable)
    (either : shape.isValueType = true ∨ ∃ widths, shape.IsPacked widths) : ∃ bits, shape.exactBits = .ok bits := by
  rcases either with value | ⟨widths, packed⟩
  · obtain ⟨bits, measured, -⟩ := exactBits_of_isValueType shape h.legal value
    exact ⟨bits, measured⟩
  · exact ⟨_, packed.ends⟩

/-- What can be packed is a value or has a packed layout. -/
theorem IsPackable.isValueType_or_isPacked (h : shape.IsPackable) :
    shape.isValueType = true ∨ ∃ widths, shape.IsPacked widths := by
  induction shape using Shape.induction with
  | word shape value => exact .inl value
  | bytes shape bytesLike =>
    have static := h.static
    cases shape with
    | bytes | string => cases static
    | _ => cases bytesLike
  | array base length ih =>
    cases length with
    | none => cases h.static
    | some count =>
      obtain ⟨-, -, some⟩ := isLegal_array.mp h.legal
      have inner : base.IsPackable := h.of_part (List.mem_replicate.mpr ⟨fun none => some (congrArg _ none), rfl⟩)
      obtain ⟨width, measured⟩ := inner.exists_bits (ih inner)
      exact .inr ⟨_, isPacked_array inner.static measured⟩
  | composite shape members composite ih =>
    have parts : shape.packedParts = members := by rcases composite with ⟨name, rfl⟩ | rfl <;> rfl
    have static : anyDynamicallyEncoded members = false := by
      rcases composite with ⟨name, rfl⟩ | rfl <;> exact h.static
    obtain ⟨widths, measured⟩ := exists_exactBitsAll fun member listed =>
      have inner : member.IsPackable := h.of_part (parts ▸ listed)
      inner.exists_bits (ih member listed inner)
    exact .inr ⟨widths, composite.isPacked static measured⟩
  | signature shape signature =>
    rw [h.plain] at signature
    cases signature

end

end YulAbi.Shape
