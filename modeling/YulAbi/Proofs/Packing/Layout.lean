import YulAbi.Packing.Repack
import YulAbi.Proofs.Arena.Sound
import YulAbi.Proofs.Step

/-!
# Layouts that are accepted

A layout that is accepted has every field inside one of its slots, and no two fields share a
bit. Placing fields and moving them keep the shapes of the fields, which are parts of the root,
and give each of them the width of its shape.
-/

namespace YulAbi

/-- Whether every field lies inside a slot and no two fields share a bit. -/
structure PackedLayout.IsValid (layout : PackedLayout) : Prop where
  /-- No field is empty. -/
  some : ∀ placement ∈ layout.placements, 0 < placement.bitLength
  /-- The last bit is inside the slot. -/
  fits : ∀ placement ∈ layout.placements, placement.bitEnd ≤ wordBits
  /-- There is the slot. -/
  slot : ∀ placement ∈ layout.placements, placement.slot < layout.slotCount
  /-- No field shares a bit with a later one. -/
  apart : layout.placements.Pairwise fun left right => left.overlaps right = false

/-- Whether a field has a legal shape and the width of it. -/
structure Placement.IsSized (mode : PackingMode) (placement : Placement) : Prop where
  /-- The shape is legal. -/
  legal : placement.shape.isLegal = true
  /-- The width is that of the shape. -/
  width : Packing.fieldBits placement.shape mode = .ok placement.bitLength

/-- Fields share a bit with each other. -/
theorem Placement.overlaps_comm (left right : Placement) : left.overlaps right = right.overlaps left := by
  rw [overlaps, overlaps, Bool.and_right_comm, show (left.slot == right.slot) = (right.slot == left.slot) from
    BEq.comm]

/-- The largest of several numbers is no larger than a bound if none of them is. -/
theorem foldl_max_le_iff {numbers : List Nat} {start bound : Nat} :
    numbers.foldl max start ≤ bound ↔ start ≤ bound ∧ ∀ number ∈ numbers, number ≤ bound := by
  induction numbers generalizing start with
  | nil => simp
  | cons number rest ih => rw [List.foldl_cons, ih, Nat.max_le, List.forall_mem_cons, and_assoc]

/-- None of several numbers is larger than the largest. -/
theorem le_foldl_max {numbers : List Nat} {start number : Nat} (listed : number ∈ numbers) :
    number ≤ numbers.foldl max start :=
  (foldl_max_le_iff.mp (Nat.le_refl _)).2 number listed

namespace PackedLayout

/-- No two fields share a bit. -/
theorem IsValid.apart_of_ne {layout : PackedLayout} (valid : layout.IsValid) {first second : Nat}
    (inside : first < layout.placements.length) (inside' : second < layout.placements.length)
    (different : first ≠ second) :
    layout.placements[first].overlaps layout.placements[second] = false := by
  have apart := List.pairwise_iff_getElem.mp valid.apart
  rcases Nat.lt_or_gt_of_ne different with before | behind
  · exact apart first second inside inside' before
  · rw [Placement.overlaps_comm]
    exact apart second first inside' inside behind

/-- A field without a flaw lies inside a slot and shares no bit with the fields before it. -/
theorem flaw?_eq_none_iff {slotCount : Nat} {before : List Placement} {placement : Placement} :
    flaw? slotCount before placement = none ↔ 0 < placement.bitLength ∧ placement.bitEnd ≤ wordBits ∧
      placement.slot < slotCount ∧ ∀ other ∈ before, other.overlaps placement = false := by
  unfold flaw?
  split
  · refine ⟨nofun, fun inside => ?_⟩
    omega
  · split
    · refine ⟨nofun, fun inside => ?_⟩
      omega
    · rw [Option.map_eq_none_iff, List.find?_eq_none]
      refine ⟨fun apart => ⟨by omega, by omega, by omega, by simpa using apart⟩, fun inside => ?_⟩
      simpa using inside.2.2.2

/-- What holds of a layout in which no flaw is found. -/
theorem firstFlaw?_eq_none_iff {slotCount : Nat} {before rest : List Placement} :
    firstFlaw? slotCount before rest = none ↔
      (∀ placement ∈ rest, 0 < placement.bitLength ∧ placement.bitEnd ≤ wordBits ∧ placement.slot < slotCount ∧
        ∀ other ∈ before, other.overlaps placement = false) ∧
      rest.Pairwise fun left right => left.overlaps right = false := by
  induction rest generalizing before with
  | nil => simp [firstFlaw?]
  | cons placement rest ih =>
    have both : firstFlaw? slotCount before (placement :: rest) = none ↔
        flaw? slotCount before placement = none ∧ firstFlaw? slotCount (before ++ [placement]) rest = none := by
      rw [firstFlaw?]
      split <;> simp [*]
    rw [both, flaw?_eq_none_iff, ih, List.forall_mem_cons, List.pairwise_cons]
    simp only [List.forall_mem_append, List.forall_mem_singleton]
    constructor
    · rintro ⟨own, others, apart⟩
      refine ⟨⟨own, fun other listed => ?_⟩, fun other listed => (others other listed).2.2.2.2, apart⟩
      obtain ⟨some, fits, slot, earlier, -⟩ := others other listed
      exact ⟨some, fits, slot, earlier⟩
    · rintro ⟨⟨own, others⟩, first, apart⟩
      refine ⟨own, fun other listed => ?_, apart⟩
      obtain ⟨some, fits, slot, earlier⟩ := others other listed
      exact ⟨some, fits, slot, earlier, first other listed⟩

/-- A layout is accepted if it is valid, and only then. -/
theorem validate_eq_ok_iff {layout : PackedLayout} : layout.validate = .ok () ↔ layout.IsValid := by
  have accepted : layout.validate = .ok () ↔ firstFlaw? layout.slotCount [] layout.placements = none := by
    unfold validate
    split <;> simp [*]
  rw [accepted, firstFlaw?_eq_none_iff]
  constructor
  · rintro ⟨each, apart⟩
    exact ⟨fun placement listed => (each placement listed).1, fun placement listed => (each placement listed).2.1,
      fun placement listed => (each placement listed).2.2.1, apart⟩
  · rintro ⟨some, fits, slot, apart⟩
    exact ⟨fun placement listed => ⟨some placement listed, fits placement listed, slot placement listed,
      fun _ earlier => absurd earlier List.not_mem_nil⟩, apart⟩

end PackedLayout

namespace Packing

section

variable {mode : PackingMode} {placements : List Placement} {last : PackingCursor}

/-- Whether a step places fields with legal shapes and the widths of them only. -/
def SizesFields (mode : PackingMode) (step : PackingStep) : Prop :=
  ∀ cursor placements last, step cursor = .ok (placements, last) → ∀ placement ∈ placements, placement.IsSized mode

/-- A value is placed with its width. -/
theorem placeValue_sizes {shape : Shape} (legal : shape.isLegal = true) (label : String) (group : Option ArrayGroup) :
    SizesFields mode (placeValue mode shape label group) := by
  intro cursor placements last h
  obtain ⟨bits, width, rest⟩ := Attempt.bind_eq_ok.mp h
  cases rest
  exact List.forall_mem_singleton.mpr ⟨legal, width⟩

/-- Elements are placed as each of them is. -/
theorem placeElements_sizes {label : String} {placeElement : Nat → String → PackingStep}
    (each : ∀ index path, SizesFields mode (placeElement index path)) (index count : Nat) :
    SizesFields mode (placeElements label placeElement index count) := by
  induction count generalizing index with
  | zero =>
    intro cursor placements last h
    cases h
    exact fun _ listed => absurd listed List.not_mem_nil
  | succ count ih =>
    intro cursor placements last h
    obtain ⟨⟨first, next⟩, placed, more⟩ := Attempt.bind_eq_ok.mp h
    obtain ⟨⟨others, end'⟩, placed', rest⟩ := Attempt.bind_eq_ok.mp more
    cases rest
    exact List.forall_mem_append.mpr ⟨each _ _ _ _ _ placed, ih (index + 1) _ _ _ placed'⟩

/-- Arrays are placed as their elements are. -/
theorem placeArray_sizes {label : String} {group : Option ArrayGroup} {count : Nat}
    {placeElement : String → Option ArrayGroup → PackingStep}
    (each : ∀ path tag, SizesFields mode (placeElement path tag)) :
    SizesFields mode (placeArray label group count placeElement) := by
  intro cursor placements last h
  unfold placeArray at h
  split at h
  · exact placeElements_sizes (fun _ path => each path _) 0 count _ _ _ h
  · exact placeElements_sizes (fun _ path => each path _) 0 count _ _ _ h

mutual
/-- The fields of a part with a legal shape are sized. -/
theorem placePart_sizes (type : SolType) (legal : type.shape.isLegal = true) (label : String)
    (group : Option ArrayGroup) : SizesFields mode (placePart mode label group type) := by
  have value : SizesFields mode (fun cursor =>
      if type.shape.isDynamicallyEncoded then unsupported type.shape .dynamicPart
      else if type.shape.isValueType then placeValue mode type.shape label group cursor
      else unsupported type.shape .notStorable) := by
    intro cursor placements last h
    dsimp only at h
    split at h
    · cases h
    · split at h
      · exact placeValue_sizes legal label group _ _ _ h
      · cases h
  cases type with
  | struct name members =>
    intro cursor placements last h
    rw [placePart] at h
    split at h
    · cases h
    · exact placeMembers_sizes members (by simpa [SolType.shape, Shape.isLegal] using legal) label group 0 _ _ _ h
  | tuple members =>
    intro cursor placements last h
    rw [placePart] at h
    split at h
    · cases h
    · exact placeMembers_sizes members (by simpa [SolType.shape, Shape.isLegal] using legal) label group 0 _ _ _ h
  | array base length =>
    have part : base.shape.isLegal = true := (Shape.isLegal_array.mp legal).2.1
    cases length with
    | none => exact value
    | some count =>
      intro cursor placements last h
      rw [placePart] at h
      split at h
      · cases h
      · exact placeArray_sizes (fun path tag => placePart_sizes base part path tag) _ _ _ h
  | _ => exact value
/-- The fields of members with legal shapes are sized. -/
theorem placeMembers_sizes (members : List (Labelled SolType)) (legal : Shape.areLegal (SolType.shapes members) = true)
    (path : String) (group : Option ArrayGroup) (index : Nat) :
    SizesFields mode (placeMembers mode path group index members) := by
  cases members with
  | nil =>
    intro cursor placements last h
    cases h
    exact fun _ listed => absurd listed List.not_mem_nil
  | cons member rest =>
    intro cursor placements last h
    obtain ⟨label, type⟩ := member
    simp only [SolType.shapes, Shape.areLegal, Bool.and_eq_true] at legal
    obtain ⟨⟨first, next⟩, placed, more⟩ := Attempt.bind_eq_ok.mp h
    obtain ⟨⟨others, end'⟩, placed', rest'⟩ := Attempt.bind_eq_ok.mp more
    cases rest'
    exact List.forall_mem_append.mpr ⟨placePart_sizes type legal.1.2 _ group _ _ _ placed,
      placeMembers_sizes rest legal.2 path group (index + 1) _ _ _ placed'⟩
end

/-- The fields of a root with a legal shape are sized. -/
theorem placeRoot_sizes (root : SolType) (legal : root.shape.isLegal = true) :
    SizesFields mode (placeRoot mode root) := by
  cases root with
  | struct name members =>
    exact placeMembers_sizes members (by simpa [SolType.shape, Shape.isLegal] using legal) "" none 0
  | tuple members =>
    exact placeMembers_sizes members (by simpa [SolType.shape, Shape.isLegal] using legal) "" none 0
  | array base length =>
    have part : base.shape.isLegal = true := (Shape.isLegal_array.mp legal).2.1
    cases length with
    | none => exact fun _ _ _ h => nomatch h
    | some count =>
      rw [placeRoot]
      exact placeArray_sizes fun path tag => placePart_sizes base part path tag
  | _ => exact fun _ _ _ h => nomatch h

/-- Whether a layout of a mode has sized fields only. -/
def IsSized (layout : PackedLayout) : Prop := ∀ placement ∈ layout.placements, placement.IsSized layout.mode

/-- The layout in declaration order has sized fields. -/
theorem place_sized {root : SolType} {layout : PackedLayout} (legal : root.shape.isLegal = true)
    (h : place root mode = .ok layout) : IsSized layout := by
  obtain ⟨⟨placements, last⟩, placed, rest⟩ := Attempt.bind_eq_ok.mp h
  cases rest
  exact placeRoot_sizes root legal _ _ _ placed

/-- Moved fields are still sized. -/
theorem applyMoves_sized {layout : PackedLayout} (sized : IsSized layout) (slots : List Nat) (moves : List Move) :
    IsSized (applyMoves layout slots moves) := by
  intro placement listed
  obtain ⟨index, inside, rfl⟩ := List.mem_iff_getElem.mp listed
  simp only [applyMoves, List.length_zipWith, Nat.lt_min] at inside
  have old := sized layout.placements[index] (List.getElem_mem inside.1)
  simp only [applyMoves, List.getElem_zipWith]
  exact ⟨old.legal, old.width⟩

/-- A layout that is packed is valid and has sized fields. -/
theorem pack_spec {root : SolType} {settings : PackingSettings} {layout : PackedLayout}
    (legal : root.shape.isLegal = true) (h : pack root settings = .ok layout) : layout.IsValid ∧ IsSized layout := by
  obtain ⟨placed, found, more⟩ := Attempt.bind_eq_ok.mp h
  obtain ⟨⟨⟩, accepted, rest⟩ := Attempt.bind_eq_ok.mp more
  have valid := PackedLayout.validate_eq_ok_iff.mp accepted
  have sized := place_sized legal found
  split at rest
  · obtain ⟨⟨⟩, accepted', chosen⟩ := Attempt.bind_eq_ok.mp rest
    cases chosen
    split
    · exact ⟨PackedLayout.validate_eq_ok_iff.mp accepted', applyMoves_sized sized _ _⟩
    · exact ⟨valid, sized⟩
  · cases rest
    exact ⟨valid, sized⟩

/-- The width of a signed field is a whole number of bytes. -/
theorem width_of_signed {shape : Shape} {mode : PackingMode} {bits : Nat} (legal : shape.isLegal = true)
    (signed : shape.isSigned = true) (width : fieldBits shape mode = .ok bits) : bits % 8 = 0 := by
  have exact' : ∀ {shape : Shape} {bits : Nat}, shape.isLegal = true → shape.isSigned = true →
      shape.exactBits = .ok bits → bits % 8 = 0 := by
    intro shape
    induction shape using Shape.isSigned.induct with
    | case1 signed bits =>
      intro width legal _ exact'
      cases exact'
      exact (Shape.isLegal_integer.mp legal).2.2
    | case2 name underlying ih =>
      intro width legal signed exact'
      exact ih (Shape.isLegal_userDefined.mp legal).2 signed (by simpa [Shape.exactBits] using exact')
    | case3 shape _ _ =>
      intro width legal signed
      rw [Shape.isSigned] at signed <;> first | cases signed | assumption
  obtain ⟨bits', exactly, rest⟩ := Attempt.bind_eq_ok.mp width
  have whole := exact' legal signed exactly
  cases mode with
  | bits =>
    cases rest
    exact whole
  | bytes =>
    cases rest
    omega

/-- A signed value is not at the high end of its word. -/
theorem not_leftAligned_of_signed {shape : Shape} (signed : shape.isSigned = true) : shape.isLeftAligned = false := by
  induction shape using Shape.isSigned.induct with
  | case1 signed bits => rfl
  | case2 name underlying ih => exact ih signed
  | case3 shape _ _ => rw [Shape.isSigned] at signed <;> first | cases signed | assumption

end

end Packing

end YulAbi
