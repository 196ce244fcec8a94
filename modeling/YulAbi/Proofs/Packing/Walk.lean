import YulAbi.Proofs.Packing.Layout
import YulAbi.Proofs.Packing.Parts
import YulAbi.Proofs.Shape.Packed

/-!
# Placing part by part

Placing follows the structure of a type. It is the same as one walk through the parts in
declaration order, where a composite only moves the cursor to the beginning of a slot and a
value is placed there. The walk ends at the first part that is encoded dynamically, and
reaches the end if there is none.
-/

namespace YulAbi

/-- A fresh slot changes no group. -/
theorem PackingCursor.nextGroup_fresh (cursor : PackingCursor) : cursor.fresh.nextGroup = cursor.nextGroup := by
  unfold fresh
  split <;> rfl

namespace Packing

namespace Part

/-- The cursor behind the beginning of a composite. An outermost array begins a group. -/
def enter (part : Part) (cursor : PackingCursor) : PackingCursor :=
  if part.isOutermostArray then ⟨cursor.fresh.slot, cursor.fresh.used, cursor.fresh.nextGroup + 1⟩ else cursor.fresh

/-- The group of a part: the one begun last, with the index of the element. -/
def group (part : Part) (cursor : PackingCursor) : Option ArrayGroup :=
  part.array.map fun array => ⟨cursor.nextGroup - 1, array.2⟩

/-- Places a part, but nothing inside. -/
def place (mode : PackingMode) (part : Part) : PackingStep := fun cursor =>
  if part.isDynamic then unsupported part.type.shape .dynamicPart
  else if part.isComposite then .ok ([], part.enter cursor)
  else if part.isValue then placeValue mode part.type.shape part.label (part.group cursor) cursor
  else unsupported part.type.shape .notStorable

end Part

/-- Places parts in order. -/
def placeParts (mode : PackingMode) : List Part → PackingStep
  | [] => fun cursor => .ok ([], cursor)
  | part :: rest => fun cursor => do
    let (own, next) ← part.place mode cursor
    let (others, last) ← placeParts mode rest next
    return (own ++ others, last)

section

variable {mode : PackingMode} {cursor last : PackingCursor} {placements : List Placement}

/-- Parts are placed one list after the other. -/
theorem placeParts_append (first second : List Part) (cursor : PackingCursor) :
    placeParts mode (first ++ second) cursor = do
      let (own, next) ← placeParts mode first cursor
      let (others, last) ← placeParts mode second next
      return (own ++ others, last) := by
  induction first generalizing cursor with
  | nil => exact (bind_pure (placeParts mode second cursor)).symm
  | cons part rest ih =>
    rw [List.cons_append, placeParts, placeParts]
    simp only [ih, bind_assoc, pure_bind, List.append_assoc]

/-- No group begins inside an array. -/
theorem placeParts_nextGroup {parts : List Part} (inside : ∀ part ∈ parts, part.array.isSome = true)
    (h : placeParts mode parts cursor = .ok (placements, last)) : last.nextGroup = cursor.nextGroup := by
  induction parts generalizing cursor placements with
  | nil =>
    cases h
    rfl
  | cons part rest ih =>
    obtain ⟨⟨own, next⟩, placed, more⟩ := Attempt.bind_eq_ok.mp h
    obtain ⟨⟨others, last'⟩, placed', ended⟩ := Attempt.bind_eq_ok.mp more
    cases ended
    rw [ih (fun other listed => inside other (List.mem_cons_of_mem _ listed)) placed']
    unfold Part.place at placed
    split at placed
    · cases placed
    · split at placed
      · cases placed
        have around := inside part List.mem_cons_self
        have inner : part.isOutermostArray = false := by
          unfold Part.isOutermostArray
          split
          · rename_i alone
            rw [alone] at around
            cases around
          · rfl
        simp [Part.enter, inner, PackingCursor.nextGroup_fresh]
      · split at placed
        · obtain ⟨bits, -, rest⟩ := Attempt.bind_eq_ok.mp placed
          cases rest
          dsimp only
          split
          · exact cursor.nextGroup_fresh
          · rfl
        · cases placed

/-- The group of a part stays the same while other parts of the same owner are placed. -/
theorem Part.group_behind {part : Part} {parts : List Part}
    (inside : part.array.isSome = true → ∀ other ∈ parts, other.array.isSome = true)
    (h : placeParts mode parts cursor = .ok (placements, last)) : part.group last = part.group cursor := by
  unfold group
  cases around : part.array with
  | none => rfl
  | some array => rw [Option.map_some, Option.map_some, placeParts_nextGroup (inside (by rw [around]; rfl)) h]

/-- Whether placing a part is placing the parts of it in order. -/
def Part.IsWalked (mode : PackingMode) (part : Part) : Prop :=
  ∀ cursor, placePart mode part.label (part.group cursor) part.type cursor = placeParts mode part.parts cursor

/-- If two lists of parts are placed in order, so are all of them. -/
theorem bind_placeParts (part : Part) (rest : List Part) {others : PackingStep} (walked : part.IsWalked mode)
    (same : ∀ placements next, placeParts mode part.parts cursor = .ok (placements, next) →
      others next = placeParts mode rest next) :
    (do
      let (first, next) ← placePart mode part.label (part.group cursor) part.type cursor
      let (second, last) ← others next
      return (first ++ second, last)) = placeParts mode (part.parts ++ rest) cursor := by
  rw [placeParts_append, walked cursor]
  cases found : placeParts mode part.parts cursor with
  | error fault => rfl
  | ok placed =>
    change (others placed.2 >>= _) = (placeParts mode rest placed.2 >>= _)
    rw [same placed.1 placed.2 found]

/-- The parts inside an array are. -/
theorem Part.array_parts (part : Part) (around : part.array.isSome = true) :
    ∀ inner ∈ part.parts, inner.array.isSome = true := by
  intro inner listed
  obtain ⟨array, known⟩ := Option.isSome_iff_exists.mp around
  obtain ⟨path, reached⟩ := (mem_parts part).mp listed
  rw [array_at? reached known]
  rfl

/-- Members are placed part by part. -/
theorem placeMembers_eq_placeParts (owner : Part) {members : List (Labelled SolType)} {start : Nat}
    (each : ∀ part ∈ (members.zipIdx start).map fun entry => owner.member entry.2 entry.1, part.IsWalked mode)
    (cursor : PackingCursor) : placeMembers mode owner.label (owner.group cursor) start members cursor =
      placeParts mode (((members.zipIdx start).map fun entry => owner.member entry.2 entry.1).flatMap Part.parts)
        cursor := by
  induction members generalizing start cursor with
  | nil => rfl
  | cons member rest ih =>
    rw [List.zipIdx_cons, List.map_cons] at each ⊢
    obtain ⟨own, others⟩ := List.forall_mem_cons.mp each
    rw [placeMembers, List.flatMap_cons]
    refine bind_placeParts (owner.member start member) _ own fun placements next placed => ?_
    have kept : owner.group next = owner.group cursor :=
      Part.group_behind ((owner.member start member).array_parts ·) placed
    rw [← kept, ih others next]

/-- Elements are placed part by part. -/
theorem placeElements_eq_placeParts {owner : Part} {base : SolType} {start count : Nat} {tag : Nat → Option ArrayGroup}
    (each : ∀ part ∈ (List.range' start count).map (owner.element base), part.IsWalked mode) (cursor : PackingCursor)
    (tagged : ∀ index, (owner.element base index).group cursor = tag index) :
    placeElements owner.label (fun index path => placePart mode path (tag index) base) start count cursor =
      placeParts mode (((List.range' start count).map (owner.element base)).flatMap Part.parts) cursor := by
  induction count generalizing start cursor with
  | zero => rfl
  | succ count ih =>
    rw [List.range'_succ, List.map_cons] at each ⊢
    obtain ⟨own, others⟩ := List.forall_mem_cons.mp each
    rw [placeElements, List.flatMap_cons, ← tagged start]
    refine bind_placeParts (owner.element base start) _ own fun placements next placed => ?_
    refine ih others next fun index => ?_
    have around : ∀ index, (owner.element base index).array.isSome = true := fun index => by simp [Part.element]
    rw [Part.group_behind (fun _ => (owner.element base start).array_parts (around start)) placed, tagged]

/-- A fixed-size array is placed part by part behind its beginning. -/
theorem placeArray_eq_placeParts (part : Part) {base : SolType} {count : Nat}
    (own : part.type = .array base (some count)) (each : ∀ child ∈ part.children, child.IsWalked mode) (cursor : PackingCursor) :
    placeArray part.label (part.group cursor) count (fun path tag => placePart mode path tag base) cursor =
      placeParts mode (part.children.flatMap Part.parts) (part.enter cursor) := by
  have elements : part.children = (List.range' 0 count).map (part.element base) := by simp only [Part.children, own]
  rw [elements] at each ⊢
  unfold placeArray
  cases around : part.array with
  | none =>
    have outermost : part.isOutermostArray = true := by simp [Part.isOutermostArray, own, around]
    rw [Part.group, around, Option.map_none, Part.enter, if_pos outermost]
    exact placeElements_eq_placeParts each _ fun index => by simp [Part.group, Part.element, around]
  | some array =>
    have inner : ¬ part.isOutermostArray = true := by simp [Part.isOutermostArray, around]
    rw [Part.group, around, Option.map_some, Part.enter, if_neg inner]
    have same : ∀ index, (part.element base index).group cursor.fresh = some ⟨cursor.nextGroup - 1, array.2⟩ := by
      intro index
      simp [Part.group, Part.element, around, cursor.nextGroup_fresh]
    exact placeElements_eq_placeParts each _ same

/-- The walk ends at a part that is encoded dynamically. -/
theorem placeParts_of_dynamic {part : Part} (dynamic : part.isDynamic = true) (rest : List Part)
    (cursor : PackingCursor) :
    placeParts mode (part :: rest) cursor = unsupported part.type.shape .dynamicPart := by
  have ended : part.place mode cursor = unsupported part.type.shape .dynamicPart := if_pos dynamic
  simp only [placeParts, ended]
  rfl

/-- The walk goes on behind the beginning of a composite. -/
theorem placeParts_of_composite {part : Part} (static : part.isDynamic = false) (composite : part.isComposite = true)
    (rest : List Part) (cursor : PackingCursor) :
    placeParts mode (part :: rest) cursor = placeParts mode rest (part.enter cursor) := by
  have entered : part.place mode cursor = .ok ([], part.enter cursor) :=
    (if_neg (Bool.eq_false_iff.mp static)).trans (if_pos composite)
  simp only [placeParts, entered]
  exact bind_pure (placeParts mode rest (part.enter cursor))

/-- Nothing is inside a part that is not composite. -/
theorem Part.parts_of_simple {part : Part} (simple : part.isComposite = false) : part.parts = [part] := by
  rw [parts_eq, children_of_simple simple, List.flatMap_nil]

/-- A part that is encoded dynamically is not placed. -/
theorem placePart_of_dynamic {type : SolType} (dynamic : type.shape.isDynamicallyEncoded = true) (label : String)
    (group : Option ArrayGroup) (cursor : PackingCursor) :
    placePart mode label group type cursor = unsupported type.shape .dynamicPart := by
  cases type with
  | array base length => cases length <;> simp only [placePart, dynamic, if_true]
  | _ => simp only [placePart, dynamic, if_true]

/-- A part that is not composite is placed on its own. -/
theorem placePart_of_simple {part : Part} (simple : part.isComposite = false) (cursor : PackingCursor) :
    placePart mode part.label (part.group cursor) part.type cursor = part.place mode cursor := by
  obtain ⟨path, label, type, array⟩ := part
  cases type with
  | struct name members => cases simple
  | tuple members => cases simple
  | array base length =>
    cases length with
    | none => rfl
    | some count => cases simple
  | _ => rfl

/-- Every part is placed part by part. -/
theorem Part.isWalked (mode : PackingMode) (part : Part) : part.IsWalked mode := by
  induction part using Part.induction with
  | _ part ih =>
    intro cursor
    cases composite : part.isComposite with
    | false =>
      rw [parts_of_simple composite, placePart_of_simple composite]
      simp only [placeParts]
      cases part.place mode cursor with
      | error fault => rfl
      | ok placed =>
        change Except.ok placed = Except.ok (placed.1 ++ [], placed.2)
        rw [List.append_nil]
    | true =>
      rw [parts_eq]
      cases dynamic : part.isDynamic with
      | true => rw [placeParts_of_dynamic dynamic, placePart_of_dynamic dynamic]
      | false =>
        rw [placeParts_of_composite dynamic composite]
        have static := Bool.eq_false_iff.mp dynamic
        have kept : part.group cursor = part.group cursor.fresh := by rw [group, group, cursor.nextGroup_fresh]
        obtain ⟨path, label, type, array⟩ := part
        cases type with
        | struct name members =>
          refine (if_neg static).trans ?_
          rw [kept]
          exact placeMembers_eq_placeParts ⟨path, label, .struct name members, array⟩ ih cursor.fresh
        | tuple members =>
          refine (if_neg static).trans ?_
          rw [kept]
          exact placeMembers_eq_placeParts ⟨path, label, .tuple members, array⟩ ih cursor.fresh
        | array base length =>
          cases length with
          | none => cases composite
          | some count =>
            exact (if_neg static).trans
              (placeArray_eq_placeParts ⟨path, label, .array base (some count), array⟩ rfl ih cursor)
        | _ => cases composite

/-- So is a type from the first slot on, without the beginning of it. -/
theorem placeRoot_eq_placeParts {type : SolType} (composite : (Part.root type).isComposite = true)
    (mode : PackingMode) :
    placeRoot mode type ⟨0, 0, 0⟩ = placeParts mode ((Part.root type).children.flatMap Part.parts)
      ((Part.root type).enter ⟨0, 0, 0⟩) := by
  have each : ∀ child ∈ (Part.root type).children, child.IsWalked mode := fun child _ => child.isWalked mode
  cases type with
  | struct name members => exact placeMembers_eq_placeParts (.root (.struct name members)) each ⟨0, 0, 0⟩
  | tuple members => exact placeMembers_eq_placeParts (.root (.tuple members)) each ⟨0, 0, 0⟩
  | array base length =>
    cases length with
    | none => cases composite
    | some count => exact placeArray_eq_placeParts (.root (.array base (some count))) rfl each ⟨0, 0, 0⟩
  | _ => cases composite

/-- Whether a part can be placed: it begins a slot, or it is a value that fits into one. -/
def Part.IsPlaceable (mode : PackingMode) (part : Part) : Prop :=
  part.isDynamic = false ∧ (part.isComposite = true ∨ part.isValue = true ∧
    ∃ bits, fieldBits part.type.shape mode = .ok bits ∧ 0 < bits ∧ bits ≤ wordBits)

/-- The field of a legal value is no wider than a slot. -/
theorem fieldBits_of_isValueType {shape : Shape} (legal : shape.isLegal = true) (value : shape.isValueType = true)
    (mode : PackingMode) : ∃ bits, fieldBits shape mode = .ok bits ∧ 0 < bits ∧ bits ≤ wordBits := by
  obtain ⟨bits, width, some, fits⟩ := Shape.exactBits_of_isValueType shape legal value
  have word : wordBits = 256 := rfl
  cases mode with
  | bits => exact ⟨bits, by rw [fieldBits, width]; rfl, some, fits⟩
  | bytes => exact ⟨(bits + 7) / 8 * 8, by rw [fieldBits, width]; rfl, by omega, by omega⟩

/-- A part of a legal type that is encoded statically can be placed. -/
theorem Part.isPlaceable {part : Part} (legal : part.type.shape.isLegal = true)
    (plain : part.type.shape.isSignature = false) (static : part.isDynamic = false) (mode : PackingMode) :
    part.IsPlaceable mode := by
  refine ⟨static, ?_⟩
  obtain ⟨path, label, type, array⟩ := part
  cases type with
  | struct name members => exact .inl rfl
  | tuple members => exact .inl rfl
  | array base length =>
    cases length with
    | none => cases static
    | some count => exact .inl rfl
  | bytes => cases static
  | string => cases static
  | error name parameters => cases plain
  | event name parameters data indexed anonymous => cases plain
  | _ => exact .inr ⟨rfl, fieldBits_of_isValueType legal rfl mode⟩

/-- Where a field of a width starts: here, or in a fresh slot if it does not fit. -/
def startFor (cursor : PackingCursor) (bits : Nat) : PackingCursor :=
  if wordBits < cursor.used + bits then cursor.fresh else cursor

/-- How a part that can be placed is placed. -/
theorem Part.IsPlaceable.place_cases {part : Part} (h : part.IsPlaceable mode) (cursor : PackingCursor) :
    (part.isComposite = true ∧ part.isValue = false ∧ part.place mode cursor = .ok ([], part.enter cursor)) ∨
      (part.isComposite = false ∧ part.isValue = true ∧ part.isOutermostArray = false ∧
        ∃ bits, fieldBits part.type.shape mode = .ok bits ∧ 0 < bits ∧ bits ≤ wordBits ∧
          part.place mode cursor = .ok
            ([⟨(startFor cursor bits).slot, (startFor cursor bits).used, bits, part.label, part.type.shape,
              part.group cursor⟩],
            ⟨(startFor cursor bits).slot, (startFor cursor bits).used + bits, cursor.nextGroup⟩)) := by
  obtain ⟨static, kind⟩ := h
  cases composite : part.isComposite with
  | true =>
    exact .inl ⟨rfl, isValue_of_isComposite composite, (if_neg (Bool.eq_false_iff.mp static)).trans (if_pos composite)⟩
  | false =>
    obtain ⟨value, bits, width, some, fits⟩ := kind.resolve_left (Bool.eq_false_iff.mp composite)
    have inner : part.isOutermostArray = false :=
      Bool.eq_false_iff.mpr fun outermost => Bool.eq_false_iff.mp composite (of_isOutermostArray outermost).1
    refine .inr ⟨rfl, value, inner, bits, width, some, fits, ?_⟩
    have group : (startFor cursor bits).nextGroup = cursor.nextGroup := by
      unfold startFor
      split
      · exact cursor.nextGroup_fresh
      · rfl
    rw [place, if_neg (Bool.eq_false_iff.mp static), if_neg (Bool.eq_false_iff.mp composite), if_pos value, placeValue,
      width, ← group]
    rfl

/-- A walk through parts that can be placed reaches the end. -/
theorem exists_placeParts {parts : List Part} (each : ∀ part ∈ parts, part.IsPlaceable mode) (cursor : PackingCursor) :
    ∃ placed, placeParts mode parts cursor = .ok placed := by
  induction parts generalizing cursor with
  | nil => exact ⟨_, rfl⟩
  | cons part rest ih =>
    obtain ⟨own, others⟩ := List.forall_mem_cons.mp each
    obtain ⟨placed, first⟩ : ∃ placed, part.place mode cursor = .ok placed := by
      rcases own.place_cases cursor with ⟨-, -, entered⟩ | ⟨-, -, -, bits, -, -, -, stands⟩
      · exact ⟨_, entered⟩
      · exact ⟨_, stands⟩
    obtain ⟨placed', onward⟩ := ih others placed.2
    exact ⟨(placed.1 ++ placed'.1, placed'.2),
      Attempt.bind_eq_ok.mpr ⟨placed, first, Attempt.bind_eq_ok.mpr ⟨placed', onward, rfl⟩⟩⟩

/-- A walk ends at the first part that is encoded dynamically. -/
theorem placeParts_of_find? {parts : List Part} {part : Part}
    (others : ∀ other ∈ parts, other.isDynamic = false → other.IsPlaceable mode)
    (found : parts.find? Part.isDynamic = some part) (cursor : PackingCursor) :
    placeParts mode parts cursor = unsupported part.type.shape .dynamicPart := by
  obtain ⟨dynamic, before, behind, rfl, static⟩ := List.find?_eq_some_iff_append.mp found
  have placeable : ∀ other ∈ before, other.IsPlaceable mode := fun other listed =>
    others other (List.mem_append_left _ listed) (by simpa using static other listed)
  obtain ⟨placed, reached⟩ := exists_placeParts placeable cursor
  rw [placeParts_append, reached]
  change (placeParts mode (part :: behind) placed.2 >>= _) = _
  rw [placeParts_of_dynamic dynamic]
  rfl

end

end Packing

end YulAbi
