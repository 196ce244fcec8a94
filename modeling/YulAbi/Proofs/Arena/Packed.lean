import YulAbi.Proofs.Arena.Composites
import YulAbi.Proofs.Arena.Made
import YulAbi.Proofs.Shape.Packed

/-!
# Values in a packed layout

A value inside structs, tuples and fixed-size arrays is found by following indices, and it stands
where the offsets on the way add up to. It lies inside one word there: a part that is wider than a
word starts with one, so what is inside it keeps its place in a word, and any other part lies
inside one word with all that it is made of.
-/

namespace YulAbi.Arena

/-- The nodes of the members of a struct or tuple, or of the elements of a fixed-size array, one for each. -/
def packedParts (arena : Arena) (id : NodeId) : List NodeId :=
  match arena.kind id with
  | .array base (some length) => List.replicate length base
  | .struct _ members | .tuple members => members
  | _ => []

/-- The node that indices lead to. -/
def packedPart? (arena : Arena) (id : NodeId) : List Nat → Option NodeId
  | [] => some id
  | index :: rest => (arena.packedParts id)[index]?.bind fun part => arena.packedPart? part rest

/-- The sum of the packed offsets on the way that indices lead. -/
def packedStart (arena : Arena) (id : NodeId) : List Nat → Generated Nat
  | [] => .ok 0
  | index :: rest => do
    let offset ← arena.memberOffset id index .packed
    match (arena.packedParts id)[index]? with
    | some part => return offset + (← arena.packedStart part rest)
    | none => (arena.shape id).unknownPart index

/-- Whether indices lead to a value that takes some bits from a start on. -/
structure PackedAt (arena : Arena) (id : NodeId) (path : List Nat) (start width : Nat) : Prop where
  /-- There is a value of that width. -/
  leads : ∃ leaf, arena.packedPart? id path = some leaf ∧ arena.isValueType leaf = true ∧
    arena.exactBits leaf = .ok width
  /-- The offsets add up to the start. -/
  stands : arena.packedStart id path = .ok start

/-- Whether the parts of a node stand where fields of the given widths do. -/
structure IsPacked (arena : Arena) (id : NodeId) (widths : List Nat) : Prop where
  /-- Each part can be packed itself, and stands where its field starts. -/
  part : ∀ {index : Nat} {part : NodeId}, (arena.packedParts id)[index]? = some part →
    part < arena.size ∧ (arena.shape part).IsPackable ∧
      arena.memberOffset id index .packed = .ok (Shape.fieldStart widths index) ∧
      ∃ inside : index < widths.length, arena.exactBits part = .ok widths[index]
  /-- The node ends with the last field. -/
  ends : arena.exactBits id = .ok (Shape.packedEnd 0 widths)

section

variable {arena : Arena} {id part leaf : NodeId} {index start width start' width' total : Nat}
  {path path' rest : List Nat}

open Shape (fieldStart packedEnd)

/-- There is nothing inside a value. -/
theorem packedParts_of_isValueType (value : arena.isValueType id = true) : arena.packedParts id = [] := by
  rw [isValueType] at value
  rw [packedParts]
  cases own : arena.kind id with
  | array base length | struct name members | tuple members =>
    rw [own] at value
    cases value
  | _ => rfl

/-- The parts of a node come before it and have the shapes of its parts. -/
theorem Sound.packedParts_spec (sound : arena.Sound) (inside : id < arena.size) :
    (∀ part ∈ arena.packedParts id, part < id) ∧
      (arena.packedParts id).map arena.shape = (arena.shape id).packedParts := by
  obtain ⟨kind, shape, own, shaped, stands⟩ := sound.stands inside
  rw [packedParts, own, shaped]
  cases stands with
  | struct name first | tuple first => exact ⟨first, rfl⟩
  | array length first =>
    cases length with
    | none => exact ⟨by simp, rfl⟩
    | some count =>
      exact ⟨fun part listed => List.eq_of_mem_replicate listed ▸ first, List.map_replicate⟩
  | _ => exact ⟨by simp, rfl⟩

/-- A node with parts that can be packed is packed. -/
theorem Sound.exists_isPacked (sound : arena.Sound) (inside : id < arena.size)
    (packable : (arena.shape id).IsPackable) (value : arena.isValueType id = false) :
    ∃ widths, arena.IsPacked id widths := by
  rw [sound.isValueType_eq inside] at value
  obtain ⟨widths, packed⟩ := packable.isValueType_or_isPacked.resolve_left (Bool.eq_false_iff.mp value)
  obtain ⟨first, shapes⟩ := sound.packedParts_spec inside
  refine ⟨widths, fun {index part} found => ?_, by rw [sound.exactBits_eq inside, packed.ends]⟩
  have before : part < arena.size := Nat.lt_trans (first part (List.mem_of_getElem? found)) inside
  have shaped : (arena.shape id).packedParts[index]? = some (arena.shape part) := by
    rw [← shapes, List.getElem?_map, found]
    rfl
  obtain ⟨there, own⟩ := List.getElem?_eq_some_iff.mp shaped
  have counted : index < widths.length := packed.counted ▸ there
  refine ⟨before, packable.of_part (List.mem_of_getElem? shaped), ?_, counted, ?_⟩
  · rw [sound.memberOffset_eq inside, packed.starts index there]
  · rw [sound.exactBits_eq before, ← own, packed.each index there counted]

/-- A value stands at the beginning of itself. -/
theorem packedAt_nil : arena.PackedAt id [] start width ↔
    arena.isValueType id = true ∧ arena.exactBits id = .ok width ∧ start = 0 := by
  constructor
  · rintro ⟨⟨leaf, here, value, measured⟩, stands⟩
    cases here
    cases stands
    exact ⟨value, measured, rfl⟩
  · rintro ⟨value, measured, rfl⟩
    exact ⟨⟨id, rfl, value, measured⟩, rfl⟩

/-- A value inside a part stands where it does in the part, counted from the start of the part. -/
theorem IsPacked.packedAt_cons {widths : List Nat} (packed : arena.IsPacked id widths) :
    arena.PackedAt id (index :: rest) start width ↔ ∃ part inner, (arena.packedParts id)[index]? = some part ∧
      arena.PackedAt part rest inner width ∧ start = fieldStart widths index + inner := by
  constructor
  · rintro ⟨⟨leaf, reached, value, measured⟩, stands⟩
    obtain ⟨part, found, reached⟩ := Option.bind_eq_some_iff.mp reached
    obtain ⟨-, -, offset, -⟩ := packed.part found
    rw [packedStart, offset, found] at stands
    obtain ⟨inner, within, stands⟩ : ∃ inner, arena.packedStart part rest = .ok inner ∧
        Except.ok (fieldStart widths index + inner) = Except.ok start := Attempt.bind_eq_ok.mp stands
    cases stands
    exact ⟨part, inner, found, ⟨⟨leaf, reached, value, measured⟩, within⟩, rfl⟩
  · rintro ⟨part, inner, found, ⟨⟨leaf, reached, value, measured⟩, within⟩, rfl⟩
    obtain ⟨-, -, offset, -⟩ := packed.part found
    refine ⟨⟨leaf, Option.bind_eq_some_iff.mpr ⟨part, found, reached⟩, value, measured⟩, ?_⟩
    rw [packedStart, offset, found]
    exact Attempt.bind_eq_ok.mpr ⟨_, rfl, Attempt.bind_eq_ok.mpr ⟨inner, within, rfl⟩⟩

/-- What something is inside of is no value. -/
theorem isValueType_of_found (found : (arena.packedParts id)[index]? = some part) : arena.isValueType id = false := by
  refine Bool.eq_false_iff.mpr fun value => ?_
  rw [packedParts_of_isValueType value] at found
  cases found

/-- So indices do not lead on from a value. -/
theorem PackedAt.isValueType_eq_false (stands : arena.PackedAt id (index :: rest) start width) :
    arena.isValueType id = false := by
  obtain ⟨leaf, reached, -⟩ := stands.leads
  obtain ⟨part, found, -⟩ := Option.bind_eq_some_iff.mp reached
  exact isValueType_of_found found

/-- Every value that indices lead to stands somewhere. -/
theorem Sound.exists_packedAt (sound : arena.Sound) (inside : id < arena.size)
    (packable : (arena.shape id).IsPackable) (reached : arena.packedPart? id path = some leaf)
    (value : arena.isValueType leaf = true) : ∃ start width, arena.PackedAt id path start width := by
  induction path generalizing id with
  | nil =>
    cases reached
    have wide := Shape.exactBits_of_isValueType _ packable.legal (sound.isValueType_eq inside ▸ value)
    obtain ⟨width, measured, -⟩ := wide
    exact ⟨0, width, packedAt_nil.mpr ⟨value, by rw [sound.exactBits_eq inside, measured], rfl⟩⟩
  | cons index rest ih =>
    obtain ⟨part, found, reached⟩ := Option.bind_eq_some_iff.mp reached
    obtain ⟨widths, packed⟩ := sound.exists_isPacked inside packable (isValueType_of_found found)
    obtain ⟨before, inner, -⟩ := packed.part found
    obtain ⟨start, width, within⟩ := ih before inner reached
    exact ⟨_, width, packed.packedAt_cons.mpr ⟨part, start, found, within, rfl⟩⟩

/-- A value lies inside one word, before the end of the node around it. -/
theorem Sound.packedAt_within (sound : arena.Sound) (inside : id < arena.size)
    (packable : (arena.shape id).IsPackable) (stands : arena.PackedAt id path start width)
    (ends : arena.exactBits id = .ok total) :
    0 < width ∧ start % wordBits + width ≤ wordBits ∧ start + width ≤ total := by
  induction path generalizing id start total with
  | nil =>
    obtain ⟨value, measured, rfl⟩ := packedAt_nil.mp stands
    cases ends.symm.trans measured
    obtain ⟨bits, wide, some, fits⟩ :=
      Shape.exactBits_of_isValueType _ packable.legal (sound.isValueType_eq inside ▸ value)
    rw [← sound.exactBits_eq inside, measured] at wide
    cases wide
    exact ⟨some, by rwa [Nat.zero_mod, Nat.zero_add], Nat.le_of_eq (Nat.zero_add _)⟩
  | cons index rest ih =>
    obtain ⟨widths, packed⟩ := sound.exists_isPacked inside packable stands.isValueType_eq_false
    obtain ⟨part, inner, found, within, rfl⟩ := packed.packedAt_cons.mp stands
    obtain ⟨before, own, -, there, measured⟩ := packed.part found
    obtain ⟨some, word, last⟩ := ih before own within measured
    have total_eq : total = packedEnd 0 widths := Except.ok.inj (ends.symm.trans packed.ends)
    have reach := Shape.fieldStart_add_le_packedEnd there
    have size : wordBits = 256 := rfl
    -- A part that starts with a word keeps what is inside in its place; any other lies inside a word.
    have field := Shape.fieldStart_cases there
    refine ⟨some, ?_, by omega⟩
    rw [size] at field word ⊢
    omega

/-- A value ends before those behind it start. -/
theorem Sound.packedAt_before (sound : arena.Sound) (inside : id < arena.size)
    (packable : (arena.shape id).IsPackable) (stands : arena.PackedAt id path start width)
    (stands' : arena.PackedAt id path' start' width') (before : path < path') : start + width ≤ start' := by
  induction path generalizing id path' start start' with
  | nil =>
    cases path' with
    | nil => cases List.lt_irrefl [] before
    | cons index' rest' =>
      obtain ⟨value, -⟩ := packedAt_nil.mp stands
      rw [stands'.isValueType_eq_false] at value
      cases value
  | cons index rest ih =>
    cases path' with
    | nil => exact absurd before (List.not_lt_nil _)
    | cons index' rest' =>
      obtain ⟨widths, packed⟩ := sound.exists_isPacked inside packable stands.isValueType_eq_false
      obtain ⟨part, inner, found, within, rfl⟩ := packed.packedAt_cons.mp stands
      obtain ⟨part', inner', found', within', rfl⟩ := packed.packedAt_cons.mp stands'
      obtain ⟨earlier, own, -, there, measured⟩ := packed.part found
      rcases List.cons_lt_cons_iff.mp before with first | ⟨rfl, behind⟩
      · have last := (sound.packedAt_within earlier own within measured).2.2
        have reach := Shape.fieldStart_add_le there first
        omega
      · cases found.symm.trans found'
        have apart := ih earlier own within within' behind
        omega

/-- In the packed layout of a struct, tuple or fixed-size array that is encoded statically every value inside has a
place in a single word, and values follow each other in declaration order, which is the order of their indices. No
two of them share a bit, and none is behind the end of the layout. This holds however wide the layout is. -/
theorem packed_geometry_splits_no_field (made : arena.Made) (inside : id < arena.size)
    (composite : arena.isReferenceType id = true) (static : arena.isDynamicallyEncoded id = false) :
    ∃ total, arena.exactBits id = .ok total ∧
      (∀ path leaf, arena.packedPart? id path = some leaf → arena.isValueType leaf = true →
        ∃ start width, arena.PackedAt id path start width) ∧
      ∀ path start width, arena.PackedAt id path start width →
        0 < width ∧ start % wordBits + width ≤ wordBits ∧ start + width ≤ total ∧
        ∀ path' start' width', arena.PackedAt id path' start' width' →
          (path < path' → start + width ≤ start') ∧
          (path ≠ path' → start + width ≤ start' ∨ start' + width' ≤ start) := by
  have sound := made.sound
  have packable : (arena.shape id).IsPackable := by
    refine ⟨sound.legal id inside, ?_, sound.isDynamicallyEncoded_eq inside ▸ static⟩
    rw [sound.isReferenceType_eq inside] at composite
    cases shaped : arena.shape id with
    | error _ _ | event _ _ _ _ =>
      rw [shaped] at composite
      cases composite
    | _ => rfl
  obtain ⟨total, ends⟩ := packable.exists_bits packable.isValueType_or_isPacked
  rw [← sound.exactBits_eq inside] at ends
  refine ⟨total, ends, fun path leaf => sound.exists_packedAt inside packable, fun path start width stands => ?_⟩
  obtain ⟨some, word, last⟩ := sound.packedAt_within inside packable stands ends
  refine ⟨some, word, last, fun path' start' width' stands' =>
    ⟨sound.packedAt_before inside packable stands stands', fun distinct => ?_⟩⟩
  by_cases before : path < path'
  · exact .inl (sound.packedAt_before inside packable stands stands' before)
  · have behind : path' < path := Decidable.byContradiction fun ahead =>
      distinct (List.le_antisymm (List.not_lt.mp ahead) (List.not_lt.mp before))
    exact .inr (sound.packedAt_before inside packable stands' stands behind)

/-- An arena with a struct that has rates between a flag and their total. -/
def ratesArena : Arena :=
  ((Addition.described (.struct "Rates" [⟨"frozen", .bool⟩, ⟨"rates", .array (.array (.uint 96) (some 2)) (some 2)⟩,
    ⟨"total", .uint 128⟩])).run.runOn .empty).2

/-- The second pair of rates starts with a word, because it does not fit behind the first one, and so does the total,
because it does not fit behind the second. -/
theorem rates_split_no_word : ratesArena.exactBits 5 = .ok 896 ∧ ratesArena.PackedAt 5 [1, 1, 0] 512 96 ∧
    512 % wordBits + 96 ≤ wordBits ∧ ratesArena.PackedAt 5 [2] 768 128 ∧ 768 + 128 ≤ 896 ∧ 512 + 96 ≤ 768 := by
  have made : ratesArena.Made := .extended _ .empty fun _ named => nomatch named
  have rate : ratesArena.PackedAt 5 [1, 1, 0] 512 96 := ⟨⟨1, by decide +kernel⟩, by decide +kernel⟩
  have sum : ratesArena.PackedAt 5 [2] 768 128 := ⟨⟨4, by decide +kernel⟩, by decide +kernel⟩
  have wide : ratesArena.exactBits 5 = .ok 896 := by decide +kernel
  obtain ⟨total, ends, -, places⟩ := packed_geometry_splits_no_field made (show 5 < ratesArena.size by decide +kernel)
    (by decide +kernel) (by decide +kernel)
  cases ends.symm.trans wide
  obtain ⟨-, word, -, others⟩ := places _ _ _ rate
  obtain ⟨-, -, last, -⟩ := places _ _ _ sum
  exact ⟨wide, rate, word, sum, last, (others _ _ _ sum).1 (by decide)⟩

end

end YulAbi.Arena
