import Mathlib.Data.List.Nodup
import YulAbi.Proofs.Packing.Layout

/-!
# Moving fields into slots

While fields move, the number of bits that each slot has in use is kept apart from the fields.
The two agree: every field lies in front of the end of its slot, and what comes next lies
behind it. So a field in the fullest slot with room for it overlaps none of those there, and
neither does a block behind all slots. A block keeps its own bits, and the slots in it stay as
far from each other as they were.
-/

namespace YulAbi.Packing

/-- A field where it has been moved. -/
def moved (entry : IndexedPlacement × Move) : Placement :=
  ⟨entry.2.slot, entry.2.bitOffset, entry.1.2.bitLength, entry.1.2.label, entry.1.2.shape, entry.1.2.group⟩

/-- Whether fields have been moved in front of the bits in use, without an overlap. -/
structure Settled (slots : List Nat) (entries : List (IndexedPlacement × Move)) : Prop where
  /-- Every move is that of its field. -/
  index : ∀ entry ∈ entries, entry.2.index = entry.1.1
  /-- No slot is too full. -/
  room : ∀ used ∈ slots, used ≤ wordBits
  /-- The bits of a field are in use. -/
  inside : ∀ entry ∈ entries, ∃ used, slots[entry.2.slot]? = some used ∧ (moved entry).bitEnd ≤ used
  /-- Fields do not overlap. -/
  apart : entries.Pairwise fun left right => (moved left).overlaps (moved right) = false

/-- Whether the fields of a block lie in order without an overlap. -/
structure IsBlock (block : List IndexedPlacement) : Prop where
  /-- No field crosses a slot. -/
  fits : ∀ entry ∈ block, entry.2.bitEnd ≤ wordBits
  /-- No field lies before the first one. -/
  first : ∀ entry ∈ block, firstSlot block ≤ entry.2.slot
  /-- Fields do not overlap. -/
  apart : block.Pairwise fun left right => left.2.overlaps right.2 = false

/-- Whether fields of one group have kept their bits and the distances between their slots. -/
def Rigid (entries : List (IndexedPlacement × Move)) : Prop :=
  ∃ shift : Nat → Nat × Nat, ∀ entry ∈ entries, ∀ group ∈ entry.1.2.group,
    entry.2.bitOffset = entry.1.2.bitOffset ∧
      entry.2.slot + (shift group.id).1 = entry.1.2.slot + (shift group.id).2

section

variable {slots later : List Nat} {entries others : List (IndexedPlacement × Move)} {block : List IndexedPlacement}
  {field : IndexedPlacement}

/-- Fields that start behind the bits in use may join. -/
theorem Settled.append (h : Settled slots entries) (room : ∀ used ∈ later, used ≤ wordBits)
    (grown : ∀ (slot used : Nat), slots[slot]? = some used → ∃ more, later[slot]? = some more ∧ used ≤ more)
    (index : ∀ entry ∈ others, entry.2.index = entry.1.1)
    (inside : ∀ entry ∈ others, ∃ used, later[entry.2.slot]? = some used ∧ (moved entry).bitEnd ≤ used)
    (apart : others.Pairwise fun left right => (moved left).overlaps (moved right) = false)
    (behind : ∀ entry ∈ others, ∀ used : Nat, slots[entry.2.slot]? = some used → used ≤ entry.2.bitOffset) :
    Settled later (entries ++ others) := by
  refine ⟨List.forall_mem_append.mpr ⟨h.index, index⟩, room,
    List.forall_mem_append.mpr ⟨fun entry listed => ?_, inside⟩,
    List.pairwise_append.mpr ⟨h.apart, apart, fun left listed right listed' => ?_⟩⟩
  · obtain ⟨used, found, below⟩ := h.inside entry listed
    obtain ⟨more, found', larger⟩ := grown _ _ found
    exact ⟨more, found', Nat.le_trans below larger⟩
  · obtain ⟨used, found, below⟩ := h.inside left listed
    simp only [Placement.overlaps, Bool.and_eq_false_iff, beq_eq_false_iff_ne, decide_eq_false_iff_not]
    by_cases same : left.2.slot = right.2.slot
    · have start := behind right listed' used (same ▸ found)
      exact .inr (Nat.not_lt.mpr (Nat.le_trans below start))
    · exact .inl (.inl same)

/-- Entries of a list with their indices. -/
theorem mem_range_zip {α : Type} {entries : List α} {index : Nat} {entry : α}
    (listed : (index, entry) ∈ (List.range entries.length).zip entries) : entries[index]? = some entry := by
  obtain ⟨position, inside, same⟩ := List.mem_iff_getElem.mp listed
  rw [List.getElem_zip, List.getElem_range, Prod.mk.injEq] at same
  obtain ⟨rfl, rfl⟩ := same
  exact List.getElem?_eq_getElem _

/-- The best slot has room. -/
theorem bestSlot?_spec {width slot : Nat} (h : bestSlot? width slots = some slot) :
    ∃ used, slots[slot]? = some used ∧ used + width ≤ wordBits := by
  obtain ⟨⟨slot', used⟩, found, rfl⟩ := Option.map_eq_some_iff.mp h
  have listed : ∀ chosen ∈ (some (slot', used) : Option (Nat × Nat)), chosen ∈
      ((List.range slots.length).zip slots).filter fun slot => slot.2 + width ≤ wordBits := by
    rw [← found]
    generalize ((List.range slots.length).zip slots).filter (fun slot => slot.2 + width ≤ wordBits) = fitting
    refine List.foldlRecOn (motive := fun best => ∀ chosen ∈ best, chosen ∈ fitting) _ _ nofun
      fun best earlier entry among => ?_
    split
    · rintro _ ⟨⟩
      exact among
    · split
      · rintro _ ⟨⟩
        exact among
      · exact earlier
  obtain ⟨among, fits⟩ := List.mem_filter.mp (listed _ rfl)
  exact ⟨used, mem_range_zip among, of_decide_eq_true fits⟩

/-- A field that moves on its own joins the others. -/
theorem moveField_settles (h : Settled slots entries) (fits : field.2.bitLength ≤ wordBits) :
    Settled (moveField slots field).1 (entries ++ [(field, (moveField slots field).2)]) := by
  unfold moveField
  dsimp only
  cases best : bestSlot? field.2.bitLength slots with
  | some slot =>
    obtain ⟨used, found, room⟩ := bestSlot?_spec best
    refine h.append (fun total listed => ?_) (fun other total found' => ?_) (by simp) ?_
      (List.pairwise_singleton _ _) ?_
    · obtain ⟨other, found'⟩ := List.mem_iff_getElem?.mp listed
      rw [List.getElem?_modify] at found'
      obtain ⟨before, there, rfl⟩ := Option.map_eq_some_iff.mp found'
      split
      · rename_i same
        obtain rfl := Option.some.inj (found.symm.trans (same ▸ there))
        exact room
      · exact h.room before (List.mem_of_getElem? there)
    · refine ⟨_, by rw [List.getElem?_modify, found']; rfl, ?_⟩
      dsimp only
      split <;> omega
    · refine List.forall_mem_singleton.mpr ⟨used + field.2.bitLength, ?_, ?_⟩
      · simp [found]
      · simp [moved, Placement.bitEnd, found]
    · refine List.forall_mem_singleton.mpr fun total found' => ?_
      simp [found'] 
  | none =>
    refine h.append ?_ ?_ (by simp) ?_ (List.pairwise_singleton _ _) ?_
    · exact List.forall_mem_append.mpr ⟨h.room, List.forall_mem_singleton.mpr fits⟩
    · exact fun slot used found =>
        ⟨used, by rw [List.getElem?_append_left (List.getElem?_eq_some_iff.mp found).1, found], Nat.le_refl _⟩
    · exact List.forall_mem_singleton.mpr ⟨field.2.bitLength, by simp, by simp [moved, Placement.bitEnd]⟩
    · exact List.forall_mem_singleton.mpr fun total found => by simp at found

/-- No field lies behind the last slot. -/
theorem slot_le_lastSlot (listed : field ∈ block) : field.2.slot ≤ lastSlot block :=
  le_foldl_max (List.mem_map.mpr ⟨field, listed, rfl⟩)

/-- The last slot is not behind all fields either. -/
theorem lastSlot_le {bound : Nat} (upper : ∀ entry ∈ block, entry.2.slot ≤ bound) : lastSlot block ≤ bound :=
  foldl_max_le_iff.mpr ⟨Nat.zero_le _, List.forall_mem_map.mpr upper⟩

/-- What the fields of a block know of its last slot. -/
theorem IsBlock.tail_spec (h : IsBlock block) : tailUsed block ≤ wordBits ∧
    ∀ entry ∈ block, entry.2.slot ≤ lastSlot block ∧
      (entry.2.slot = lastSlot block → entry.2.bitEnd ≤ tailUsed block) := by
  refine ⟨foldl_max_le_iff.mpr ⟨Nat.zero_le _, fun number listed => ?_⟩, fun entry listed =>
    ⟨slot_le_lastSlot listed, fun last =>
      le_foldl_max (List.mem_map_of_mem (List.mem_filter.mpr ⟨listed, beq_iff_eq.mpr last⟩))⟩⟩
  obtain ⟨entry, among, rfl⟩ := List.mem_map.mp listed
  exact h.fits entry (List.mem_filter.mp among).1

/-- A block that moves behind all slots joins the others. -/
theorem moveBlock_settles (h : Settled slots entries) (whole : IsBlock block) :
    Settled (moveBlock slots block).1 (entries ++ block.zip (moveBlock slots block).2) := by
  obtain ⟨full, last⟩ := whole.tail_spec
  have pairs : block.zip (moveBlock slots block).2 = block.map fun entry =>
      (entry, ⟨entry.1, entry.2.slot - firstSlot block + slots.length, entry.2.bitOffset⟩) :=
    List.map_prod_left_eq_zip.symm
  rw [pairs]
  unfold moveBlock
  dsimp only
  refine h.append ?_ (fun slot used found => ?_) ?_ ?_ ?_ ?_
  · refine List.forall_mem_append.mpr ⟨List.forall_mem_append.mpr ⟨h.room, fun used listed => ?_⟩,
      List.forall_mem_singleton.mpr full⟩
    exact Nat.le_of_eq (List.eq_of_mem_replicate listed)
  · have inside := (List.getElem?_eq_some_iff.mp found).1
    exact ⟨used, by rw [List.append_assoc, List.getElem?_append_left inside, found], Nat.le_refl _⟩
  · exact List.forall_mem_map.mpr fun _ _ => rfl
  · refine List.forall_mem_map.mpr fun entry listed => ?_
    have lower := whole.first entry listed
    obtain ⟨upper, tail⟩ := last entry listed
    have fits := whole.fits entry listed
    rw [List.append_assoc, List.getElem?_append_right (Nat.le_add_left _ _), Nat.add_sub_cancel]
    rcases Nat.lt_or_eq_of_le upper with before | same
    · refine ⟨wordBits, ?_, fits⟩
      rw [List.getElem?_append_left (by rw [List.length_replicate, span]; omega), List.getElem?_replicate,
        if_pos (by rw [span]; omega)]
    · refine ⟨tailUsed block, ?_, tail same⟩
      rw [List.getElem?_append_right (by rw [List.length_replicate, span]; omega), List.length_replicate, span, same]
      simp
  · refine List.pairwise_map.mpr (whole.apart.imp_of_mem fun {left right} listed listed' apart => ?_)
    have lower := whole.first left listed
    have lower' := whole.first right listed'
    simp only [Placement.overlaps, Bool.and_eq_false_iff, beq_eq_false_iff_ne] at apart ⊢
    refine apart.imp_left fun either => either.imp_left fun different same => different ?_
    simp only [moved] at same
    omega
  · refine List.forall_mem_map.mpr fun entry _ used found => ?_
    have inside := (List.getElem?_eq_some_iff.mp found).1
    dsimp only at inside
    omega

/-- Fields that move one after the other join the others. -/
theorem moveFields_settles {fields : List IndexedPlacement} (h : Settled slots entries)
    (fits : ∀ field ∈ fields, field.2.bitLength ≤ wordBits) :
    ∃ new, new.map Prod.fst = fields ∧ new.map Prod.snd = (moveFields slots fields).2 ∧
      Settled (moveFields slots fields).1 (entries ++ new) := by
  induction fields generalizing slots entries with
  | nil => exact ⟨[], rfl, rfl, by simpa [moveFields] using h⟩
  | cons field rest ih =>
    obtain ⟨own, others⟩ := List.forall_mem_cons.mp fits
    obtain ⟨new, fields', moves, settled⟩ := ih (moveField_settles h own) others
    refine ⟨(field, (moveField slots field).2) :: new, by rw [List.map_cons, fields'],
      by rw [List.map_cons, moves]; rfl, ?_⟩
    rw [List.append_assoc] at settled
    exact settled

/-- The fields of a group. -/
def blockOf (fields : List IndexedPlacement) (id : Nat) : List IndexedPlacement :=
  fields.filter fun entry => entry.2.group.map ArrayGroup.id == some id

/-- The fields of a group are those with its number. -/
theorem mem_blockOf {fields : List IndexedPlacement} {id : Nat} :
    field ∈ blockOf fields id ↔ field ∈ fields ∧ field.2.group.map ArrayGroup.id = some id := by
  rw [blockOf, List.mem_filter, beq_iff_eq]

/-- A block keeps its bits and the distances between its slots. -/
theorem moveBlock_shift (whole : IsBlock block) : ∀ entry ∈ block.zip (moveBlock slots block).2,
    entry.2.bitOffset = entry.1.2.bitOffset ∧ entry.2.slot + firstSlot block = entry.1.2.slot + slots.length := by
  have pairs : block.zip (moveBlock slots block).2 = block.map fun entry =>
      (entry, ⟨entry.1, entry.2.slot - firstSlot block + slots.length, entry.2.bitOffset⟩) :=
    List.map_prod_left_eq_zip.symm
  rw [pairs]
  refine List.forall_mem_map.mpr fun entry listed => ⟨rfl, ?_⟩
  have lower := whole.first entry listed
  dsimp only
  omega

/-- Blocks of different groups that move one after the other join the others, and each of them is rigid. -/
theorem moveBlocks_settles {fields : List IndexedPlacement} {ids : List Nat} (h : Settled slots entries)
    (once : ids.Nodup) (whole : ∀ id ∈ ids, IsBlock (blockOf fields id)) :
    ∃ new, new.map Prod.fst = (ids.map (blockOf fields)).flatten ∧
      new.map Prod.snd = (moveBlocks slots (ids.map (blockOf fields))).2 ∧
      Settled (moveBlocks slots (ids.map (blockOf fields))).1 (entries ++ new) ∧ Rigid new := by
  induction ids generalizing slots entries with
  | nil => exact ⟨[], rfl, rfl, by simpa [moveBlocks] using h, fun _ => (0, 0), nofun⟩
  | cons id rest ih =>
    obtain ⟨own, others⟩ := List.forall_mem_cons.mp whole
    obtain ⟨fresh, once'⟩ := List.nodup_cons.mp once
    obtain ⟨new, blocks, moves, settled, shift, rigid⟩ := ih (moveBlock_settles h own) once' others
    let block := blockOf fields id
    have moved' : (moveBlock slots block).2.length = block.length := List.length_map ..
    have left : (block.zip (moveBlock slots block).2).map Prod.fst = block :=
      List.map_fst_zip (Nat.le_of_eq moved'.symm)
    have right : (block.zip (moveBlock slots block).2).map Prod.snd = (moveBlock slots block).2 :=
      List.map_snd_zip (Nat.le_of_eq moved')
    refine ⟨block.zip (moveBlock slots block).2 ++ new, ?_, ?_, ?_,
      fun other => if other = id then (firstSlot block, slots.length) else shift other, ?_⟩
    · rw [List.map_append, left, blocks]
      rfl
    · rw [List.map_append, right, moves]
      rfl
    · rw [List.append_assoc] at settled
      exact settled
    · refine List.forall_mem_append.mpr ⟨fun entry listed group grouped => ?_, fun entry listed group grouped => ?_⟩
      · have among := (mem_blockOf.mp (left ▸ List.mem_map_of_mem listed)).2
        rw [Option.mem_def.mp grouped] at among
        simp only [if_pos (show group.id = id from Option.some.inj among)]
        exact moveBlock_shift own entry listed
      · have among : entry.1 ∈ (rest.map (blockOf fields)).flatten := blocks ▸ List.mem_map_of_mem listed
        obtain ⟨block', listed', inside⟩ := List.mem_flatten.mp among
        obtain ⟨other, listed'', rfl⟩ := List.mem_map.mp listed'
        have number := (mem_blockOf.mp inside).2
        rw [Option.mem_def.mp grouped] at number
        have different : group.id ≠ id := fun same => fresh (same ▸ Option.some.inj number ▸ listed'')
        simp only [if_neg different]
        exact rigid entry listed group grouped

/-- No number is kept twice. -/
theorem nodup_eraseDups (numbers : List Nat) : numbers.eraseDups.Nodup := by
  induction size : numbers.length using Nat.strongRecOn generalizing numbers with
  | _ size ih =>
    cases numbers with
    | nil => exact List.nodup_nil
    | cons number rest =>
      rw [List.eraseDups_cons, List.nodup_cons, List.mem_eraseDups]
      refine ⟨by simp, ih _ (size ▸ ?_) _ rfl⟩
      exact Nat.lt_succ_of_le (List.length_filter_le _ rest)

/-- The numbers of the groups, each once. -/
def groupIds (fields : List IndexedPlacement) : List Nat :=
  (fields.filterMap fun entry => entry.2.group.map ArrayGroup.id).eraseDups

/-- Every field is in one block or outside arrays. -/
theorem blocks_append_freeFields {fields : List IndexedPlacement} (once : fields.Nodup) :
    (((groupIds fields).map (blockOf fields)).flatten ++ freeFields fields).Perm fields := by
  have free : (freeFields fields).Nodup := once.filter _
  have blocks : ((groupIds fields).map (blockOf fields)).flatten.Nodup := by
    rw [← List.flatMap_def, List.nodup_flatMap]
    refine ⟨fun id _ => once.filter _, (nodup_eraseDups _).imp fun {id other} different field listed listed' => ?_⟩
    exact different (Option.some.inj ((mem_blockOf.mp listed).2.symm.trans (mem_blockOf.mp listed').2))
  have mem_blocks : ∀ field, field ∈ ((groupIds fields).map (blockOf fields)).flatten ↔
      field ∈ fields ∧ field.2.group.isSome = true := by
    intro field
    rw [List.mem_flatten]
    constructor
    · rintro ⟨block, listed, inside⟩
      obtain ⟨id, -, rfl⟩ := List.mem_map.mp listed
      obtain ⟨among, number⟩ := mem_blockOf.mp inside
      obtain ⟨group, same, -⟩ := Option.map_eq_some_iff.mp number
      exact ⟨among, Option.isSome_of_eq_some same⟩
    · rintro ⟨listed, grouped⟩
      obtain ⟨group, same⟩ := Option.isSome_iff_exists.mp grouped
      have number : field.2.group.map ArrayGroup.id = some group.id := by rw [same]; rfl
      exact ⟨blockOf fields group.id, List.mem_map_of_mem (List.mem_eraseDups.mpr (List.mem_filterMap.mpr
        ⟨field, listed, number⟩)), mem_blockOf.mpr ⟨listed, number⟩⟩
  rw [List.perm_ext_iff_of_nodup ?_ once]
  · intro field
    rw [List.mem_append, mem_blocks, freeFields, List.mem_filter]
    cases field.2.group <;> simp
  · refine List.nodup_append.mpr ⟨blocks, free, fun field listed other listed' same => ?_⟩
    subst same
    have grouped := ((mem_blocks field).mp listed).2
    have alone := (List.mem_filter.mp listed').2
    rw [Option.isNone_iff_eq_none.mp alone] at grouped
    cases grouped

end

end YulAbi.Packing
