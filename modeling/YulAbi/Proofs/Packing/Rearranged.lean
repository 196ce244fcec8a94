import Mathlib.Data.List.Forall2
import YulAbi.Proofs.Packing.Bins
import YulAbi.Proofs.Packing.Declared

/-!
# Layouts that are rearranged

Moving the fields of a layout gives a layout of the same fields, in the same order, that is
accepted as well, and in which every array has moved as a block. So the search for a better
layout never fails. What the search looks at, widths and the inside of blocks, is the same
behind a move, hence a second search finds nothing new.
-/

namespace YulAbi.Packing

/-- Whether a layout has the same fields as another one in new places, with arrays moved as blocks. -/
structure Rearranges (before after : PackedLayout) : Prop where
  /-- The type is the same. -/
  root : after.root = before.root
  /-- The mode is the same. -/
  mode : after.mode = before.mode
  /-- Position by position the fields are the same. -/
  fields : List.Forall₂ (fun old new : Placement => new.label = old.label ∧ new.shape = old.shape ∧
    new.bitLength = old.bitLength ∧ new.group = old.group) before.placements after.placements
  /-- The new places are inside of slots, and no two of them overlap. -/
  valid : after.IsValid
  /-- Fields of one array keep their bits and the distances between their slots. -/
  rigid : ∀ first ∈ before.placements.zip after.placements, ∀ second ∈ before.placements.zip after.placements,
    ∀ group ∈ first.1.group, ∀ group' ∈ second.1.group, group.id = group'.id →
      first.2.bitOffset = first.1.bitOffset ∧ second.2.bitOffset = second.1.bitOffset ∧
        first.2.slot + second.1.slot = second.2.slot + first.1.slot

/-- Whether a layout comes from another one by moves, listed in the order of the fields. -/
structure IsMoved (before after : PackedLayout) (entries : List (IndexedPlacement × Move)) : Prop where
  /-- The type is the same. -/
  root : after.root = before.root
  /-- The mode is the same. -/
  mode : after.mode = before.mode
  /-- Every field moves. -/
  fields : entries.map Prod.fst = indexed before.placements
  /-- The new places are those of the moves. -/
  placements : after.placements = entries.map moved
  /-- They are valid. -/
  valid : after.IsValid
  /-- Blocks are rigid. -/
  rigid : Rigid entries

section

variable {before after layout : PackedLayout} {entries : List (IndexedPlacement × Move)} {slots : List Nat}
  {placements : List Placement}

/-- The indices of fields. -/
theorem map_fst_indexed (placements : List Placement) :
    (indexed placements).map Prod.fst = List.range placements.length :=
  List.map_fst_zip (Nat.le_of_eq List.length_range)

/-- The fields themselves. -/
theorem map_snd_indexed (placements : List Placement) : (indexed placements).map Prod.snd = placements :=
  List.map_snd_zip (Nat.le_of_eq List.length_range.symm)

/-- No field is listed twice. -/
theorem nodup_indexed (placements : List Placement) : (indexed placements).Nodup :=
  .of_map Prod.fst (map_fst_indexed placements ▸ List.nodup_range)

/-- The fields before a move. -/
theorem placements_of_map_fst (fields : entries.map Prod.fst = indexed placements) :
    placements = entries.map fun entry => entry.1.2 := by
  rw [← map_snd_indexed placements, ← fields, List.map_map]
  rfl

/-- Layouts with moved fields are rearranged. -/
theorem IsMoved.rearranges (h : IsMoved before after entries) : Rearranges before after := by
  have old := placements_of_map_fst h.fields
  refine ⟨h.root, h.mode, ?_, h.valid, ?_⟩
  · rw [old, h.placements, List.forall₂_map_left_iff, List.forall₂_map_right_iff, List.forall₂_same]
    exact fun _ _ => ⟨rfl, rfl, rfl, rfl⟩
  · obtain ⟨shift, rigid⟩ := h.rigid
    rw [old, h.placements, List.zip_map']
    refine List.forall_mem_map.mpr fun first listed => List.forall_mem_map.mpr fun second listed' => ?_
    intro group grouped group' grouped' same
    obtain ⟨bits, distance⟩ := rigid first listed group grouped
    obtain ⟨bits', distance'⟩ := rigid second listed' group' grouped'
    rw [same] at distance
    refine ⟨bits, bits', ?_⟩
    simp only [moved]
    omega

/-- An index leads to its field. -/
theorem getElem?_of_mem_indexed {entry : IndexedPlacement} (listed : entry ∈ indexed placements) :
    placements[entry.1]? = some entry.2 := mem_range_zip listed

/-- Fields with one index are the same. -/
theorem eq_of_mem_indexed {left right : IndexedPlacement} (listed : left ∈ indexed placements)
    (listed' : right ∈ indexed placements) (same : left.1 = right.1) : left = right := by
  refine Prod.ext same (Option.some.inj ?_)
  rw [← getElem?_of_mem_indexed listed, ← getElem?_of_mem_indexed listed', same]

/-- Fields that have been moved without an overlap make a valid layout. -/
theorem Settled.isValid (settled : Settled slots entries) (valid : layout.IsValid)
    (all : ∀ entry ∈ entries, entry.1 ∈ indexed layout.placements) :
    PackedLayout.IsValid ⟨layout.root, layout.mode, entries.map moved, slots.length⟩ := by
  refine ⟨?_, ?_, ?_, List.pairwise_map.mpr settled.apart⟩ <;> refine List.forall_mem_map.mpr fun entry listed => ?_
  · exact valid.some entry.1.2 (List.mem_of_getElem? (getElem?_of_mem_indexed (all entry listed)))
  · obtain ⟨used, found, below⟩ := settled.inside entry listed
    exact Nat.le_trans below (settled.room used (List.mem_of_getElem? found))
  · obtain ⟨used, found, -⟩ := settled.inside entry listed
    exact (List.getElem?_eq_some_iff.mp found).1

/-- Settled fields may be listed in another order. -/
theorem Settled.perm {others : List (IndexedPlacement × Move)} (h : Settled slots entries)
    (perm : others.Perm entries) :
    Settled slots others := by
  refine ⟨fun entry listed => h.index entry (perm.mem_iff.mp listed), h.room,
    fun entry listed => h.inside entry (perm.mem_iff.mp listed),
    (perm.pairwise_iff fun {left right} apart => ?_).mpr h.apart⟩
  rw [Placement.overlaps_comm]
  exact apart

/-- Moving every field of a valid layout gives a valid layout, in whatever order the moves are found. -/
theorem applyMoves_isMoved (valid : layout.IsValid) (settled : Settled slots entries) (rigid : Rigid entries)
    (all : (entries.map Prod.fst).Perm (indexed layout.placements)) :
    ∃ ordered, ordered.Perm entries ∧ IsMoved layout (applyMoves layout slots (entries.map Prod.snd)) ordered := by
  let ordered := entries.mergeSort fun left right => left.1.1 ≤ right.1.1
  have perm : ordered.Perm entries := List.mergeSort_perm _ _
  have fields : ordered.map Prod.fst = indexed layout.placements := by
    have sorted : ordered.Pairwise fun left right => left.1.1 ≤ right.1.1 := by
      refine (List.pairwise_mergeSort (fun _ _ _ => ?_) (fun _ _ => ?_) entries).imp fun earlier =>
        of_decide_eq_true earlier
      · simpa using Nat.le_trans
      · simpa using Nat.le_total _ _
    have sorted' : (indexed layout.placements).Pairwise fun left right => left.1 ≤ right.1 :=
      List.pairwise_map.mp (map_fst_indexed _ ▸ List.pairwise_le_range)
    have perm' := (perm.map Prod.fst).trans all
    refine List.Perm.eq_of_pairwise (fun left right listed listed' upper lower => ?_)
      (List.pairwise_map.mpr sorted) sorted' perm'
    exact eq_of_mem_indexed (perm'.mem_iff.mp listed) listed' (Nat.le_antisymm upper lower)
  have moves : (entries.map Prod.snd).mergeSort (fun left right => left.index ≤ right.index) =
      ordered.map Prod.snd := by
    refine (List.map_mergeSort fun left listed right listed' => ?_).symm
    rw [settled.index left listed, settled.index right listed']
  have old := placements_of_map_fst fields
  have new : applyMoves layout slots (entries.map Prod.snd) =
      ⟨layout.root, layout.mode, ordered.map moved, slots.length⟩ := by
    simp only [applyMoves, moves, old, List.zipWith_map, List.zipWith_self]
    rfl
  rw [new]
  refine ⟨ordered, perm, rfl, rfl, fields, rfl, (settled.perm perm).isValid valid fun entry listed => ?_, ?_⟩
  · rw [← fields]
    exact List.mem_map_of_mem listed
  · obtain ⟨shift, kept⟩ := rigid
    exact ⟨shift, fun entry listed => kept entry (perm.mem_iff.mp listed)⟩

/-- The groups of a valid layout in which slots do not go down are blocks. -/
theorem isBlock_blockOf (valid : layout.IsValid)
    (ordered : layout.placements.Pairwise fun left right => left.slot ≤ right.slot) (id : Nat) :
    IsBlock (blockOf (indexed layout.placements) id) := by
  have among : ∀ entry ∈ blockOf (indexed layout.placements) id, entry.2 ∈ layout.placements := fun entry listed =>
    List.mem_of_getElem? (getElem?_of_mem_indexed (mem_blockOf.mp listed).1)
  have lift : ∀ {relation : Placement → Placement → Prop}, layout.placements.Pairwise relation →
      (blockOf (indexed layout.placements) id).Pairwise fun left right => relation left.2 right.2 := by
    intro relation pairwise
    rw [← map_snd_indexed layout.placements] at pairwise
    exact (List.pairwise_map.mp pairwise).sublist List.filter_sublist
  refine ⟨fun entry listed => valid.fits _ (among entry listed), fun entry listed => ?_, lift valid.apart⟩
  have rising := lift ordered
  cases block : blockOf (indexed layout.placements) id with
  | nil =>
    rw [block] at listed
    cases listed
  | cons first rest =>
    rw [block] at listed rising
    rcases List.mem_cons.mp listed with rfl | later
    · exact Nat.le_refl _
    · exact (List.pairwise_cons.mp rising).1 entry later

/-- Nothing has been moved into no slots. -/
theorem settled_nil : Settled [] [] := by
  refine ⟨?_, ?_, ?_, .nil⟩ <;> exact nofun

/-- Fields outside arrays may be moved anywhere. -/
theorem Rigid.append_free {others : List (IndexedPlacement × Move)} (h : Rigid entries)
    (free : others.map Prod.fst = widestFirst (freeFields (indexed placements))) :
    Rigid (entries ++ others) ∧ Rigid (others ++ entries) := by
  obtain ⟨shift, kept⟩ := h
  have alone : ∀ entry ∈ others, ∀ group ∈ entry.1.2.group, entry.2.bitOffset = entry.1.2.bitOffset ∧
      entry.2.slot + (shift group.id).1 = entry.1.2.slot + (shift group.id).2 := by
    intro entry listed group grouped
    have among : entry.1 ∈ widestFirst (freeFields (indexed placements)) := free ▸ List.mem_map_of_mem listed
    have none := (List.mem_filter.mp ((List.mergeSort_perm _ _).mem_iff.mp among)).2
    rw [Option.mem_def.mp grouped] at none
    cases none
  exact ⟨⟨shift, List.forall_mem_append.mpr ⟨kept, alone⟩⟩, ⟨shift, List.forall_mem_append.mpr ⟨alone, kept⟩⟩⟩

/-- Fields outside arrays fit into a slot. -/
theorem widestFirst_fits (valid : layout.IsValid) :
    ∀ field ∈ widestFirst (freeFields (indexed layout.placements)), field.2.bitLength ≤ wordBits := by
  intro field listed
  have among := (List.mem_filter.mp ((List.mergeSort_perm _ _).mem_iff.mp listed)).1
  exact Nat.le_trans (Nat.le_add_left _ _) (valid.fits _ (List.mem_of_getElem? (getElem?_of_mem_indexed among)))

/-- Moving blocks first moves all fields of a layout in declaration order: those of arrays into slots that are there when
the others follow. -/
theorem repackBlocksFirst_moves (valid : layout.IsValid)
    (ordered : layout.placements.Pairwise fun left right => left.slot ≤ right.slot) :
    ∃ entries blocks fields, IsMoved layout (repackBlocksFirst layout) entries ∧ entries.Perm (blocks ++ fields) ∧
      blocks.map Prod.fst = (arrayBlocks (indexed layout.placements)).flatten ∧
      blocks.map Prod.snd = (moveBlocks [] (arrayBlocks (indexed layout.placements))).2 ∧
      Settled (moveBlocks [] (arrayBlocks (indexed layout.placements))).1 blocks ∧
      fields.map Prod.fst = widestFirst (freeFields (indexed layout.placements)) ∧
      fields.map Prod.snd = (moveFields (moveBlocks [] (arrayBlocks (indexed layout.placements))).1
        (widestFirst (freeFields (indexed layout.placements)))).2 := by
  have whole : ∀ id ∈ groupIds (indexed layout.placements), IsBlock (blockOf (indexed layout.placements) id) :=
    fun id _ => isBlock_blockOf valid ordered id
  obtain ⟨blocks, same, moves, settled, rigid⟩ := moveBlocks_settles settled_nil (nodup_eraseDups _) whole
  obtain ⟨fields, same', moves', settled'⟩ := moveFields_settles settled (widestFirst_fits valid)
  have all : ((([] ++ blocks) ++ fields).map Prod.fst).Perm (indexed layout.placements) := by
    rw [List.map_append, List.nil_append, same, same']
    exact ((List.mergeSort_perm _ _).append_left _).trans (blocks_append_freeFields (nodup_indexed _))
  obtain ⟨entries, perm, moved'⟩ := applyMoves_isMoved valid settled' (rigid.append_free same').1 all
  rw [List.nil_append] at perm settled
  rw [List.map_append, List.nil_append, moves, moves'] at moved'
  exact ⟨entries, blocks, fields, moved', perm, same, moves, settled, same', moves'⟩

/-- So does moving them last. -/
theorem repackFieldsFirst_isMoved (valid : layout.IsValid)
    (ordered : layout.placements.Pairwise fun left right => left.slot ≤ right.slot) :
    ∃ entries, IsMoved layout (repackFieldsFirst layout) entries := by
  have whole : ∀ id ∈ groupIds (indexed layout.placements), IsBlock (blockOf (indexed layout.placements) id) :=
    fun id _ => isBlock_blockOf valid ordered id
  obtain ⟨fields, same, moves, settled⟩ := moveFields_settles settled_nil (widestFirst_fits valid)
  obtain ⟨blocks, same', moves', settled', rigid⟩ := moveBlocks_settles settled (nodup_eraseDups _) whole
  have all : ((([] ++ fields) ++ blocks).map Prod.fst).Perm (indexed layout.placements) := by
    rw [List.map_append, List.nil_append, same, same']
    exact ((List.mergeSort_perm _ _).append_right _).trans
      (List.perm_append_comm.trans (blocks_append_freeFields (nodup_indexed _)))
  obtain ⟨entries, -, moved'⟩ := applyMoves_isMoved valid settled' (rigid.append_free same).2 all
  rw [List.map_append, List.nil_append, moves, moves'] at moved'
  exact ⟨entries, moved'⟩

/-- A field with its index where it has been moved. -/
def movedEntry (entry : IndexedPlacement × Move) : IndexedPlacement := (entry.1.1, moved entry)

/-- The fields of a layout that comes from another one by moves. -/
theorem IsMoved.indexed_eq (h : IsMoved before after entries) : indexed after.placements = entries.map movedEntry := by
  have count : entries.length = before.placements.length := by
    rw [← List.length_map Prod.fst, h.fields, ← List.length_map Prod.fst, map_fst_indexed, List.length_range]
  have indices : List.range (entries.map moved).length = entries.map fun entry => entry.1.1 := by
    rw [List.length_map, count, ← map_fst_indexed, ← h.fields, List.map_map]
    rfl
  rw [h.placements, indexed, indices, List.zip_map']
  rfl

/-- Fields of the same widths move alike. -/
theorem moveFields_map_movedEntry (entries : List (IndexedPlacement × Move)) (slots : List Nat) :
    moveFields slots (entries.map movedEntry) = moveFields slots (entries.map Prod.fst) := by
  induction entries generalizing slots with
  | nil => rfl
  | cons entry rest ih =>
    have own : moveField slots (movedEntry entry) = moveField slots entry.1 := rfl
    simp only [List.map_cons, moveFields, own, ih]

/-- They are also tried in the same order. -/
theorem widestFirst_map (entries : List (IndexedPlacement × Move)) (field : IndexedPlacement × Move → IndexedPlacement)
    (width : ∀ entry, (field entry).2.bitLength = entry.1.2.bitLength) :
    widestFirst (entries.map field) =
      (entries.mergeSort fun left right => right.1.2.bitLength ≤ left.1.2.bitLength).map field := by
  refine (List.map_mergeSort fun left _ right _ => ?_).symm
  rw [width left, width right]

/-- Some field of a block lies in its last slot. -/
theorem exists_lastSlot {block : List IndexedPlacement} {field : IndexedPlacement} (listed : field ∈ block) :
    ∃ entry ∈ block, entry.2.slot = lastSlot block := by
  by_contra none
  have below : ∀ entry ∈ block, entry.2.slot ≤ lastSlot block - 1 := fun entry among => by
    have different : entry.2.slot ≠ lastSlot block := fun same => none ⟨entry, among, same⟩
    have bound := slot_le_lastSlot among
    omega
  have total := lastSlot_le below
  exact none ⟨field, listed, by have bound := slot_le_lastSlot listed; omega⟩

/-- Whether fields have kept their bits and their slots have gone as far, from one slot to another. -/
def Shifted (source target : Nat) (entries : List (IndexedPlacement × Move)) : Prop :=
  ∀ entry ∈ entries, entry.2.bitOffset = entry.1.2.bitOffset ∧ entry.2.slot + source = entry.1.2.slot + target

/-- The last slot has gone as far. -/
theorem lastSlot_map_movedEntry {source target : Nat} (kept : Shifted source target entries) (some : entries ≠ []) :
    lastSlot (entries.map movedEntry) + source = lastSlot (entries.map Prod.fst) + target := by
  obtain ⟨first, inside⟩ := List.exists_mem_of_ne_nil entries some
  obtain ⟨_, among, last⟩ := exists_lastSlot (List.mem_map_of_mem (f := Prod.fst) inside)
  obtain ⟨entry, listed, rfl⟩ := List.mem_map.mp among
  have own := (kept entry listed).2
  have upper : entry.2.slot ≤ lastSlot (entries.map movedEntry) :=
    slot_le_lastSlot (List.mem_map_of_mem (f := movedEntry) listed)
  have lower : lastSlot (entries.map movedEntry) ≤ entry.2.slot := by
    refine lastSlot_le (List.forall_mem_map.mpr fun other listed' => ?_)
    have distance := (kept other listed').2
    have bound := slot_le_lastSlot (List.mem_map_of_mem (f := Prod.fst) listed')
    change other.2.slot ≤ entry.2.slot
    omega
  omega

/-- As many bits are in use there. -/
theorem tailUsed_map_movedEntry {source target : Nat} (kept : Shifted source target entries) (some : entries ≠ []) :
    tailUsed (entries.map movedEntry) = tailUsed (entries.map Prod.fst) := by
  have back := lastSlot_map_movedEntry kept some
  have last : ∀ entry ∈ entries, (entry.2.slot == lastSlot (entries.map movedEntry)) =
      (entry.1.2.slot == lastSlot (entries.map Prod.fst)) := by
    intro entry listed
    have distance := (kept entry listed).2
    rw [Bool.eq_iff_iff, beq_iff_eq, beq_iff_eq]
    omega
  have used : ∀ place : IndexedPlacement × Move → IndexedPlacement, tailUsed (entries.map place) =
      ((entries.filter fun entry => (place entry).2.slot == lastSlot (entries.map place)).map
        fun entry => (place entry).2.bitEnd).foldl max 0 := by
    intro place
    simp only [tailUsed, List.filter_map, List.map_map]
    rfl
  rw [used, used, List.filter_congr (q := fun entry => entry.1.2.slot == lastSlot (entries.map Prod.fst)) last]
  refine congrArg (List.foldl max 0) (List.map_congr_left fun entry listed => ?_)
  have bits := (kept entry (List.mem_filter.mp listed).1).1
  simp only [movedEntry, moved, Placement.bitEnd, bits]

/-- A block that has moved as a whole moves as before. -/
theorem moveBlock_map_movedEntry {source target : Nat} (kept : Shifted source target entries) (slots : List Nat) :
    moveBlock slots (entries.map movedEntry) = moveBlock slots (entries.map Prod.fst) := by
  cases entries with
  | nil => rfl
  | cons first rest =>
    have front : firstSlot ((first :: rest).map movedEntry) + source =
        firstSlot ((first :: rest).map Prod.fst) + target := (kept first List.mem_cons_self).2
    have back := lastSlot_map_movedEntry kept (List.cons_ne_nil first rest)
    have tail := tailUsed_map_movedEntry kept (List.cons_ne_nil first rest)
    generalize first :: rest = entries at kept front back tail
    have width : span (entries.map movedEntry) = span (entries.map Prod.fst) := by
      rw [span, span]
      omega
    unfold moveBlock
    rw [width, tail, List.map_map, List.map_map]
    refine Prod.ext rfl (List.map_congr_left fun entry listed => ?_)
    obtain ⟨bits, distance⟩ := kept entry listed
    simp only [Function.comp_apply, movedEntry, moved, bits, Move.mk.injEq, true_and, and_true]
    omega

/-- Blocks that have moved as wholes move as before, one after the other. -/
theorem moveBlocks_map_movedEntry (rigid : Rigid entries) (ids slots : List Nat) :
    moveBlocks slots (ids.map (blockOf (entries.map movedEntry))) =
      moveBlocks slots (ids.map (blockOf (entries.map Prod.fst))) := by
  obtain ⟨shift, kept⟩ := rigid
  induction ids generalizing slots with
  | nil => rfl
  | cons id rest ih =>
    have own : moveBlock slots (blockOf (entries.map movedEntry) id) =
        moveBlock slots (blockOf (entries.map Prod.fst) id) := by
      rw [blockOf, blockOf, List.filter_map, List.filter_map]
      have shifted : Shifted (shift id).1 (shift id).2
          (entries.filter fun entry => entry.1.2.group.map ArrayGroup.id == some id) := by
        intro entry listed
        obtain ⟨among, number⟩ := List.mem_filter.mp listed
        obtain ⟨group, grouped, rfl⟩ := Option.map_eq_some_iff.mp (beq_iff_eq.mp number)
        exact kept entry among group grouped
      exact moveBlock_map_movedEntry shifted slots
    simp only [List.map_cons, moveBlocks, own, ih]

/-- Moving the fields once more leads to the same places. -/
theorem IsMoved.repackBlocksFirst_eq (h : IsMoved before after entries) :
    repackBlocksFirst after = repackBlocksFirst before := by
  have ids : groupIds (entries.map movedEntry) = groupIds (entries.map Prod.fst) := by
    rw [groupIds, groupIds, List.filterMap_map, List.filterMap_map]
    rfl
  have free : ∀ slots, moveFields slots (widestFirst (freeFields (entries.map movedEntry))) =
      moveFields slots (widestFirst (freeFields (entries.map Prod.fst))) := by
    intro slots
    rw [freeFields, freeFields, List.filter_map, List.filter_map, widestFirst_map _ movedEntry fun _ => rfl,
      widestFirst_map _ Prod.fst fun _ => rfl]
    exact moveFields_map_movedEntry _ slots
  have blocks : ∀ slots, moveBlocks slots (arrayBlocks (entries.map movedEntry)) =
      moveBlocks slots (arrayBlocks (entries.map Prod.fst)) := by
    intro slots
    change moveBlocks slots ((groupIds (entries.map movedEntry)).map _) = moveBlocks slots ((groupIds _).map _)
    rw [ids]
    exact moveBlocks_map_movedEntry h.rigid _ slots
  have same : ∀ slots moves, applyMoves after slots moves = applyMoves before slots moves := by
    intro slots moves
    simp only [applyMoves, h.root, h.mode, h.placements, placements_of_map_fst h.fields, List.zipWith_map_left]
    rfl
  simp only [repackBlocksFirst, h.indexed_eq, ← h.fields, blocks, free, same]

/-- A layout is rearranged into itself. -/
theorem Rearranges.refl (valid : layout.IsValid) : Rearranges layout layout := by
  refine ⟨rfl, rfl, List.forall₂_same.mpr fun _ _ => ⟨rfl, rfl, rfl, rfl⟩, valid, ?_⟩
  have same : ∀ entry ∈ layout.placements.zip layout.placements, entry.2 = entry.1 := by
    intro entry listed
    obtain ⟨index, inside, rfl⟩ := List.mem_iff_getElem.mp listed
    rw [List.getElem_zip]
  intro first listed second listed' _ _ _ _ _
  rw [same first listed, same second listed']
  exact ⟨rfl, rfl, Nat.add_comm _ _⟩

/-- The better layout that is found is a rearranged one with fewer slots, or the layout itself. -/
theorem optimize_spec (valid : layout.IsValid)
    (ordered : layout.placements.Pairwise fun left right => left.slot ≤ right.slot) :
    ∃ optimized, optimize layout = .ok optimized ∧ Rearranges layout optimized ∧
      (optimized = layout ∨ optimized.slotCount < layout.slotCount) ∧ optimize optimized = .ok optimized := by
  obtain ⟨entries, -, -, moves, -⟩ := repackBlocksFirst_moves valid ordered
  have accepted := PackedLayout.validate_eq_ok_iff.mpr moves.valid
  have found : optimize layout =
      .ok (if (repackBlocksFirst layout).slotCount < layout.slotCount then repackBlocksFirst layout else layout) := by
    rw [optimize, accepted]
    rfl
  by_cases fewer : (repackBlocksFirst layout).slotCount < layout.slotCount
  · rw [if_pos fewer] at found
    refine ⟨_, found, moves.rearranges, .inr fewer, ?_⟩
    rw [optimize, moves.repackBlocksFirst_eq, accepted]
    exact congrArg Except.ok (if_neg (Nat.lt_irrefl _))
  · rw [if_neg fewer] at found
    exact ⟨layout, found, .refl valid, .inl rfl, found⟩

end

/-- The layouts of a type in an arena may be rearranged safely: the search for a better layout and the layout with the
fields outside arrays in front are never refused, and both have the same fields with arrays moved as blocks. A better
layout takes fewer slots or is the given one, and searching once more changes nothing. -/
theorem repacking_rearranges {arena : Arena} (made : arena.Made) {id : NodeId} (inside : id < arena.size)
    {mode : PackingMode} {layout : PackedLayout} (placed : place (arena.typeAt id) mode = .ok layout) :
    ∃ optimized fieldsFirst, optimize layout = .ok optimized ∧ packFieldsFirst layout = .ok fieldsFirst ∧
      Rearranges layout optimized ∧ Rearranges layout fieldsFirst ∧ optimized.slotCount ≤ layout.slotCount ∧
      (optimized = layout ∨ optimized.slotCount < layout.slotCount) ∧ optimize optimized = .ok optimized := by
  have legal := made.sound.isLegal_typeAt inside
  obtain ⟨valid, ordered⟩ := place_spec legal placed
  obtain ⟨optimized, found, rearranged, better, again⟩ := optimize_spec valid ordered
  obtain ⟨entries, moves⟩ := repackFieldsFirst_isMoved valid ordered
  have packed : packFieldsFirst layout = .ok (repackFieldsFirst layout) := by
    rw [packFieldsFirst, PackedLayout.validate_eq_ok_iff.mpr moves.valid]
    rfl
  refine ⟨optimized, _, found, packed, rearranged, moves.rearranges, ?_, better, again⟩
  rcases better with rfl | fewer
  · exact Nat.le_refl _
  · exact Nat.le_of_lt fewer

/-- The struct with an array of arrays takes two slots and not four when its last member and its first one follow the
array. -/
theorem ledger_repacking_rearranges : ∃ layout optimized fieldsFirst,
    place (ledgerArena.typeAt 6) .bits = .ok layout ∧ optimize layout = .ok optimized ∧
      packFieldsFirst layout = .ok fieldsFirst ∧ Rearranges layout optimized ∧ Rearranges layout fieldsFirst ∧
      layout.slotCount = 4 ∧ optimized.slotCount = 2 ∧ optimize optimized = .ok optimized := by
  have made : ledgerArena.Made :=
    .extended _ (.extended _ .empty fun _ named => nomatch named) fun _ named => nomatch named
  have inside : 6 < ledgerArena.size := by decide +kernel
  have counted : ((place (ledgerArena.typeAt 6) .bits).toOption.map fun layout =>
      (layout.placements, layout.slotCount)) = some (ledgerFields, 4) := by decide +kernel
  obtain ⟨layout, placed⟩ : ∃ layout, place (ledgerArena.typeAt 6) .bits = .ok layout := by
    cases result : place (ledgerArena.typeAt 6) .bits with
    | error _ => simp [result, Except.toOption] at counted
    | ok layout => exact ⟨layout, rfl⟩
  obtain ⟨optimized, fieldsFirst, found, packed, rearranged, rearranged', -, -, again⟩ :=
    repacking_rearranges made inside placed
  simp only [placed, Except.toOption, Option.map_some, Option.some.injEq, Prod.mk.injEq] at counted
  have widest : widestFirst (freeFields (indexed ledgerFields)) =
      [(5, ⟨3, 0, 128, "total", .integer false 128, none⟩), (0, ⟨0, 0, 8, "frozen", .bool, none⟩)] := by
    simp [widestFirst, freeFields, indexed, ledgerFields, List.range_succ, List.mergeSort]
  have fewer : (repackBlocksFirst layout).slotCount = 2 := by
    change (moveFields (moveBlocks [] (arrayBlocks (indexed layout.placements))).1
      (widestFirst (freeFields (indexed layout.placements)))).1.length = 2
    rw [counted.1, widest]
    decide +kernel
  have better : optimized.slotCount = 2 := by
    obtain ⟨_, -, chosen⟩ := Attempt.bind_eq_ok.mp found
    rw [if_pos (by rw [fewer, counted.2]; decide)] at chosen
    cases chosen
    exact fewer
  exact ⟨layout, optimized, fieldsFirst, placed, found, packed, rearranged, rearranged', counted.2, better, again⟩

end YulAbi.Packing
