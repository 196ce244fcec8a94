import Mathlib.Algebra.Order.BigOperators.Group.List
import Mathlib.Algebra.Order.Group.Nat
import YulAbi.Proofs.Packing.Rearranged

/-!
# How dense repacked layouts are

A field outside arrays gets a slot of its own only if there is room for it in no other slot.
So any two slots that were opened for such fields hold more bits together than one slot has,
and on average they are more than half full. The other slots are those that the arrays span.
-/

namespace YulAbi

namespace PackedLayout

/-- The number of bits that fields take in a slot. -/
def bitsAt (layout : PackedLayout) (slot : Nat) : Nat :=
  ((layout.placements.filter (·.slot == slot)).map Placement.bitLength).sum

/-- Whether there are fields in a slot, and none of them belongs to an array. -/
def IsFree (layout : PackedLayout) (slot : Nat) : Prop :=
  (∃ placement ∈ layout.placements, placement.slot = slot) ∧
    ∀ placement ∈ layout.placements, placement.slot = slot → placement.group = none

/-- The number of bits that fields outside arrays take. -/
def freeBits (layout : PackedLayout) : Nat :=
  ((layout.placements.filter (·.group.isNone)).map Placement.bitLength).sum

/-- The number of slots that arrays span. -/
def spannedSlots (layout : PackedLayout) : Nat :=
  ((Packing.arrayBlocks (Packing.indexed layout.placements)).map Packing.span).sum

end PackedLayout

namespace Packing

/-- The number of bits in use in a slot; where there is no slot, none is. -/
def usedAt (slots : List Nat) (slot : Nat) : Nat := slots[slot]?.getD 0

/-- The number of bits that have been moved into a slot. -/
def movedInto (entries : List (IndexedPlacement × Move)) (slot : Nat) : Nat :=
  ((entries.filter (·.2.slot == slot)).map (·.1.2.bitLength)).sum

/-- Whether fields have been moved into slots without opening one that was not needed. -/
structure Fills (slots later : List Nat) (entries : List (IndexedPlacement × Move)) : Prop where
  /-- No slot is closed. -/
  grown : slots.length ≤ later.length
  /-- Fields are there where they have been moved. -/
  load : ∀ slot, usedAt later slot = usedAt slots slot + movedInto entries slot
  /-- Nothing else is in use. -/
  total : later.sum = slots.sum + (entries.map (·.1.2.bitLength)).sum
  /-- A field in a slot that was there had room. -/
  room : ∀ entry ∈ entries, entry.2.slot < slots.length →
    usedAt slots entry.2.slot + entry.1.2.bitLength ≤ wordBits
  /-- A slot that was opened could not be spared. -/
  crowded : ∀ slot earlier, slots.length ≤ slot → slot < later.length → earlier < slot →
    wordBits < usedAt later earlier + usedAt later slot

section

variable {slots later last : List Nat} {entries others : List (IndexedPlacement × Move)}

/-- What is in use in all slots after another field has joined one of them. -/
theorem sum_modify {slot used : Nat} (found : slots[slot]? = some used) (width : Nat) :
    (slots.modify slot (· + width)).sum = slots.sum + width := by
  induction slots generalizing slot with
  | nil => cases found
  | cons first rest ih =>
    cases slot with
    | zero =>
      rw [List.modify_zero_cons, List.sum_cons, List.sum_cons]
      omega
    | succ slot =>
      rw [List.modify_succ_cons, List.sum_cons, List.sum_cons, ih found]
      omega

/-- A field that fits into no slot fits into none of them. -/
theorem bestSlot?_none {width : Nat} (h : bestSlot? width slots = none) :
    ∀ slot < slots.length, wordBits < usedAt slots slot + width := by
  have none := Option.map_eq_none_iff.mp h
  intro slot inside
  refine Nat.lt_of_not_le fun fits => ?_
  have listed : (slot, usedAt slots slot) ∈ (List.range slots.length).zip slots := by
    refine List.mem_iff_getElem.mpr ⟨slot, by simpa using inside, ?_⟩
    rw [List.getElem_zip, List.getElem_range, usedAt, List.getElem?_eq_getElem inside]
    rfl
  have among : (slot, usedAt slots slot) ∈
      ((List.range slots.length).zip slots).filter fun slot => slot.2 + width ≤ wordBits :=
    List.mem_filter.mpr ⟨listed, decide_eq_true fits⟩
  -- Once there is a slot with room, the search stays with one.
  generalize ((List.range slots.length).zip slots).filter (fun slot => slot.2 + width ≤ wordBits) = fitting
    at none among
  cases fitting with
  | nil => cases among
  | cons first rest =>
    rw [List.foldl_cons] at none
    refine List.foldlRecOn (motive := (· ≠ Option.none)) rest _ (fun absent => Option.some_ne_none first absent)
      (fun best found entry _ => ?_) none
    split
    · exact Option.some_ne_none _
    · split <;> exact Option.some_ne_none _

/-- What is moved later joins what was moved before. -/
theorem movedInto_append (slot : Nat) :
    movedInto (entries ++ others) slot = movedInto entries slot + movedInto others slot := by
  rw [movedInto, List.filter_append, List.map_append, List.sum_append]
  rfl

/-- Fields may be moved one after the other. -/
theorem Fills.append (h : Fills slots later entries) (h' : Fills later last others) :
    Fills slots last (entries ++ others) := by
  refine ⟨Nat.le_trans h.grown h'.grown, fun slot => ?_, ?_, fun entry listed inside => ?_,
    fun slot earlier opened inside before => ?_⟩
  · rw [h'.load, h.load, movedInto_append, Nat.add_assoc]
  · rw [h'.total, h.total, List.map_append, List.sum_append, Nat.add_assoc]
  · rcases List.mem_append.mp listed with first | second
    · exact h.room entry first inside
    · have room := h'.room entry second (Nat.lt_of_lt_of_le inside h.grown)
      rw [h.load] at room
      omega
  · by_cases there : slot < later.length
    · have crowded := h.crowded slot earlier opened there before
      rw [h'.load earlier, h'.load slot]
      omega
    · exact h'.crowded slot earlier (Nat.le_of_not_lt there) inside before

/-- A field that moves on its own. -/
theorem moveField_fills (slots : List Nat) (field : IndexedPlacement) :
    Fills slots (moveField slots field).1 [(field, (moveField slots field).2)] := by
  unfold moveField
  dsimp only
  cases best : bestSlot? field.2.bitLength slots with
  | some slot =>
    obtain ⟨used, found, room⟩ := bestSlot?_spec best
    have usage : usedAt slots slot = used := by rw [usedAt, found]; rfl
    refine ⟨by simp, fun other => ?_, ?_, ?_, fun other earlier opened inside before => ?_⟩
    · rw [usedAt, usedAt, List.getElem?_modify, movedInto]
      by_cases same : slot = other
      · subst same
        simp [found]
      · simp [same]
    · rw [sum_modify found]
      simp
    · simpa [usage] using fun _ => room
    · simp only [List.length_modify] at inside
      omega
  | none =>
    have full := bestSlot?_none best
    refine ⟨by simp, fun other => ?_, by simp, ?_, fun other earlier opened inside before => ?_⟩
    · rw [usedAt, usedAt, movedInto]
      rcases Nat.lt_trichotomy other slots.length with less | rfl | more
      · simp [List.getElem?_append_left less, Nat.ne_of_gt less]
      · simp
      · rw [List.getElem?_eq_none (by rw [List.length_append]; exact more), List.getElem?_eq_none (Nat.le_of_lt more)]
        simp [Nat.ne_of_lt more]
    · simp
    · rw [List.length_append, List.length_singleton] at inside
      obtain rfl : other = slots.length := by omega
      have own : usedAt (slots ++ [field.2.bitLength]) slots.length = field.2.bitLength := by simp [usedAt]
      have there : usedAt (slots ++ [field.2.bitLength]) earlier = usedAt slots earlier := by
        rw [usedAt, usedAt, List.getElem?_append_left before]
      rw [own, there]
      exact full earlier before

/-- Fields that move one after the other. -/
theorem moveFields_fills (fields : List IndexedPlacement) (slots : List Nat) :
    Fills slots (moveFields slots fields).1 (fields.zip (moveFields slots fields).2) := by
  induction fields generalizing slots with
  | nil => exact ⟨Nat.le_refl _, fun _ => rfl, rfl, nofun, fun slot _ opened inside _ => by
      rw [moveFields] at inside
      exact absurd inside (Nat.not_lt_of_le opened)⟩
  | cons field rest ih => exact (moveField_fills slots field).append (ih _)

/-- Numbers any two of which have a large sum have a large sum together. The induction takes two of them at a time. -/
theorem lt_sum_of_crowded : ∀ {numbers : List Nat}, numbers.Pairwise (fun left right => wordBits < left + right) →
    2 ≤ numbers.length → 128 * numbers.length < numbers.sum
  | [], _, several => absurd several (by decide)
  | [_], _, several => absurd several (Nat.lt_irrefl 1)
  | [first, second], crowded, _ => by
    simp only [List.pairwise_cons, List.mem_singleton, forall_eq, wordBits] at crowded
    simp only [List.length_cons, List.length_nil, List.sum_cons, List.sum_nil]
    omega
  | [first, second, third], crowded, _ => by
    simp only [List.pairwise_cons, List.forall_mem_cons, wordBits] at crowded
    simp only [List.length_cons, List.length_nil, List.sum_cons, List.sum_nil]
    omega
  | first :: second :: third :: fourth :: rest, crowded, _ => by
    obtain ⟨own, later⟩ := List.pairwise_cons.mp crowded
    have others := lt_sum_of_crowded (List.pairwise_cons.mp later).2 (by simp)
    have pair := own second List.mem_cons_self
    simp only [List.length_cons, List.sum_cons, wordBits] at others pair ⊢
    omega

/-- Slots that were opened for fields are more than half full on average, if there are several of them. -/
theorem Fills.dense (h : Fills slots later entries) (several : slots.length + 2 ≤ later.length) :
    128 * (later.length - slots.length) < (entries.map (·.1.2.bitLength)).sum := by
  have crowded : (later.drop slots.length).Pairwise fun left right => wordBits < left + right := by
    refine List.pairwise_iff_getElem.mpr fun earlier slot inside inside' before => ?_
    rw [List.length_drop] at inside inside'
    have pair := h.crowded (slots.length + slot) (slots.length + earlier) (Nat.le_add_right _ _) (by omega) (by omega)
    rw [usedAt, usedAt, List.getElem?_eq_getElem (by omega), List.getElem?_eq_getElem (by omega)] at pair
    simpa using pair
  have opened := lt_sum_of_crowded crowded (by rw [List.length_drop]; omega)
  have kept : slots.sum ≤ (later.take slots.length).sum := by
    refine List.Forall₂.sum_le_sum (List.forall₂_iff_get.mpr ⟨?_, fun slot inside inside' => ?_⟩)
    · have grown := h.grown
      rw [List.length_take]
      omega
    · have load := h.load slot
      rw [usedAt, usedAt, List.getElem?_eq_getElem inside,
        List.getElem?_eq_getElem (Nat.lt_of_lt_of_le inside h.grown)] at load
      simp only [Option.getD_some] at load
      simp only [List.get_eq_getElem, List.getElem_take]
      omega
  have whole := List.sum_take_add_sum_drop later slots.length
  have total := h.total
  rw [List.length_drop] at opened
  omega

/-- A block takes the slots that it spans. Each of them is full, or the last one of the block. -/
theorem moveBlock_occupies (slots : List Nat) {block : List IndexedPlacement} (some : block ≠ []) :
    (moveBlock slots block).1.length = slots.length + span block ∧
      (∀ slot < slots.length, usedAt (moveBlock slots block).1 slot = usedAt slots slot) ∧
      ∀ slot, slots.length ≤ slot → slot < slots.length + span block →
        usedAt (moveBlock slots block).1 slot = wordBits ∨ ∃ move ∈ (moveBlock slots block).2, move.slot = slot := by
  have positive : 0 < span block := Nat.succ_pos _
  rw [moveBlock, List.append_assoc]
  refine ⟨?_, fun slot before => ?_, fun slot behind inside => ?_⟩
  · simp only [List.length_append, List.length_replicate, List.length_singleton]
    omega
  · rw [usedAt, usedAt, List.getElem?_append_left before]
  · by_cases last : slot + 1 = slots.length + span block
    · obtain ⟨entry, listed, ends⟩ := exists_lastSlot (List.head_mem some)
      refine .inr ⟨_, List.mem_map_of_mem listed, ?_⟩
      rw [ends]
      rw [span] at last
      dsimp only
      omega
    · left
      rw [usedAt, List.getElem?_append_right behind, List.getElem?_append_left (by rw [List.length_replicate]; omega),
        List.getElem?_replicate, if_pos (by omega)]
      rfl

/-- Blocks take the slots that they span. Each of them is full, or the last one of its block. -/
theorem moveBlocks_occupies (slots : List Nat) {blocks : List (List IndexedPlacement)}
    (some : ∀ block ∈ blocks, block ≠ []) :
    (moveBlocks slots blocks).1.length = slots.length + (blocks.map span).sum ∧
      (∀ slot < slots.length, usedAt (moveBlocks slots blocks).1 slot = usedAt slots slot) ∧
      ∀ slot, slots.length ≤ slot → slot < (moveBlocks slots blocks).1.length →
        usedAt (moveBlocks slots blocks).1 slot = wordBits ∨ ∃ move ∈ (moveBlocks slots blocks).2, move.slot = slot := by
  induction blocks generalizing slots with
  | nil => exact ⟨rfl, fun _ _ => rfl, fun slot behind inside => absurd inside (Nat.not_lt_of_le behind)⟩
  | cons block rest ih =>
    obtain ⟨own, others⟩ := List.forall_mem_cons.mp some
    obtain ⟨length, before, taken⟩ := moveBlock_occupies slots own
    obtain ⟨length', before', taken'⟩ := ih (moveBlock slots block).1 others
    refine ⟨?_, fun slot inside => ?_, fun slot behind inside => ?_⟩
    · rw [moveBlocks]
      dsimp only
      rw [length', length, List.map_cons, List.sum_cons, Nat.add_assoc]
    · rw [moveBlocks]
      dsimp only
      rw [before' slot (by omega), before slot inside]
    · rw [moveBlocks] at inside ⊢
      dsimp only at inside ⊢
      by_cases first : slot < slots.length + span block
      · rw [before' slot (by omega)]
        rcases taken slot behind first with full | ⟨move, listed, there⟩
        · exact .inl full
        · exact .inr ⟨move, List.mem_append_left _ listed, there⟩
      · rcases taken' slot (by omega) inside with full | ⟨move, listed, there⟩
        · exact .inl full
        · exact .inr ⟨move, List.mem_append_right _ listed, there⟩

/-- No block is empty. -/
theorem ne_nil_of_mem_arrayBlocks {fields block : List IndexedPlacement} (listed : block ∈ arrayBlocks fields) :
    block ≠ [] := by
  obtain ⟨id, among, rfl⟩ := List.mem_map.mp (show block ∈ (groupIds fields).map (blockOf fields) from listed)
  obtain ⟨field, inside, number⟩ := List.mem_filterMap.mp (List.mem_eraseDups.mp among)
  exact List.ne_nil_of_mem (mem_blockOf.mpr ⟨inside, number⟩)

/-- The fields of blocks belong to arrays. -/
theorem group_of_mem_arrayBlocks {fields : List IndexedPlacement} {field : IndexedPlacement}
    (listed : field ∈ (arrayBlocks fields).flatten) : field.2.group ≠ none := by
  obtain ⟨block, among, inside⟩ := List.mem_flatten.mp listed
  obtain ⟨id, -, rfl⟩ := List.mem_map.mp (show block ∈ (groupIds fields).map (blockOf fields) from among)
  have number := (mem_blockOf.mp inside).2
  intro alone
  rw [alone] at number
  cases number

/-- The widths of the fields outside arrays, in whatever order. -/
theorem freeBits_eq {layout : PackedLayout} {fields : List (IndexedPlacement × Move)}
    (all : fields.map Prod.fst = widestFirst (freeFields (indexed layout.placements))) :
    layout.freeBits = (fields.map (·.1.2.bitLength)).sum := by
  have widths : fields.map (·.1.2.bitLength) = (fields.map Prod.fst).map (·.2.bitLength) := by
    rw [List.map_map]
    rfl
  have free : layout.placements.filter (·.group.isNone) = (freeFields (indexed layout.placements)).map Prod.snd := by
    conv_lhs => rw [← map_snd_indexed layout.placements, List.filter_map]
    rfl
  rw [PackedLayout.freeBits, widths, all, free, List.map_map]
  exact ((List.mergeSort_perm _ _).map _).sum_nat.symm

/-- Fields outside arrays move into slots as densely as they can. -/
theorem fields_fill {start : List Nat} {free : List IndexedPlacement} (all : entries.map Prod.fst = free)
    (moves : entries.map Prod.snd = (moveFields start free).2) : Fills start (moveFields start free).1 entries := by
  have pairs : entries = free.zip (moveFields start free).2 := by
    rw [← moves, ← all, List.zip_map']
    exact (List.map_id' entries).symm
  have fills := moveFields_fills free start
  rwa [← pairs] at fills

section

variable {layout candidate : PackedLayout} {blocks fields : List (IndexedPlacement × Move)} {slot : Nat}
  (isMoved : IsMoved layout candidate entries) (perm : entries.Perm (blocks ++ fields))

include isMoved perm

/-- A slot behind those of the blocks is as full as the fields that have moved into it. -/
theorem bitsAt_eq (settled : Settled slots blocks) (fills : Fills slots later fields) (behind : slots.length ≤ slot) :
    candidate.bitsAt slot = usedAt later slot := by
  have moves : candidate.bitsAt slot = movedInto entries slot := by
    rw [PackedLayout.bitsAt, isMoved.placements, List.filter_map, List.map_map]
    rfl
  have together : movedInto entries slot = movedInto (blocks ++ fields) slot := ((perm.filter _).map _).sum_nat
  have apart : movedInto blocks slot = 0 := by
    rw [movedInto, List.filter_eq_nil_iff.mpr fun entry listed => ?_]
    · rfl
    · obtain ⟨used, found, -⟩ := settled.inside entry listed
      have inside := (List.getElem?_eq_some_iff.mp found).1
      rw [beq_iff_eq]
      omega
  have none : usedAt slots slot = 0 := by
    rw [usedAt, List.getElem?_eq_none behind]
    rfl
  rw [moves, together, movedInto_append, apart, fills.load, none]

/-- A slot that only fields outside arrays are in is behind those of the blocks: the full ones have no room for such a
field, and in the others there is a field of a block. -/
theorem le_of_isFree (fills : Fills slots later fields) (valid : layout.IsValid)
    (grouped : ∀ entry ∈ blocks, entry.1.2.group ≠ none)
    (taken : ∀ slot < slots.length, usedAt slots slot = wordBits ∨ ∃ entry ∈ blocks, entry.2.slot = slot)
    (free : candidate.IsFree slot) : slots.length ≤ slot := by
  have alone : ∀ entry ∈ blocks, entry.2.slot ≠ slot := fun entry listed there => by
    have among : moved entry ∈ candidate.placements := by
      rw [isMoved.placements]
      exact List.mem_map_of_mem (perm.mem_iff.mpr (List.mem_append_left _ listed))
    exact grouped entry listed (free.2 (moved entry) among there)
  obtain ⟨⟨placement, among, there⟩, -⟩ := free
  rw [isMoved.placements] at among
  obtain ⟨entry, listed, rfl⟩ := List.mem_map.mp among
  change entry.2.slot = slot at there
  subst there
  refine Nat.le_of_not_lt fun inside => ?_
  rcases taken _ inside with full | ⟨block, listed', there'⟩
  · rcases List.mem_append.mp (perm.mem_iff.mp listed) with ofBlock | ofField
    · exact alone entry ofBlock rfl
    · have room := fills.room entry ofField inside
      have own : entry.1 ∈ indexed layout.placements := isMoved.fields ▸ List.mem_map_of_mem listed
      have some := valid.some _ (List.mem_of_getElem? (getElem?_of_mem_indexed own))
      rw [full] at room
      omega
  · exact alone block listed' there'

end

end

/-- The repacked layout is dense: the slots that arrays span and one more are enough, or the others are more than half
full of fields outside arrays, and no two slots with such fields only could be one. -/
theorem repackBlocksFirst_dense {layout : PackedLayout} (valid : layout.IsValid)
    (ordered : layout.placements.Pairwise fun left right => left.slot ≤ right.slot) :
    ((repackBlocksFirst layout).slotCount ≤ layout.spannedSlots + 1 ∨
      128 * ((repackBlocksFirst layout).slotCount - layout.spannedSlots) < layout.freeBits) ∧
    ∀ slot slot', slot < slot' → (repackBlocksFirst layout).IsFree slot → (repackBlocksFirst layout).IsFree slot' →
      wordBits < (repackBlocksFirst layout).bitsAt slot + (repackBlocksFirst layout).bitsAt slot' := by
  obtain ⟨entries, blocks, fields, isMoved, perm, ofBlocks, blockMoves, settled, free, fieldMoves⟩ :=
    repackBlocksFirst_moves valid ordered
  obtain ⟨spanned, -, occupied⟩ :=
    moveBlocks_occupies [] fun block (listed : block ∈ arrayBlocks (indexed layout.placements)) =>
      ne_nil_of_mem_arrayBlocks listed
  have fills := fields_fill free fieldMoves
  have count : (repackBlocksFirst layout).slotCount = (moveFields (moveBlocks [] (arrayBlocks (indexed
    layout.placements))).1 (widestFirst (freeFields (indexed layout.placements)))).1.length := rfl
  have start : (moveBlocks [] (arrayBlocks (indexed layout.placements))).1.length = layout.spannedSlots :=
    spanned.trans (Nat.zero_add _)
  have grouped : ∀ entry ∈ blocks, entry.1.2.group ≠ none := fun entry listed =>
    group_of_mem_arrayBlocks (ofBlocks ▸ List.mem_map_of_mem listed)
  have taken : ∀ slot < (moveBlocks [] (arrayBlocks (indexed layout.placements))).1.length,
      usedAt (moveBlocks [] (arrayBlocks (indexed layout.placements))).1 slot = wordBits ∨
        ∃ entry ∈ blocks, entry.2.slot = slot := by
    intro slot inside
    rw [← blockMoves] at occupied
    exact (occupied slot (Nat.zero_le _) inside).imp_right fun ⟨move, listed, there⟩ => by
      obtain ⟨entry, listed', rfl⟩ := List.mem_map.mp listed
      exact ⟨entry, listed', there⟩
  constructor
  · by_cases several : layout.spannedSlots + 2 ≤ (repackBlocksFirst layout).slotCount
    · right
      rw [freeBits_eq free, count, ← start]
      exact fills.dense (by rw [start, ← count]; exact several)
    · left
      omega
  · intro slot slot' before alone alone'
    have behind := le_of_isFree isMoved perm fills valid grouped taken alone
    have behind' := le_of_isFree isMoved perm fills valid grouped taken alone'
    obtain ⟨placement, among, there⟩ := alone'.1
    have inside : slot' < (repackBlocksFirst layout).slotCount := there ▸ isMoved.valid.slot placement among
    rw [bitsAt_eq isMoved perm settled fills behind, bitsAt_eq isMoved perm settled fills behind']
    exact fills.crowded slot' slot behind' (count ▸ inside) before

/-- The better layout that is found for a type in an arena takes the slots that its arrays span and at most one more, or
fewer than one for every 128 bits of fields outside arrays besides these. In the layout that is considered for it, no two
slots that hold nothing but such fields could be merged. -/
theorem repacking_is_dense {arena : Arena} (made : arena.Made) {id : NodeId} (inside : id < arena.size)
    {mode : PackingMode} {layout : PackedLayout} (placed : place (arena.typeAt id) mode = .ok layout) :
    ∃ optimized, optimize layout = .ok optimized ∧
      (optimized.slotCount ≤ layout.spannedSlots + 1 ∨
        128 * (optimized.slotCount - layout.spannedSlots) < layout.freeBits) ∧
      ∀ slot slot', slot < slot' → (repackBlocksFirst layout).IsFree slot → (repackBlocksFirst layout).IsFree slot' →
        wordBits < (repackBlocksFirst layout).bitsAt slot + (repackBlocksFirst layout).bitsAt slot' := by
  have legal := made.sound.isLegal_typeAt inside
  obtain ⟨valid, ordered⟩ := place_spec legal placed
  obtain ⟨optimized, found, -⟩ := optimize_spec valid ordered
  obtain ⟨dense, apart⟩ := repackBlocksFirst_dense valid ordered
  have fewer : optimized.slotCount ≤ (repackBlocksFirst layout).slotCount := by
    obtain ⟨_, -, chosen⟩ := Attempt.bind_eq_ok.mp found
    cases chosen
    split <;> omega
  exact ⟨optimized, found, by omega, apart⟩

/-- An arena with a struct that has three addresses and two amounts, of which two fit into a slot with an address. -/
def batchArena : Arena :=
  ((Addition.described (.struct "Batch" [⟨"buyer", .address⟩, ⟨"seller", .address⟩, ⟨"agent", .address⟩,
    ⟨"price", .uint 96⟩, ⟨"fee", .uint 96⟩])).run.runOn .empty).2

/-- The fields of the struct in declaration order. -/
def batchFields : List Placement :=
  [⟨0, 0, 160, "buyer", .address, none⟩, ⟨1, 0, 160, "seller", .address, none⟩, ⟨2, 0, 160, "agent", .address, none⟩,
    ⟨2, 160, 96, "price", .integer false 96, none⟩, ⟨3, 0, 96, "fee", .integer false 96, none⟩]

/-- The fields when the amounts share slots with addresses. -/
def batchRepacked : List Placement :=
  [⟨0, 0, 160, "buyer", .address, none⟩, ⟨1, 0, 160, "seller", .address, none⟩, ⟨2, 0, 160, "agent", .address, none⟩,
    ⟨0, 160, 96, "price", .integer false 96, none⟩, ⟨1, 160, 96, "fee", .integer false 96, none⟩]

/-- How the fields get there. -/
def batchMoves : List Move := [⟨0, 0, 0⟩, ⟨1, 1, 0⟩, ⟨2, 2, 0⟩, ⟨3, 0, 160⟩, ⟨4, 1, 160⟩]

/-- The struct takes three slots and not four when each amount shares a slot with an address; its fields have 672 bits, and
those in the first two slots could not share one. -/
theorem batch_repacking_is_dense : ∃ layout optimized, place (batchArena.typeAt 5) .bits = .ok layout ∧
    optimize layout = .ok optimized ∧ layout.slotCount = 4 ∧ optimized.slotCount = 3 ∧ layout.spannedSlots = 0 ∧
    layout.freeBits = 672 ∧ 128 * (optimized.slotCount - layout.spannedSlots) < layout.freeBits ∧
    wordBits < (repackBlocksFirst layout).bitsAt 0 + (repackBlocksFirst layout).bitsAt 1 := by
  have made : batchArena.Made := .extended _ .empty fun _ named => nomatch named
  have inside : 5 < batchArena.size := by decide +kernel
  have counted : ((place (batchArena.typeAt 5) .bits).toOption.map fun layout =>
      (layout.placements, layout.slotCount)) = some (batchFields, 4) := by decide +kernel
  obtain ⟨layout, placed⟩ : ∃ layout, place (batchArena.typeAt 5) .bits = .ok layout := by
    cases result : place (batchArena.typeAt 5) .bits with
    | error _ => simp [result, Except.toOption] at counted
    | ok layout => exact ⟨layout, rfl⟩
  obtain ⟨optimized, found, dense, apart⟩ := repacking_is_dense made inside placed
  simp only [placed, Except.toOption, Option.map_some, Option.some.injEq, Prod.mk.injEq] at counted
  obtain ⟨root, mode, placements, slotCount⟩ := layout
  obtain ⟨rfl, rfl⟩ := counted
  have widest : widestFirst (freeFields (indexed batchFields)) = indexed batchFields :=
    List.mergeSort_of_pairwise (by decide)
  have sorted : batchMoves.mergeSort (fun left right => left.index ≤ right.index) = batchMoves :=
    List.mergeSort_of_pairwise (by decide)
  have repacked : repackBlocksFirst ⟨root, mode, batchFields, 4⟩ = ⟨root, mode, batchRepacked, 3⟩ := by
    have moves : repackBlocksFirst ⟨root, mode, batchFields, 4⟩ =
        applyMoves ⟨root, mode, batchFields, 4⟩ [256, 256, 160] batchMoves := by
      rw [repackBlocksFirst]
      dsimp only
      rw [widest]
      rfl
    rw [moves, applyMoves, sorted]
    rfl
  have fewer : optimized.slotCount = 3 := by
    obtain ⟨_, -, chosen⟩ := Attempt.bind_eq_ok.mp found
    rw [repacked, if_pos (show 3 < 4 by decide)] at chosen
    cases chosen
    rfl
  have spanned : PackedLayout.spannedSlots ⟨root, mode, batchFields, 4⟩ = 0 :=
    show ((arrayBlocks (indexed batchFields)).map span).sum = 0 by decide
  have apart : wordBits < (repackBlocksFirst ⟨root, mode, batchFields, 4⟩).bitsAt 0 +
      (repackBlocksFirst ⟨root, mode, batchFields, 4⟩).bitsAt 1 := by
    refine apart 0 1 (by decide) ?_ ?_ <;> rw [repacked]
    · exact show (∃ field ∈ batchRepacked, field.slot = 0) ∧
        ∀ field ∈ batchRepacked, field.slot = 0 → field.group = none by decide
    · exact show (∃ field ∈ batchRepacked, field.slot = 1) ∧
        ∀ field ∈ batchRepacked, field.slot = 1 → field.group = none by decide
  refine ⟨_, optimized, placed, found, rfl, fewer, spanned, rfl, ?_, apart⟩
  rw [fewer, spanned] at dense ⊢
  exact dense.resolve_left (by decide)

end Packing

end YulAbi
