import YulAbi.Packing.Place

/-!
# Moving fields to save slots

Arrays move as blocks; fields outside arrays go, widest first, into the fullest
slot that still has room for them. The result replaces the declaration order only
if it takes fewer slots.
-/

namespace YulAbi.Packing

/-- The new place of the field with an index. -/
structure Move where
  /-- Index of the field. -/
  index : Nat
  /-- Slot. -/
  slot : Nat
  /-- First bit. -/
  bitOffset : Nat
  deriving DecidableEq, Repr

/-- A field with its index. -/
abbrev IndexedPlacement := Nat × Placement

/-- Fields with their indices. -/
def indexed (placements : List Placement) : List IndexedPlacement :=
  (List.range placements.length).zip placements

/-- The fields outside arrays. -/
def freeFields (placements : List IndexedPlacement) : List IndexedPlacement :=
  placements.filter fun entry => entry.2.group.isNone

/-- The fields of each array, in the order of their first fields. -/
def arrayBlocks (placements : List IndexedPlacement) : List (List IndexedPlacement) :=
  let ids := (placements.filterMap fun entry => entry.2.group.map ArrayGroup.id).eraseDups
  ids.map fun id => placements.filter fun entry => entry.2.group.map ArrayGroup.id == some id

/-- The slot of the first field of a block. -/
def firstSlot : List IndexedPlacement → Nat
  | [] => 0
  | entry :: _ => entry.2.slot

/-- The last slot of a block. -/
def lastSlot (block : List IndexedPlacement) : Nat :=
  (block.map fun entry => entry.2.slot).foldl max 0

/-- The bits that a block takes in its last slot. -/
def tailUsed (block : List IndexedPlacement) : Nat :=
  let last := block.filter fun entry => entry.2.slot == lastSlot block
  (last.map fun entry => entry.2.bitEnd).foldl max 0

/-- The number of slots that a block spans. -/
def span (block : List IndexedPlacement) : Nat := lastSlot block - firstSlot block + 1

/-- Moves a block behind all slots, given the bits used in each. -/
def moveBlock (slots : List Nat) (block : List IndexedPlacement) : List Nat × List Move :=
  (slots ++ List.replicate (span block - 1) wordBits ++ [tailUsed block],
   block.map fun entry =>
    ⟨entry.1, entry.2.slot - firstSlot block + slots.length, entry.2.bitOffset⟩)

/-- Of the slots with room for a width the first of the fullest. -/
def bestSlot? (width : Nat) (slots : List Nat) : Option Nat :=
  let fitting := ((List.range slots.length).zip slots).filter fun slot => slot.2 + width ≤ wordBits
  (fitting.foldl (fun (best : Option (Nat × Nat)) slot =>
    match best with
    | none => some slot
    | some chosen => if chosen.2 < slot.2 then some slot else some chosen) none).map Prod.fst

/-- Moves a field into the best slot, or into a new one. -/
def moveField (slots : List Nat) (field : IndexedPlacement) : List Nat × Move :=
  let width := field.2.bitLength
  match bestSlot? width slots with
  | some slot => (slots.modify slot (· + width), ⟨field.1, slot, slots[slot]?.getD 0⟩)
  | none => (slots ++ [width], ⟨field.1, slots.length, 0⟩)

/-- Moves several blocks. -/
def moveBlocks (slots : List Nat) : List (List IndexedPlacement) → List Nat × List Move
  | [] => (slots, [])
  | block :: rest =>
    let (next, moves) := moveBlock slots block
    let (last, others) := moveBlocks next rest
    (last, moves ++ others)

/-- Moves several fields. -/
def moveFields (slots : List Nat) : List IndexedPlacement → List Nat × List Move
  | [] => (slots, [])
  | field :: rest =>
    let (next, move) := moveField slots field
    let (last, others) := moveFields next rest
    (last, move :: others)

/-- Fields by decreasing width; equal widths keep their order. -/
def widestFirst (fields : List IndexedPlacement) : List IndexedPlacement :=
  fields.mergeSort fun left right => right.2.bitLength ≤ left.2.bitLength

/-- The layout after every field has moved. -/
def applyMoves (layout : PackedLayout) (slots : List Nat) (moves : List Move) : PackedLayout :=
  let ordered := moves.mergeSort fun left right => left.index ≤ right.index
  let moved := List.zipWith
    (fun (placement : Placement) move =>
      (⟨move.slot, move.bitOffset, placement.bitLength, placement.label, placement.shape,
        placement.group⟩ : Placement))
    layout.placements ordered
  ⟨layout.root, layout.mode, moved, slots.length⟩

/-- Blocks first, then the other fields. -/
def repackBlocksFirst (layout : PackedLayout) : PackedLayout :=
  let entries := indexed layout.placements
  let (blockSlots, blockMoves) := moveBlocks [] (arrayBlocks entries)
  let (slots, fieldMoves) := moveFields blockSlots (widestFirst (freeFields entries))
  applyMoves layout slots (blockMoves ++ fieldMoves)

/-- Fields outside arrays first, then the blocks on slots of their own. -/
def repackFieldsFirst (layout : PackedLayout) : PackedLayout :=
  let entries := indexed layout.placements
  let (fieldSlots, fieldMoves) := moveFields [] (widestFirst (freeFields entries))
  let (slots, blockMoves) := moveBlocks fieldSlots (arrayBlocks entries)
  applyMoves layout slots (fieldMoves ++ blockMoves)

/-- The repacked layout if it takes fewer slots, the given one otherwise. -/
def optimize (layout : PackedLayout) : Generated PackedLayout := do
  let candidate := repackBlocksFirst layout
  candidate.validate
  return if candidate.slotCount < layout.slotCount then candidate else layout

/-- The layout with the fields outside arrays in front. -/
def packFieldsFirst (layout : PackedLayout) : Generated PackedLayout := do
  let packed := repackFieldsFirst layout
  packed.validate
  return packed

/-- The layout under given settings. -/
def pack (root : SolType) (settings : PackingSettings) : Generated PackedLayout := do
  let layout ← place root settings.mode
  layout.validate
  if settings.optimize then optimize layout else return layout

end YulAbi.Packing
