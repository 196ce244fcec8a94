import YulAbi.Settings
import YulAbi.Shape.Geometry
import YulAbi.SolType

/-!
# Packed layouts

A packed layout puts fields side by side into slots of one word. A field is named
by its path from the root and takes a range of bits, counted from the most
significant end. A layout is valid when every field lies inside one slot and no
two fields share a bit. Fields of a fixed-size array belong to a group that keeps
its order.
-/

namespace YulAbi

/-- The array that a field belongs to. -/
structure ArrayGroup where
  /-- Number of the outermost array. -/
  id : Nat
  /-- Index of the element of the outermost array. -/
  index : Nat
  deriving DecidableEq, Repr

/-- A field and the bits that it takes. -/
structure Placement where
  /-- Slot, counted from zero. -/
  slot : Nat
  /-- First bit, counted from the most significant end. -/
  bitOffset : Nat
  /-- Number of bits. -/
  bitLength : Nat
  /-- Path from the root. -/
  label : String
  /-- Type of the field. -/
  shape : Shape
  /-- Array that the field belongs to, if any. -/
  group : Option ArrayGroup
  deriving DecidableEq

namespace Placement

/-- The bit behind the last one. -/
def bitEnd (placement : Placement) : Nat := placement.bitOffset + placement.bitLength

/-- Whether two fields share a bit. -/
def overlaps (left right : Placement) : Bool :=
  left.slot == right.slot && decide (left.bitOffset < right.bitEnd) &&
    decide (right.bitOffset < left.bitEnd)

end Placement

/-- Fields in declaration order and the number of slots that they take. -/
structure PackedLayout where
  /-- Type that is packed. -/
  root : Shape
  /-- Room of a field. -/
  mode : PackingMode
  /-- Fields. -/
  placements : List Placement
  /-- Number of slots. -/
  slotCount : Nat

namespace PackedLayout

/-- What is wrong with a field, given the fields before it. -/
def flaw? (slotCount : Nat) (before : List Placement) (placement : Placement) : Option LayoutFlaw :=
  if placement.bitLength = 0 ∨ wordBits < placement.bitEnd then
    some (.outsideSlot placement.label placement.bitOffset placement.bitEnd placement.slot)
  else if slotCount ≤ placement.slot then
    some (.missingSlot placement.label placement.slot slotCount)
  else
    (before.find? fun other => other.overlaps placement).map fun other =>
      .overlap placement.label other.label placement.slot

/-- The first flaw among the remaining fields. -/
def firstFlaw? (slotCount : Nat) (before : List Placement) : List Placement → Option LayoutFlaw
  | [] => none
  | placement :: rest =>
    match flaw? slotCount before placement with
    | some flaw => some flaw
    | none => firstFlaw? slotCount (before ++ [placement]) rest

/-- Checks that every field lies inside one slot and that no two fields overlap. -/
def validate (layout : PackedLayout) : Generated Unit :=
  match firstFlaw? layout.slotCount [] layout.placements with
  | some flaw => .error (.invalidLayout flaw)
  | none => .ok ()

/-- The number of bits that all fields take. -/
def totalBits (layout : PackedLayout) : Nat :=
  (layout.placements.map Placement.bitLength).foldr (· + ·) 0

/-- The field of a path. -/
def find? (layout : PackedLayout) (label : String) : Option Placement :=
  layout.placements.find? fun placement => placement.label == label

/-- A label followed by blanks up to a width, counted in characters. -/
def padLabel (width : Nat) (label : String) : String :=
  label ++ String.ofList (List.replicate (width - label.length) ' ')

/-- One field as a comment line. -/
def tableLine (width : Nat) (placement : Placement) : String :=
  "// " ++ padLabel width placement.label ++
    s!"  slot {placement.slot}  bits {placement.bitOffset}..{placement.bitEnd}\n"

/-- The layout as comment lines, one for each field and one with the totals. Labels are padded to
the number of bytes of the longest one. -/
def table (layout : PackedLayout) : String :=
  let width := (layout.placements.map fun placement => placement.label.utf8ByteSize).foldl max 0
  String.join (layout.placements.map (tableLine width)) ++
    s!"// {layout.slotCount} slot(s), {layout.totalBits} bits used\n\n"

end PackedLayout

end YulAbi
