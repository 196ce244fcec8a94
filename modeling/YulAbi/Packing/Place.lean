import YulAbi.Packing.Layout

/-!
# Placing fields in declaration order

The fields of a struct, tuple or fixed-size array are its values, each element of an
array counted on its own. A field goes right behind the one before it if it fits
into the rest of the slot; structs, tuples and arrays begin in a fresh slot.
-/

namespace YulAbi

/-- Where the next field may go. -/
structure PackingCursor where
  /-- Slot. -/
  slot : Nat
  /-- Bits taken in that slot. -/
  used : Nat
  /-- Number of the next array group. -/
  nextGroup : Nat
  deriving DecidableEq, Repr

/-- The cursor at the beginning of a slot: the same one, or the next if any bit is taken. -/
def PackingCursor.fresh (cursor : PackingCursor) : PackingCursor :=
  if cursor.used = 0 then cursor else ⟨cursor.slot + 1, 0, cursor.nextGroup⟩

/-- A step that places fields from a cursor on. -/
abbrev PackingStep := PackingCursor → Generated (List Placement × PackingCursor)

namespace Packing

/-- The bits that a value takes. -/
def fieldBits (shape : Shape) (mode : PackingMode) : Generated Nat := do
  let bits ← shape.exactBits
  match mode with
  | .bits => return bits
  | .bytes => return (bits + 7) / 8 * 8

/-- The error for a type that cannot be packed. -/
def unsupported {α : Type} (shape : Shape) (obstacle : PackingObstacle) : Generated α :=
  .error (.unsupportedPacking shape.identifier obstacle)

/-- Places one value. -/
def placeValue (mode : PackingMode) (shape : Shape) (label : String) (group : Option ArrayGroup) :
    PackingStep := fun cursor => do
  let bits ← fieldBits shape mode
  let start := if wordBits < cursor.used + bits then cursor.fresh else cursor
  return ([⟨start.slot, start.used, bits, label, shape, group⟩],
    ⟨start.slot, start.used + bits, start.nextGroup⟩)

/-- Places elements from `index` on. -/
def placeElements (label : String) (placeElement : Nat → String → PackingStep) (index : Nat) :
    (count : Nat) → PackingStep
  | 0 => fun cursor => .ok ([], cursor)
  | count + 1 => fun cursor => do
    let (first, next) ← placeElement index (label ++ s!"[{index}]") cursor
    let (others, last) ← placeElements label placeElement (index + 1) count next
    return (first ++ others, last)

/-- Places an array of a fixed length. It begins a group unless it lies inside one. -/
def placeArray (label : String) (group : Option ArrayGroup) (count : Nat)
    (placeElement : String → Option ArrayGroup → PackingStep) : PackingStep := fun cursor =>
  let start := cursor.fresh
  match group with
  | some outer => placeElements label (fun _ path => placeElement path (some outer)) 0 count start
  | none =>
    placeElements label (fun index path => placeElement path (some ⟨start.nextGroup, index⟩)) 0 count
      ⟨start.slot, start.used, start.nextGroup + 1⟩

/-- The path of a member: its label, or its index if it has none, behind the path of its owner. -/
def memberPath (path : String) (index : Nat) (label : Option String) : String :=
  let name := label.getD s!"_{index}"
  if path.isEmpty then name else path ++ "." ++ name

mutual
/-- Places a part. -/
def placePart (mode : PackingMode) (label : String) (group : Option ArrayGroup) :
    SolType → PackingStep
  | .struct name members => fun cursor =>
    if (SolType.struct name members).shape.isDynamicallyEncoded then
      unsupported (SolType.struct name members).shape .dynamicPart
    else placeMembers mode label group 0 members cursor.fresh
  | .tuple members => fun cursor =>
    if (SolType.tuple members).shape.isDynamicallyEncoded then
      unsupported (SolType.tuple members).shape .dynamicPart
    else placeMembers mode label group 0 members cursor.fresh
  | .array base (some count) => fun cursor =>
    if (SolType.array base (some count)).shape.isDynamicallyEncoded then
      unsupported (SolType.array base (some count)).shape .dynamicPart
    else placeArray label group count (fun path tag => placePart mode path tag base) cursor
  | type => fun cursor =>
    if type.shape.isDynamicallyEncoded then unsupported type.shape .dynamicPart
    else if type.shape.isValueType then placeValue mode type.shape label group cursor
    else unsupported type.shape .notStorable
/-- Places the members of a composite from `index` on. -/
def placeMembers (mode : PackingMode) (path : String) (group : Option ArrayGroup) (index : Nat) :
    List (Labelled SolType) → PackingStep
  | [] => fun cursor => .ok ([], cursor)
  | member :: rest => fun cursor => do
    let (first, next) ←
      placePart mode (memberPath path index member.label) group member.type cursor
    let (others, last) ← placeMembers mode path group (index + 1) rest next
    return (first ++ others, last)
end

/-- Places everything below a root from the first slot on. -/
def placeRoot (mode : PackingMode) (root : SolType) : PackingStep :=
  match root with
  | .struct _ members => placeMembers mode "" none 0 members
  | .tuple members => placeMembers mode "" none 0 members
  | .array base (some count) =>
    placeArray "" none count fun path tag => placePart mode path tag base
  | type => fun _ => unsupported type.shape .root

/-- The layout of a struct, tuple or fixed-size array in declaration order. -/
def place (root : SolType) (mode : PackingMode) : Generated PackedLayout := do
  let (placements, _) ← placeRoot mode root ⟨0, 0, 0⟩
  return ⟨root.shape, mode, placements,
    (placements.map fun placement => placement.slot + 1).foldl max 0⟩

end Packing

end YulAbi
