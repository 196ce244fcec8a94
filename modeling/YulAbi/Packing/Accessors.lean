import YulAbi.Emission
import YulAbi.Field.Candidates
import YulAbi.Packing.Repack
import YulAbi.Text

/-!
# Accessors of packed fields

Every field of a layout gets a getter and a setter. Those for the stack take the word
that holds the field, those for memory the address of the first slot, those for
storage the number of the first slot. Getters of signed fields extend the sign.
-/

namespace YulAbi.Packing

open Yul (Expr Stmt Routine)

/-- The place of a slot, given the place of the first one. -/
def slotLocation (source : WordSource) (base : Expr) (slot : Nat) : Expr :=
  match source with
  | .memory => .add base (.number (slot * wordBytes))
  | _ => .add base (.number slot)

/-- The name of the first parameter of accessors. -/
def baseName : WordSource → String
  | .stack => "word"
  | .memory => "ptr"
  | .storage => "slot"

/-- The place of the word that holds a field. -/
def wordLocation (source : WordSource) (slot : Nat) : Expr :=
  match source with
  | .stack => .ident "word"
  | _ => slotLocation source (.ident (baseName source)) slot

/-- The word that holds a field. -/
def wordAt (source : WordSource) (location : Expr) : Expr :=
  match source with
  | .stack => .ident "word"
  | .memory => .mload location
  | .storage => .sload location

/-- The getter of a field. The sign is extended where the value has whole bytes and less than a
word. -/
def getter (source : WordSource) (placement : Placement) (read : AccessExpr) (name : String) : Routine :=
  let location := wordLocation source placement.slot
  let value := read.toYul (wordAt source location) location (.ident "value")
  let bits := placement.bitLength
  let result :=
    if placement.shape.isSigned && decide (bits < wordBits) && bits % 8 == 0 then
      Expr.signextend (.number (bits / 8 - 1)) value
    else value
  .ofBody name [baseName source] ["value"] [.assignTo "value" result]

/-- The setter of a field. One for the stack returns the new word. -/
def setter (source : WordSource) (placement : Placement) (write : WriteForm) (name : String) : Routine :=
  let location := wordLocation source placement.slot
  let word := wordAt source location
  match source, write with
  | .stack, .word expr =>
    .ofBody name ["word", "value"] ["newWord"]
      [.assignTo "newWord" (expr.toYul word location (.ident "value"))]
  | _, _ =>
    .ofBody name [baseName source, "value"] [] [write.toYul source word location (.ident "value")]

/-- Adds the accessors of one field and answers with their names. -/
def emitFieldAccessors (owner : String) (source : WordSource) (model : CostModel)
    (placement : Placement) : Emission (List String) := do
  let field ← Field.ofRange placement.bitOffset placement.bitLength placement.shape.isLeftAligned
  let suffix := owner ++ "_" ++ Identifier.sanitize placement.label
  let read ← field.cheapestRead source model
  let getterName ← Emission.addRoutine (getter source placement read.form ("get_" ++ suffix))
  let write ← field.cheapestWrite source model
  let setterName ← Emission.addRoutine (setter source placement write.form ("set_" ++ suffix))
  return [getterName, setterName]

/-- Adds the accessors of several fields. -/
def emitEach (owner : String) (source : WordSource) (model : CostModel) :
    List Placement → Emission (List String)
  | [] => return []
  | placement :: rest => do
    let names ← emitFieldAccessors owner source model placement
    return names ++ (← emitEach owner source model rest)

/-- Adds the accessors of all fields of a layout and answers with their names in layout order. -/
def emitAccessors (layout : PackedLayout) (source : WordSource) (model : CostModel) :
    Emission (List String) := do
  let owner ← Emission.owner layout.root
  emitEach owner source model layout.placements

end YulAbi.Packing
