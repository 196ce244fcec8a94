import YulAbi.Offsets
import YulAbi.Shape.Segments

/-!
# Requests for decoders and encoders

Values of one word are read and written where they stand; everything else has a
routine. Here are the answer to a request and the pieces of code that decoders and
encoders share.
-/

namespace YulAbi

open Yul (Expr Stmt Block)

/-- How values of a type are decoded or encoded. -/
inductive Handling where
  /-- As one word, in place. -/
  | inline
  /-- By a routine. -/
  | routine (name : String)
  deriving DecidableEq, Repr

namespace Codec

/-- The error for a task that does not apply to a shape. -/
def unsupported {α : Type} (shape : Shape) (task : Task) : Emission α :=
  throw (.unsupportedShape shape.identifier task)

/-- The routine for values of a shape, or none if they are words. Signatures have no values. -/
def handlingOf (operation : Operation) (task : Task) (shape : Shape)
    (generate : String → Emission Yul.Routine) : Emission Handling := do
  if shape.isValueType then return .inline
  else if shape.isReferenceType then
    return .routine (← Emission.routineFor operation shape generate)
  else unsupported shape task

/-- The length of bytes rounded up to whole words, with the length word added. -/
def paddedBytesSize (settings : Settings) (length : Expr) : Emission Expr := do
  let almostTwo ← Offsets.fixed settings.namedConstants .almostTwoWords
  let mask ← Offsets.fixed settings.namedConstants .fullWordMask
  return .and (.add length almostTwo) mask

/-- The full size of the tail of an element whose length word is given. -/
def elementTailSize (settings : Settings) (element : Shape) (length : Expr) : Emission Expr :=
  match element with
  | .bytes => paddedBytesSize settings length
  | .string => paddedBytesSize settings length
  | .array base none =>
    if base.isValueType then return .shl (.number 5) (.add length (.number 1))
    else unsupported element .elementTail
  | _ => unsupported element .elementTail

/-- The address of the head word with index `i`. -/
def headSlot (head : Expr) : Expr := .add head (.shl (.number 5) (.ident "i"))

end Codec

end YulAbi
