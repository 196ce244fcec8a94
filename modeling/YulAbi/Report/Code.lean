import YulAbi.Codec.Signature
import YulAbi.Report.Outcome
import YulAbi.Text.Lines.Document

/-!
# Reports on code

Texts and counts of generated code, from expressions up to whole units.
-/

namespace YulAbi.Report

open Yul (Builtin Expr Block Routine)

/-- An expression. -/
def expr (tree : Expr) : Document :=
  .record [("render", .text tree.render), ("literal", optional word tree.literal?)]

/-- An instruction. -/
def builtin (operation : Builtin) : Document :=
  .record [("arity", number operation.arity), ("returns_value", .bool operation.returnsValue)]

/-- Lines. -/
def lines (content : Lines) (indent : String) : Document :=
  .record [("render", .text (content.render indent)), ("flatten", texts content.flatten),
    ("empty", .bool content.isEmpty)]

/-- A block. -/
def block (statements : Block) (indent : String) : Document :=
  let content := Block.toLines statements
  .record [("render", .text (content.render indent)), ("lines", content.toDocument),
    ("statements", number statements.length), ("empty", .bool statements.isEmpty)]

/-- A routine. -/
def routine (memorySafe : Bool) (content : Routine) : Document :=
  .record [("text", .text ((content.toLines memorySafe).render "    ")),
    ("params", number content.params.length), ("returns", number content.returns.length)]

/-- Names of routines and constants. -/
def unit (content : CodeUnit) : Document :=
  .record [("routines", texts (content.routines.map Routine.name)),
    ("count", number content.routines.length), ("constants", constants content.constants)]

/-- What has been added to a unit. -/
def additions (memorySafe : Bool) (before after : CodeUnit) : List (String × Document) :=
  let routines := after.routines.drop before.routines.length
  [("routines", texts (routines.map fun routine => (routine.toLines memorySafe).render "  ")),
    ("constants", constants (after.constants.drop before.constants.length))]

/-- How values are handled. -/
def handling : Handling → Document
  | .inline => .text "inline"
  | .routine name => .record [("name", .text name)]

/-- How a routine looks from outside. -/
def signature (routine : RoutineSignature) : Document :=
  .record [("name", .text routine.name), ("type", .text routine.functionType)]

end YulAbi.Report
