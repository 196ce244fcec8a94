import YulAbi.Interface.Document
import YulAbi.Report.Outcome

/-!
# Reports on inputs

What has been read: items of an interface, named types and settings.
-/

namespace YulAbi.Report

/-- An item of an interface with the type that it describes. -/
def item (entry : Interface.Item) : Document :=
  .record [("name", optional .text entry.name?), ("item", entry.toDocument),
    ("desc", inPlace ((entry.describe?.mapError .typeString).map (optional Description.toDocument)))]

/-- A named type. -/
def definition (entry : Definition) : Document :=
  .record [("name", .text entry.name), ("kind", entry.kind.toDocument)]

/-- A type description. -/
def description (type : Description) : Document :=
  .record [("elementary", .bool type.isElementary), ("type", type.toDocument)]

/-- Settings. -/
def settings (chosen : Settings) : Document :=
  .record [
    ("named-constants", .bool chosen.namedConstants),
    ("max-consecutive-reference-heads", number chosen.bridgedReferences),
    ("memory-safe", .bool chosen.memorySafe), ("mode", .text chosen.packing.mode.keyword),
    ("optimize", .bool chosen.packing.optimize),
    ("preference-ratio", .text (FloatText.bitsText chosen.cost.ratio)),
    ("prefer", .text chosen.cost.preferred.keyword)]

end YulAbi.Report
