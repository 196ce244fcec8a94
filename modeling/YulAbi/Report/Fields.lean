import YulAbi.Field.Candidates
import YulAbi.Packing.Repack
import YulAbi.Report.Outcome
import YulAbi.Yul.Text

/-!
# Reports on layouts and fields

Packed layouts, the costs of accesses, and all forms that read or write a field
together with what each of them does to a sample window.
-/

namespace YulAbi.Report

open Yul (Expr Stmt Block)

/-- One field of a layout. -/
def placement (field : Placement) : Document :=
  .array [number field.slot, number field.bitOffset, number field.bitLength, .text field.label,
    .text field.shape.identifier, optional (fun group => numbers [group.id, group.index]) field.group]

/-- A packed layout. -/
def layout (packed : PackedLayout) : Document :=
  .record [("slots", number packed.slotCount), ("total_bits", number packed.totalBits),
    ("placements", .array (packed.placements.map placement))]

/-- A cost with its score. -/
def cost (model : CostModel) (price : Cost) : Document :=
  .array [number price.gas, number price.bytes, .text (FloatText.bitsText (price.score model))]

/-- The sign of a comparison. -/
def ordering : Ordering → Document
  | .lt => .integer (-1)
  | .eq => .integer 0
  | .gt => .integer 1

/-- Costs, their sum and how neighbours compare. -/
def costs (model : CostModel) (prices : List Cost) : Document :=
  .record [
    ("costs", .array (prices.map (cost model))),
    ("total", cost model (prices.foldl (· + ·) .zero)),
    ("order", .array (List.zipWith (fun left right => ordering (left.compare right model)) prices prices.tail))]

/-- The text of one statement. -/
def stmtText (stmt : Stmt) : String := (Block.toLines [stmt]).render "    "

/-- What accesses are tried on. -/
structure AccessSample where
  /-- Source of the word. -/
  source : WordSource
  /-- Byte that the words around it are filled with. -/
  fill : UInt8
  /-- Word that holds the field. -/
  word : Word
  /-- Value that is written. -/
  value : Word
  /-- How accesses are rated. -/
  model : CostModel

/-- The word between two words of filling bytes. -/
def AccessSample.window (sample : AccessSample) : Window :=
  List.replicate 32 sample.fill ++ Word.toBytes sample.word ++ List.replicate 32 sample.fill

/-- The variables that stand for the word, its address and the value in code. -/
structure AccessNames where
  /-- The word. -/
  word : Expr
  /-- Its address. -/
  pointer : Expr
  /-- The value. -/
  value : Expr

/-- The names that are used unless others are given. -/
def AccessNames.standard : AccessNames := ⟨.ident "word", .ident "ptr", .ident "value"⟩

/-- An access tree that reads: cost, value and code. -/
def readAccess (sample : AccessSample) (names : AccessNames) (form : AccessExpr) : Document :=
  .record [("cost", cost sample.model (form.cost sample.source)),
    ("value", word (form.evaluate sample.window sample.value)),
    ("yul", .text (form.toYul names.word names.pointer names.value).render)]

/-- A form that writes: cost, window afterwards and code. -/
def writeAccess (sample : AccessSample) (names : AccessNames) (form : WriteForm) : Document :=
  .record [("cost", cost sample.model (form.cost sample.source)),
    ("window", .text (Hex.bareBytes (form.apply sample.window sample.value))),
    ("yul", .text (stmtText (form.toYul sample.source names.word names.pointer names.value)))]

/-- One candidate that reads a field. -/
def readCandidate (sample : AccessSample) (candidate : Candidate AccessExpr) : Document :=
  let names := AccessNames.standard
  .array [.text candidate.name, cost sample.model candidate.cost,
    word (candidate.form.evaluate sample.window sample.value),
    .text (candidate.form.toYul names.word names.pointer names.value).render]

/-- One candidate that writes a field, and whether it leaves the words around it alone. -/
def writeCandidate (sample : AccessSample) (candidate : Candidate WriteForm) : Document :=
  let names := AccessNames.standard
  let written := candidate.form.apply sample.window sample.value
  let around := fun window : Window => window.take 32 ++ window.drop 64
  .array [.text candidate.name, cost sample.model candidate.cost, word (written.load 0),
    .bool (around written == around sample.window),
    .text (stmtText (candidate.form.toYul sample.source names.word names.pointer names.value))]

/-- Masks and results of a field, all candidates, and those that are chosen. -/
def field (sample : AccessSample) (field : Field) : Outcome Document := do
  let read ← Outcome.ofGenerated (field.cheapestRead sample.source sample.model)
  let write ← Outcome.ofGenerated (field.cheapestWrite sample.source sample.model)
  return .record [
    ("shift", number field.shift), ("mask", word field.mask), ("in_place", word field.inPlaceMask),
    ("extract", word (field.extract sample.word)),
    ("insert", word (field.insert sample.word sample.value)),
    ("reads", .array ((field.readCandidates sample.source).map (readCandidate sample))),
    ("read", .text read.name),
    ("writes", .array ((field.writeCandidates sample.source).map (writeCandidate sample))),
    ("write", .text write.name)]

end YulAbi.Report
