import YulAbi.Field.Access

/-!
# Ways to access a field

For every field there are several forms that read it and several that write it, all
with the same result. Each has a name and a price; the cheapest one is used, the
first of them if several are equally cheap.
-/

namespace YulAbi

/-- A form with its name and cost. -/
structure Candidate (α : Type) where
  /-- Name of the form. -/
  name : String
  /-- The form itself. -/
  form : α
  /-- What it costs. -/
  cost : Cost

/-- The first of the cheapest candidates. -/
def Candidate.cheapest? {α : Type} (model : CostModel) : List (Candidate α) → Option (Candidate α)
  | [] => none
  | first :: rest =>
    some (rest.foldl (fun best candidate =>
      if candidate.cost.compare best.cost model = .lt then candidate else best) first)

namespace Field

/-- An alternative that exists under a condition only. -/
def onlyIf {α : Type} (condition : Bool) (alternatives : List α) : List α :=
  if condition then alternatives else []

/-- The forms that bring a field into the low bits. -/
def lowReads (field : Field) (source : WordSource) : List (String × AccessExpr) :=
  let before := field.bitOffset
  let behind := field.shift
  let mask := AccessExpr.literal field.mask
  let general :=
    if before = 0 then [("shift", .shr behind .word)]
    else if behind = 0 then [("mask", .and .word mask)]
    else
      [("shift-mask", .and (.shr behind .word) mask),
       ("mask-shift", .shr behind (.and .word (.literal field.inPlaceMask))),
       ("double-shift", .shr field.unused (.shl before .word))]
  general ++
    onlyIf (field.bitLength == 8 && field.startsOnByte) [("byte", .byte (before / 8) .word)] ++
    onlyIf (source == .memory && behind != 0 && field.endsOnByte)
      [("load-end", .and (.load (-Int.ofNat (behind / 8))) mask)] ++
    onlyIf (source == .memory && before != 0 && field.startsOnByte)
      [("load-start", .shr field.unused (.load (before / 8)))]

/-- The forms that bring a field into the high bits. -/
def highReads (field : Field) (source : WordSource) : List (String × AccessExpr) :=
  let before := field.bitOffset
  let behind := field.shift
  let high := AccessExpr.literal (field.mask <<< field.unused)
  let general :=
    if before = 0 then [("mask", .and .word high)]
    else if behind = 0 then [("shift", .shl before .word)]
    else [("shift-mask", .and (.shl before .word) high)]
  general ++
    onlyIf (behind != 0) [("double-shift", .shl field.unused (.shr behind .word))] ++
    onlyIf (before != 0) [("mask-shift", .shl before (.and .word (.literal field.inPlaceMask)))] ++
    onlyIf (field.bitLength == 8 && field.startsOnByte)
      [("byte", .shl (wordBits - 8) (.byte (before / 8) .word))] ++
    onlyIf (source == .memory && before != 0 && field.startsOnByte)
      [("load-start", .and (.load (before / 8)) high)]

/-- The forms that read a field. -/
def reads (field : Field) (source : WordSource) : List (String × AccessExpr) :=
  if field.bitLength = wordBits then [("word", .word)]
  else if field.leftAligned then field.highReads source
  else field.lowReads source

/-- The value moved to the place of the field. -/
def movedValue (field : Field) : AccessExpr :=
  if field.leftAligned then
    if field.bitOffset = 0 then .value else .shr field.bitOffset .value
  else if field.shift = 0 then .value
  else .shl field.shift .value

/-- The forms that write a field of fewer bits than a word. -/
def partialWrites (field : Field) (source : WordSource) : List (String × WriteForm) :=
  let behind := field.shift
  let placed := AccessExpr.and field.movedValue (.literal field.inPlaceMask)
  let replace := fun kept : AccessExpr => WriteForm.word (.or (.and .word kept) placed)
  let byteValue := if field.leftAligned then AccessExpr.shr (wordBits - 8) .value else .value
  let lowValue :=
    if field.leftAligned then AccessExpr.shr field.unused .value else .and .value (.literal field.mask)
  let offset := -Int.ofNat (behind / 8)
  [("literal-mask", replace (.literal (~~~field.inPlaceMask))),
   ("computed-mask", replace (.not (.literal field.inPlaceMask)))] ++
    onlyIf (behind != 0) [("shifted-mask", replace (.not (.shl behind (.literal field.mask))))] ++
    onlyIf (source == .memory && field.bitLength == 8 && field.startsOnByte)
      [("store8", .store8 (field.bitOffset / 8) byteValue)] ++
    onlyIf (source == .memory && behind != 0 && field.endsOnByte)
      [("window", .window offset (.or (.and (.load offset) (.not (.literal field.mask))) lowValue))]

/-- The forms that write a field. -/
def writes (field : Field) (source : WordSource) : List (String × WriteForm) :=
  if field.bitLength = wordBits then [("word", .word .value)] else field.partialWrites source

/-- The forms that read a field, with their costs. -/
def readCandidates (field : Field) (source : WordSource) : List (Candidate AccessExpr) :=
  (field.reads source).map fun entry => ⟨entry.1, entry.2, entry.2.cost source⟩

/-- The forms that write a field, with their costs. -/
def writeCandidates (field : Field) (source : WordSource) : List (Candidate WriteForm) :=
  (field.writes source).map fun entry => ⟨entry.1, entry.2, entry.2.cost source⟩

/-- The cheapest form that reads a field. -/
def cheapestRead (field : Field) (source : WordSource) (model : CostModel) :
    Generated (Candidate AccessExpr) :=
  match Candidate.cheapest? model (field.readCandidates source) with
  | some candidate => .ok candidate
  | none => invalid field.bitOffset field.bitLength

/-- The cheapest form that writes a field. -/
def cheapestWrite (field : Field) (source : WordSource) (model : CostModel) :
    Generated (Candidate WriteForm) :=
  match Candidate.cheapest? model (field.writeCandidates source) with
  | some candidate => .ok candidate
  | none => invalid field.bitOffset field.bitLength

end Field

end YulAbi
