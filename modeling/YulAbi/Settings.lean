import YulAbi.Document.Block
import YulAbi.Document.Json
import YulAbi.Document.Read
import YulAbi.Text.Float

/-!
# Settings of the generator

What may be chosen: whether offsets become named constants, how segments of structs
are formed, how fields are packed and how accessors are rated. Settings are read
from a JSON or YAML document in which everything may be left out. The ratio of a
cost model is a finite number that is not negative.
-/

namespace YulAbi

/-- How much room a packed field takes. -/
inductive PackingMode where
  /-- A whole number of bytes. -/
  | bytes
  /-- Exactly the bits of the type. -/
  | bits
  deriving DecidableEq, Repr

/-- The keyword of a packing mode. -/
def PackingMode.keyword : PackingMode → String
  | .bytes => "bytes"
  | .bits => "bits"

/-- What decides between accessors of equal score. -/
inductive CostPreference where
  /-- The cheaper one to run. -/
  | gas
  /-- The shorter one. -/
  | size
  deriving DecidableEq, Repr

/-- The keyword of a preference. -/
def CostPreference.keyword : CostPreference → String
  | .gas => "gas"
  | .size => "size"

/-- How fields are packed. -/
structure PackingSettings where
  /-- Room of a field. -/
  mode : PackingMode
  /-- Whether fields may be moved to use fewer slots. -/
  optimize : Bool

/-- How accessors are rated: gas, plus bytes times the ratio. -/
structure CostModel where
  /-- Gas that one byte of code is worth. -/
  ratio : Float
  /-- What decides between equal scores. -/
  preferred : CostPreference

/-- Everything that may be chosen. -/
structure Settings where
  /-- Whether offsets and sizes become named constants. -/
  namedConstants : Bool
  /-- How many references in a row a segment may bridge. -/
  bridgedReferences : Nat
  /-- Whether assembly blocks are annotated as memory-safe. -/
  memorySafe : Bool
  /-- How fields are packed. -/
  packing : PackingSettings
  /-- How accessors are rated. -/
  cost : CostModel

/-- Fields of whole bytes that may be moved. -/
def PackingSettings.standard : PackingSettings := ⟨.bytes, true⟩

/-- Three gas for each byte; gas decides. -/
def CostModel.standard : CostModel := ⟨3, .gas⟩

/-- The settings that are used when nothing is chosen. -/
def Settings.standard : Settings := ⟨true, 4, true, .standard, .standard⟩

/-- Why settings are refused. -/
inductive SettingsError where
  /-- The text is no document of settings. -/
  | unreadable
  /-- The ratio is negative, infinite or not a number. -/
  | ratio (value : Float)

/-- The wording of a refusal; unreadable text has none. -/
def SettingsError.message? : SettingsError → Option String
  | .unreadable => none
  | .ratio value =>
    some ("invalid generator config: preference-ratio must be a non-negative number, got " ++
      FloatText.render value)

namespace Settings

open Document

/-- Reads the packing section. -/
def readPacking? (document : Document) : Option PackingSettings := do
  let [mode, optimize] ← document.readFieldsOf? ["mode", "optimize"] | none
  return ⟨← defaulted? .bytes (readChoice? [("bytes", .bytes), ("bits", .bits)]) mode,
    ← defaulted? true readBool? optimize⟩

/-- Reads the cost section. -/
def readCost? (document : Document) : Option CostModel := do
  let [ratio, preferred] ← document.readFieldsOf? ["preference-ratio", "prefer"] | none
  return ⟨← defaulted? CostModel.standard.ratio readFloat? ratio,
    ← defaulted? .gas (readChoice? [("gas", .gas), ("size", .size)]) preferred⟩

/-- Reads a document of settings. -/
def ofDocument? (document : Document) : Option Settings := do
  let [named, bridged, safe, packing, cost] ← document.readFieldsOf?
    ["named-constants", "max-consecutive-reference-heads", "memory-safe", "packing", "cost"] | none
  return ⟨← defaulted? true readBool? named, ← defaulted? 4 readCount? bridged,
    ← defaulted? true readBool? safe, ← defaulted? .standard readPacking? packing,
    ← defaulted? .standard readCost? cost⟩

/-- Refuses settings whose ratio is not a finite number from zero on. -/
def validate (settings : Settings) : Except SettingsError Settings :=
  let ratio := settings.cost.ratio
  if ratio.isNaN || ratio.isInf || ratio < 0 then .error (.ratio ratio) else .ok settings

/-- Reads and checks a document, if there is one. -/
def ofDocument (document : Option Document) : Except SettingsError Settings :=
  match document.bind ofDocument? with
  | none => .error .unreadable
  | some settings => settings.validate

/-- Reads settings from JSON text. -/
def ofJson (text : String) : Except SettingsError Settings := ofDocument (Document.ofJson? text)

/-- Reads settings from YAML text; a text without content chooses nothing. -/
def ofYaml (text : String) : Except SettingsError Settings := ofDocument (Block.read? text)

end Settings

end YulAbi
