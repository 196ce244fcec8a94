import YulAbi.Document
import YulAbi.Document.Scalar

/-!
# Reading values out of documents

Each reader takes a document and either returns a value or refuses. Records are
read by the names of their fields; a sequence that may stand for a record gives
the fields in declaration order and may stop early. An unquoted scalar without
characters is an empty sequence and a record without fields. A choice between
variants is a bare name, or a record with exactly one field whose value belongs to it;
what may stand behind a variant without data depends on where the choice is made.
-/

namespace YulAbi.Document

/-- Reads a truth value. -/
def readBool? : Document → Option Bool
  | .bool value => some value
  | .plain scalar => Scalar.toBool? scalar
  | _ => none

/-- Reads text. -/
def readText? : Document → Option String
  | .text value => some value
  | .plain scalar => some scalar
  | _ => none

/-- Reads an unsigned number, at most `limit`. -/
def readNatural? (limit : Nat) : Document → Option Nat
  | .integer (.ofNat value) => if value ≤ limit then some value else none
  | .plain scalar => (Scalar.toNatural? scalar).filter (· ≤ limit)
  | _ => none

/-- Reads an unsigned number of 64 bits. -/
def readCount? : Document → Option Nat := readNatural? 0xffffffffffffffff

/-- Reads a number of either sign. -/
def readInteger? : Document → Option Int
  | .integer value => some value
  | _ => none

/-- Reads a double; an integral number is converted. -/
def readFloat? : Document → Option Float
  | .float value => some value
  | .integer (.ofNat value) => some (UInt64.ofNat value).toFloat
  | .integer (.negSucc value) => some (-(UInt64.ofNat (value + 1)).toFloat)
  | .plain scalar => Scalar.toFloat? scalar
  | _ => none

/-- Reads a value that may be absent. -/
def readOptional? {α : Type} (read : Document → Option α) : Document → Option (Option α)
  | .null => some none
  | .plain scalar => if Scalar.isAbsent scalar then some none else (read (.plain scalar)).map some
  | document => (read document).map some

/-- Reads every item of a sequence. -/
def readList? {α : Type} (read : Document → Option α) : Document → Option (List α)
  | .list _ items => items.mapM read
  | .plain "" => some []
  | _ => none

/-- The documents of the named fields, in the order of the names. Refuses a name that stands twice
and a sequence with more items than there are names. -/
def readFieldsOf? (names : List String) : Document → Option (List (Option Document))
  | .record fields =>
    if names.all fun name => (fields.filter fun entry => entry.1 == name).length ≤ 1 then
      some (names.map fun name => (fields.find? fun entry => entry.1 == name).map Prod.snd)
    else none
  | .list true items =>
    if items.length ≤ names.length then
      some ((items.map some) ++ List.replicate (names.length - items.length) none)
    else none
  | .plain "" => some (names.map fun _ => none)
  | _ => none

/-- Reads a field that must be there. -/
def required? {α : Type} (read : Document → Option α) (field : Option Document) : Option α :=
  field.bind read

/-- Reads a field that has a value when it is left out. -/
def defaulted? {α : Type} (default : α) (read : Document → Option α) : Option Document → Option α
  | none => some default
  | some document => read document

/-- The chosen variant and the document that belongs to it, if one does. -/
def readVariant? : Document → Option (String × Option Document)
  | .text name => some (name, none)
  | .plain name => some (name, none)
  | .record [(name, value)] => some (name, some value)
  | _ => none

/-- What may stand behind the name of a variant without data. -/
inductive Filler where
  /-- Nothing: the variant is its name. -/
  | nothing
  /-- The absent value. -/
  | absent
  /-- The absent value or a record without fields. -/
  | absentOrEmpty

/-- Whether a variant without data is written as it may be. -/
def Filler.admits (filler : Filler) : Option Document → Bool
  | none => true
  | some .null => match filler with
    | .nothing => false
    | .absent | .absentOrEmpty => true
  | some (.record []) => match filler with
    | .nothing | .absent => false
    | .absentOrEmpty => true
  | some _ => false

/-- Reads one of several variants without data by name. -/
def readVariantOf? {α : Type} (filler : Filler) (choices : List (String × α)) (document : Document) :
    Option α := do
  let (name, content) ← readVariant? document
  if filler.admits content then (choices.find? fun choice => choice.1 == name).map Prod.snd else none

/-- Reads one of several variants without data by name; the absent value may stand behind it. -/
def readChoice? {α : Type} (choices : List (String × α)) (document : Document) : Option α :=
  document.readVariantOf? .absent choices

end YulAbi.Document
