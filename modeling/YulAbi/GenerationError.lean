import YulAbi.Text.Hex

/-!
# Why generation fails

Every cause for which building a type, measuring it, packing it or generating a
routine may be refused, with the wording of each. Generated code never has to
handle any of them.
-/

namespace YulAbi

/-- A size or offset that some types do not have. -/
inductive SizeQuery where
  /-- Size of a static encoding. -/
  | encodedSize
  /-- Size of the fixed part of a dynamic encoding. -/
  | encodedTailSize
  /-- Size of the memory that a value owns directly. -/
  | memorySize
  /-- Distance between encoded elements. -/
  | callStride
  /-- Distance between elements in memory. -/
  | memoryStride
  /-- Width without padding. -/
  | exactBits
  /-- Bit offsets of parts. -/
  | packedLayout
  /-- Offset of a part. -/
  | memberOffset
  /-- Offset within the owner. -/
  | offsetWithinParent
  /-- Size of the region of encoded heads. -/
  | headRegion
  deriving DecidableEq

/-- The wording of a size query. -/
def SizeQuery.text : SizeQuery → String
  | .encodedSize => "calldataEncodedSize"
  | .encodedTailSize => "calldataEncodedTailSize"
  | .memorySize => "memoryDataSize"
  | .callStride => "calldataStride"
  | .memoryStride => "memoryStride"
  | .exactBits => "exactBits"
  | .packedLayout => "packed layout"
  | .memberOffset => "member offset"
  | .offsetWithinParent => "offset within parent"
  | .headRegion => "calldata head region"

/-- Something that can be generated for some shapes only. -/
inductive Task where
  /-- Choosing how an array is copied. -/
  | arrayStrategy
  /-- Splitting a struct into copied runs. -/
  | segmentation
  /-- Reading a value from call data. -/
  | decode
  /-- Writing a value as call data. -/
  | encode
  /-- Reading or writing a parameter list. -/
  | parameters
  /-- Writing an error. -/
  | errorEncoding
  /-- Writing the data of an event. -/
  | eventEncoding
  /-- Naming the hashed signature. -/
  | signature
  /-- Measuring one element of an array that is copied in one go. -/
  | elementTail
  /-- Naming the source type of a decoder. -/
  | decoderSignature
  /-- Naming the source type. -/
  | sourceType
  deriving DecidableEq

/-- The wording of a task. -/
def Task.text : Task → String
  | .arrayStrategy => "array classification"
  | .segmentation => "struct segmentation"
  | .decode => "decode"
  | .encode => "encode"
  | .parameters => "parameter transcoding"
  | .errorEncoding => "error encoding"
  | .eventEncoding => "event encoding"
  | .signature => "signature"
  | .elementTail => "combined dynamic tail"
  | .decoderSignature => "decoder signature"
  | .sourceType => "solidity type name"

/-- What is wrong with a type that is being built or measured. -/
inductive TypeFlaw where
  /-- The width of an integer. -/
  | integerWidth (bits : Nat)
  /-- The size of a fixed byte string. -/
  | fixedBytesSize (size : Nat)
  /-- The number of members of an enumeration. -/
  | enumerationMembers (name : String) (count : Nat)
  /-- The type that a user-defined type wraps. -/
  | wrappedType (name typeName : String)
  /-- An array without elements. -/
  | emptyArray (typeName : String)
  /-- An element type that arrays cannot have. -/
  | arrayElement (typeName : String)
  /-- A member type that composites cannot have. -/
  | memberType (owner label typeName : String)
  /-- A size beyond 64 bits. -/
  | sizeOverflow (typeName : String)
  deriving DecidableEq

/-- The wording of a flaw. -/
def TypeFlaw.text : TypeFlaw → String
  | .integerWidth bits => s!"integer width {bits} must be a multiple of 8 in 8..=256"
  | .fixedBytesSize size => s!"bytes{size}: size must be 1..=32"
  | .enumerationMembers name count => s!"enum {name} has {count} members, at most 256 are allowed"
  | .wrappedType name typeName =>
    s!"user-defined type {name} must wrap an elementary value type, got {typeName}"
  | .emptyArray typeName => s!"{typeName}[0]: fixed arrays need at least one element"
  | .arrayElement typeName => s!"{typeName} cannot be an array element"
  | .memberType owner label typeName => s!"{owner}.{label}: {typeName} cannot be a member"
  | .sizeOverflow typeName => s!"size of {typeName} overflows"

/-- Why a type has no fixed place in storage. -/
inductive PackingObstacle where
  /-- The root is not a composite of fixed size. -/
  | root
  /-- A part is encoded dynamically. -/
  | dynamicPart
  /-- A part is neither a value nor a composite. -/
  | notStorable
  /-- An array without fixed length. -/
  | dynamicArray
  deriving DecidableEq

/-- The wording of an obstacle. -/
def PackingObstacle.text : PackingObstacle → String
  | .root => "only structs, tuples and fixed-size arrays can be packed"
  | .dynamicPart => "dynamically sized data has no fixed slot"
  | .notStorable => "not a storable type"
  | .dynamicArray => "dynamically sized arrays have no fixed slot"

/-- What is wrong with a packed layout. -/
inductive LayoutFlaw where
  /-- A field without bits or beyond the end of its slot. -/
  | outsideSlot (label : String) (start stop slot : Nat)
  /-- A field in a slot that the layout does not have. -/
  | missingSlot (label : String) (slot slotCount : Nat)
  /-- Two fields that share bits. -/
  | overlap (label other : String) (slot : Nat)
  deriving DecidableEq

/-- The wording of a layout flaw. -/
def LayoutFlaw.text : LayoutFlaw → String
  | .outsideSlot label start stop slot => s!"{label} spans bits {start}..{stop} of slot {slot}"
  | .missingSlot label slot slotCount => s!"{label} sits in slot {slot} of a {slotCount}-slot layout"
  | .overlap label other slot => s!"{label} overlaps {other} in slot {slot}"

/-- The text of a word in generated code: one decimal digit, or hexadecimal. -/
def literalText (word : Word) : String :=
  if word.toNat < 10 then toString word.toNat else Hex.ofWord word

/-- The cause of a failed generation. -/
inductive GenerationError where
  /-- The type has no such size. -/
  | undefinedSize (typeName : String) (query : SizeQuery)
  /-- The type is malformed. -/
  | invalidType (flaw : TypeFlaw)
  /-- The type has no such member. -/
  | unknownMember (typeName member : String)
  /-- The node is not a member of its owner. -/
  | notAMember (parent child : String)
  /-- A run of members is not laid out word by word on both sides. -/
  | segmentMismatch (typeName : String) (index callOffset memoryOffset : Nat)
  /-- The task does not apply to the type. -/
  | unsupportedShape (typeName : String) (task : Task)
  /-- The type cannot be packed. -/
  | unsupportedPacking (typeName : String) (obstacle : PackingObstacle)
  /-- The packed layout is malformed. -/
  | invalidLayout (flaw : LayoutFlaw)
  /-- A constant is bound to another value. -/
  | constantConflict (name : String) (existing requested : Word)
  /-- A routine of that name has another content. -/
  | routineConflict (name : String)
  /-- Two routines take or return different numbers of words. -/
  | incompatibleCast (source target : String)
  /-- A bit range that does not lie inside one word. -/
  | invalidField (bitOffset bitLength : Nat)
  deriving DecidableEq

/-- The wording of a cause. -/
def GenerationError.message : GenerationError → String
  | .undefinedSize typeName query => query.text ++ s!" is undefined for type '{typeName}'"
  | .invalidType flaw => "invalid type definition: " ++ flaw.text
  | .unknownMember typeName member => s!"type '{typeName}' has no member '{member}'"
  | .notAMember parent child => s!"type '{child}' is not a member of '{parent}'"
  | .segmentMismatch typeName index callOffset memoryOffset =>
    s!"segment offsets diverge in '{typeName}' at member {index}: " ++
      s!"calldata +{callOffset} vs memory +{memoryOffset}"
  | .unsupportedShape typeName task =>
    "cannot generate " ++ task.text ++ s!" for '{typeName}': unsupported shape"
  | .unsupportedPacking typeName obstacle => s!"cannot pack '{typeName}': " ++ obstacle.text
  | .invalidLayout flaw => "packed layout is invalid: " ++ flaw.text
  | .constantConflict name existing requested =>
    s!"constant '{name}' already bound to " ++ literalText existing ++ ", refusing " ++
      literalText requested
  | .routineConflict name => s!"routine '{name}' already exists with a different body"
  | .incompatibleCast source target =>
    s!"cannot cast '{source}' to '{target}': calling conventions differ"
  | .invalidField bitOffset bitLength =>
    s!"field of {bitLength} bits at bit offset {bitOffset} does not fit in one word"

/-- The result of a step of generation. -/
abbrev Generated (α : Type) := Except GenerationError α

end YulAbi
