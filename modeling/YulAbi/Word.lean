/-!
# Machine words

A word is 256 bits wide. Arithmetic wraps, shifts by 256 or more give zero and
division by zero gives zero. A word is stored as 32 bytes, most significant
byte first, and is written in text as hexadecimal without leading zeros.
-/

namespace YulAbi

/-- A machine word of 256 bits, read as an unsigned number unless said otherwise. -/
abbrev Word := BitVec 256

namespace Word

/-- The word of a number, taken modulo `2 ^ 256`. -/
abbrev ofNat (value : Nat) : Word := BitVec.ofNat 256 value

/-- One for a true condition, zero for a false one. -/
def ofBool (condition : Bool) : Word := if condition then 1#256 else 0#256

/-- The byte at an index counted from the most significant end; zero past the last byte. -/
def byteAt (word : Word) (index : Nat) : UInt8 :=
  if index < 32 then UInt8.ofNat (word.toNat >>> (8 * (31 - index))) else 0

/-- The 32 bytes of a word, most significant byte first. -/
def toBytes (word : Word) : List UInt8 := (List.range 32).map (byteAt word)

/-- A word always takes 32 bytes. -/
theorem toBytes_length (word : Word) : (toBytes word).length = 32 := by simp [toBytes]

/-- The number written by bytes, most significant byte first. -/
def natOfBytes (bytes : List UInt8) : Nat :=
  bytes.foldl (fun total byte => total * 256 + byte.toNat) 0

/-- The word written by at most 32 bytes, most significant byte first. -/
def ofBytes (bytes : List UInt8) : Word := ofNat (natOfBytes bytes)

/-- Left shift; an amount of 256 or more leaves nothing. -/
def shiftLeft (amount value : Word) : Word :=
  if amount.toNat < 256 then value <<< amount.toNat else 0#256

/-- Right shift; an amount of 256 or more leaves nothing. -/
def shiftRight (amount value : Word) : Word :=
  if amount.toNat < 256 then value >>> amount.toNat else 0#256

/-- The word whose lowest `bits` bits are set. -/
def lowMask (bits : Nat) : Word := BitVec.allOnes 256 >>> (256 - bits)

/-- The byte of `value` at an index counted from the most significant end, as a word. -/
def selectByte (index value : Word) : Word :=
  if index.toNat < 32 then ofNat (byteAt value index.toNat).toNat else 0#256

/-- Sign extension from the lowest `bytes + 1` bytes; 31 or more keeps the value. -/
def signExtend (bytes value : Word) : Word :=
  if bytes.toNat < 31 then
    let low := lowMask (8 * bytes.toNat + 8)
    if value.getLsbD (8 * bytes.toNat + 7) then value ||| ~~~low else value &&& low
  else value

/-- The number of bytes that the value needs, none for zero. -/
def byteLength (word : Word) : Nat :=
  ((List.range 33).find? fun count => word.toNat < Nat.pow 256 count).getD 32

end Word

end YulAbi
