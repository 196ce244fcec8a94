import YulAbi.Word

/-!
# Keccak-256

The sponge of rate 136 bytes over the permutation of 25 lanes of 64 bits, with
the padding that starts with the byte `0x01`. Signatures are hashed with it:
four leading bytes make a selector, all 32 an event topic.
-/

namespace YulAbi.Keccak

/-- The state of the sponge: lane `x + 5 * y` holds column `x` of plane `y`. -/
abbrev Lanes := Vector UInt64 25

/-- Rotation to the left inside one lane. -/
def rotate (lane : UInt64) (amount : UInt64) : UInt64 :=
  (lane <<< amount) ||| (lane >>> (64 - amount))

/-- The rotation amount of each lane. -/
def rotations : Vector UInt64 25 :=
  #v[0, 1, 62, 28, 27, 36, 44, 6, 55, 20, 3, 10, 43, 25, 39, 41, 45, 15, 21, 8, 18, 2, 61, 56, 14]

/-- The constant that each of the 24 rounds adds to the first lane. -/
def roundConstants : List UInt64 :=
  [0x0000000000000001, 0x0000000000008082, 0x800000000000808A, 0x8000000080008000,
   0x000000000000808B, 0x0000000080000001, 0x8000000080008081, 0x8000000000008009,
   0x000000000000008A, 0x0000000000000088, 0x0000000080008009, 0x000000008000000A,
   0x000000008000808B, 0x800000000000008B, 0x8000000000008089, 0x8000000000008003,
   0x8000000000008002, 0x8000000000000080, 0x000000000000800A, 0x800000008000000A,
   0x8000000080008081, 0x8000000000008080, 0x0000000080000001, 0x8000000080008008]

/-- The lane of column `x` and plane `y`, both taken modulo five. -/
def laneAt (lanes : Lanes) (x y : Nat) : UInt64 :=
  lanes.get ⟨x % 5 + 5 * (y % 5), by omega⟩

/-- The parity of one column. -/
def columnParity (lanes : Lanes) (x : Nat) : UInt64 :=
  laneAt lanes x 0 ^^^ laneAt lanes x 1 ^^^ laneAt lanes x 2 ^^^ laneAt lanes x 3 ^^^ laneAt lanes x 4

/-- Adds to each lane the parities of the two neighbouring columns. -/
def mixColumns (lanes : Lanes) : Lanes :=
  let parities : Vector UInt64 5 := Vector.ofFn fun x => columnParity lanes x.val
  Vector.ofFn fun i =>
    lanes[i] ^^^ parities.get ⟨(i.val + 4) % 5, by omega⟩ ^^^
      rotate (parities.get ⟨(i.val + 1) % 5, by omega⟩) 1

/-- Rotates every lane and moves it to its new place. -/
def permuteLanes (lanes : Lanes) : Lanes :=
  Vector.ofFn fun i =>
    let x := (i.val % 5 + 3 * (i.val / 5)) % 5
    let source := x + 5 * (i.val % 5)
    rotate (lanes.get ⟨source, by omega⟩) (rotations.get ⟨source, by omega⟩)

/-- Combines each lane with the two lanes that follow it in its plane. -/
def mixPlanes (lanes : Lanes) : Lanes :=
  Vector.ofFn fun i =>
    lanes[i] ^^^ ((~~~laneAt lanes (i.val + 1) (i.val / 5)) &&& laneAt lanes (i.val + 2) (i.val / 5))

/-- One round of the permutation. -/
def round (lanes : Lanes) (constant : UInt64) : Lanes :=
  let mixed := mixPlanes (permuteLanes (mixColumns lanes))
  mixed.set 0 (mixed[0] ^^^ constant)

/-- The permutation: all 24 rounds in order. -/
def permute (lanes : Lanes) : Lanes := roundConstants.foldl round lanes

/-- The number of input bytes that one permutation absorbs. -/
def rate : Nat := 136

/-- The message followed by its padding up to a multiple of the rate. -/
def pad (message : List UInt8) : List UInt8 :=
  let fill := rate - message.length % rate
  if fill = 1 then message ++ [0x81]
  else message ++ (0x01 :: List.replicate (fill - 2) 0) ++ [0x80]

/-- The lane written by eight bytes, least significant byte first. -/
def laneOfBytes (bytes : List UInt8) : UInt64 :=
  bytes.foldr (fun byte total => (total <<< 8) ||| byte.toUInt64) 0

/-- Adds one block of input to the state and permutes it. -/
def absorbBlock (lanes : Lanes) (block : List UInt8) : Lanes :=
  permute (Vector.ofFn fun i =>
    if i.val < 17 then lanes[i] ^^^ laneOfBytes ((block.drop (8 * i.val)).take 8) else lanes[i])

/-- Absorbs `count` blocks of input in order. -/
def absorb (lanes : Lanes) : Nat → List UInt8 → Lanes
  | 0, _ => lanes
  | count + 1, input => absorb (absorbBlock lanes (input.take rate)) count (input.drop rate)

/-- The eight bytes of a lane, least significant byte first. -/
def laneBytes (lane : UInt64) : List UInt8 :=
  (List.range 8).map fun i => (lane >>> (8 * UInt64.ofNat i)).toUInt8

/-- The 32-byte digest of a message. -/
def digest (message : List UInt8) : List UInt8 :=
  let padded := pad message
  let lanes := absorb (Vector.replicate 25 0) (padded.length / rate) padded
  (laneAt lanes 0 0 |> laneBytes) ++ (laneAt lanes 1 0 |> laneBytes) ++
    (laneAt lanes 2 0 |> laneBytes) ++ (laneAt lanes 3 0 |> laneBytes)

/-- The digest of the UTF-8 bytes of a text. -/
def digestText (text : String) : List UInt8 := digest text.toUTF8.data.toList

/-- The first four bytes of the digest of a signature. -/
def selectorBytes (signature : String) : List UInt8 := (digestText signature).take 4

/-- The selector in the four most significant bytes of a word. -/
def selectorWord (signature : String) : Word :=
  Word.ofBytes (selectorBytes signature) <<< 224

/-- The whole digest of a signature as a word. -/
def topicWord (signature : String) : Word := Word.ofBytes (digestText signature)

end YulAbi.Keccak
