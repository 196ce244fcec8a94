import YulAbi.Proofs.Codec.Decoding.Copy

/-!
# Decoding arrays

How decoders of arrays begin, and loops that store one word for each element. That a loop
succeeds shows that all its words fit the memory, so no address has wrapped. Arrays of
static elements are settled here as well.
-/

namespace YulAbi.Codec

open Machine (Fresh Roomy)
open Value (Matches Placed Stands allocated encodeAs flatExtent lengthSize storedCount)

/-- Whether a machine has been left by the beginning of the decoder of an array. -/
structure Opened (before after : Machine) (length : Option Nat) (source target count : Word) : Prop where
  /-- The array is placed at the free memory pointer, which has not been moved yet. -/
  placed : target.toNat = before.free
  /-- The number of elements is that in call data. -/
  counted : count.toNat = storedCount before.calldata length source.toNat
  /-- It has been stored in front of the elements. -/
  stored : storedCount after.memory length before.free = count.toNat
  /-- There is memory for it. -/
  fits : before.free + lengthSize length ≤ memoryLimit
  /-- Nothing else has changed. -/
  changes : before.ChangesOnly (fun index => before.free ≤ index ∧ index < before.free + lengthSize length) after

/-- Whether elements have been copied from places in call data to offsets behind the first of the words that
point to them, one behind the other. -/
structure Linked (before after : Machine) (base : Shape) (length : Option Nat) (source word : Word)
    (starts offset : Nat → Nat) : Prop where
  /-- The array is placed where the free memory pointer was. -/
  placed : word.toNat = before.free
  /-- Nothing below has changed. -/
  advances : before.Advances after
  /-- The number of elements is that in call data. -/
  stored : storedCount after.memory length before.free = storedCount before.calldata length source.toNat
  /-- The words point to the elements. -/
  words : ∀ position < storedCount before.calldata length source.toNat,
    (after.wordAt (before.free + lengthSize length + wordBytes * position)).toNat =
      before.free + lengthSize length + offset position
  /-- The elements are copies. -/
  copied : ∀ position < storedCount before.calldata length source.toNat,
    ∀ index < flatExtent before.calldata base (starts position),
      Memory.byteAt after.memory (before.free + lengthSize length + offset position + index) =
        Memory.byteAt before.calldata (starts position + index)
  /-- The first element follows the words. -/
  first : offset 0 = wordBytes * storedCount before.calldata length source.toNat
  /-- Every other element follows the one before it. -/
  next : ∀ position < storedCount before.calldata length source.toNat,
    offset (position + 1) = offset position + flatExtent before.calldata base (starts position)
  /-- Memory has been allocated up to the end of the last element. -/
  moved : after.free = before.free + lengthSize length + offset (storedCount before.calldata length source.toNat)

section

variable {before middle after start : Machine} {base : Shape} {length : Option Nat} {value : Value}
  {source target head count word : Word} {starts offset : Nat → Nat}

/-- The number of elements is looked up without any change. -/
theorem run_countAt (few : ∀ expected ∈ length, expected < 2 ^ 64) (source : Word) (machine : Machine) :
    ∃ count, (countAt length source).run machine = .ok count machine ∧
      count.toNat = storedCount machine.calldata length source.toNat := by
  cases length with
  | none => exact ⟨_, Machine.run_calldataload source machine, rfl⟩
  | some expected =>
    have small := few expected rfl
    exact ⟨Word.ofNat expected, rfl, Word.toNat_ofNat (by omega)⟩

/-- What the beginning of the decoder of an array leaves. -/
theorem opened_of_ok (few : ∀ expected ∈ length, expected < 2 ^ 64) (roomy : before.Roomy)
    {reached reached' : Machine} (loaded : (Machine.mload freeSlot).run before = .ok target reached)
    (counted : (countAt length source).run reached = .ok count reached')
    (stored : (storeCount length target count).run reached' = .ok () after) :
    Opened before after length source target count := by
  obtain ⟨isFree, rfl⟩ := Machine.eq_of_mload_free loaded
  obtain ⟨number, found, same⟩ := run_countAt few source reached
  rw [found] at counted
  cases counted
  have room := roomy.fits
  cases length with
  | none =>
    obtain ⟨fits, puts⟩ := Machine.puts_of_mstore stored
    have size : (Word.toBytes count).length = 32 := Word.toBytes_length count
    refine ⟨isFree, same, ?_, ?_, puts.changes fun index lower upper => ?_⟩
    · rw [← isFree]
      exact congrArg BitVec.toNat puts.wordAt
    · simp only [lengthSize, wordBytes]
      omega
    · simp only [lengthSize, wordBytes]
      omega
  | some expected =>
    cases stored
    exact ⟨isFree, same, same.symm, by rw [lengthSize, Nat.add_zero]; exact room, .refl _ _⟩

/-- The decoder of an array begins if there is memory for the length word. -/
theorem exists_opened (few : ∀ expected ∈ length, expected < 2 ^ 64) (before : Machine) (source : Word)
    (fits : before.free + lengthSize length ≤ memoryLimit) :
    ∃ target count after, (Machine.mload freeSlot).run before = .ok target before ∧
      (countAt length source).run before = .ok count before ∧
      (storeCount length target count).run before = .ok () after := by
  obtain ⟨count, counted, -⟩ := run_countAt few source before
  refine ⟨before.wordAt Machine.freePointerSlot, count, ?_⟩
  cases length with
  | none =>
    obtain ⟨after, stored⟩ := Machine.mstore_ok before _ count fits
    exact ⟨after, Machine.run_mload_free before, counted, stored⟩
  | some expected => exact ⟨before, Machine.run_mload_free before, counted, rfl⟩

/-- The address of the word of an element. -/
theorem toNat_wordSlot (head : Word) (index : Nat) (small : head.toNat + wordBytes * index < 2 ^ 256) :
    (wordSlot head (Word.ofNat index)).toNat = head.toNat + wordBytes * index := by
  simp only [wordBytes] at small
  have slot : (Word.ofNat index * 32#256).toNat = 32 * index := by
    rw [Word.ofNat_mul index 32, Word.toNat_ofNat (by omega), Nat.mul_comm]
  rw [wordSlot, Word.toNat_add (by omega), slot, wordBytes]

/-- The size of the heads of elements as a word. -/
theorem mul_wordBytes (count : Word) : count * 32#256 = Word.ofNat (wordBytes * count.toNat) := by
  have product := Word.ofNat_mul count.toNat 32
  rw [Word.ofNat_toNat] at product
  rw [wordBytes, Nat.mul_comm]
  exact product

/-- The address behind as many words as there are elements. -/
theorem toNat_behind (small : head.toNat + wordBytes * count.toNat < 2 ^ 256) :
    (head + count * 32#256).toNat = head.toNat + wordBytes * count.toNat := by
  have slot := toNat_wordSlot _ _ small
  rwa [Word.ofNat_toNat] at slot

/-- The address of the first element word. -/
theorem Opened.toNat_head (opened : Opened before after length source target count) :
    (target + leadSize length).toNat = before.free + lengthSize length := by
  have limit : memoryLimit < 2 ^ 256 := by decide
  have fits := opened.fits
  rw [Word.toNat_add] <;> rw [toNat_leadSize, opened.placed]
  omega

/-- The words of elements lie within the limit if each of them does, however many there are. -/
theorem slots_fit (small : head.toNat ≤ memoryLimit) {number : Nat}
    (fit : ∀ index < number, (wordSlot head (Word.ofNat index)).toNat + 32 ≤ memoryLimit) :
    head.toNat + wordBytes * number ≤ memoryLimit := by
  have limit : memoryLimit < 2 ^ 255 := by decide
  induction number with
  | zero => exact small
  | succ number ih =>
    have before := ih fun index inside => fit index (by omega)
    have last := fit number (by omega)
    rw [toNat_wordSlot _ _ (by omega)] at last
    rw [Nat.mul_succ, wordBytes] at *
    omega

/-- A loop that stores one word for each element. -/
theorem rounds_links {number : Nat} {link : Nat → Word} {body : Word → Unit → MachineStep Unit} (place : Nat)
    (round : ∀ index < number, ∀ middle next,
      start.ChangesOnly (fun offset => place ≤ offset ∧ offset < place + wordBytes * index) middle →
      (body (Word.ofNat index) ()).run middle = .ok () next →
      middle.Puts next (place + wordBytes * index) (Word.toBytes (link index)))
    (h : (Machine.rounds body number 0#256 ()).run start = .ok () after) :
    start.ChangesOnly (fun offset => place ≤ offset ∧ offset < place + wordBytes * number) after ∧
      ∀ index < number, after.wordAt (place + wordBytes * index) = link index := by
  refine Machine.rounds_keep (fun done _ machine =>
    start.ChangesOnly (fun offset => place ≤ offset ∧ offset < place + wordBytes * done) machine ∧
      ∀ index < done, machine.wordAt (place + wordBytes * index) = link index) ?_
    ⟨.refl _ _, fun index inside => absurd inside (Nat.not_lt_zero _)⟩ h
  rintro done inside _ machine _ next ⟨changed, linked⟩ run
  have puts := round done inside machine next changed run
  have size : (Word.toBytes (link done)).length = wordBytes := Word.toBytes_length _
  refine ⟨(changed.mono fun offset covered => ?_).trans (puts.changes fun offset lower upper => ?_),
    fun index below => ?_⟩
  · rw [Nat.mul_succ]
    omega
  · rw [Nat.mul_succ]
    omega
  · by_cases last : index = done
    · subst last
      exact puts.wordAt
    · have earlier := Nat.mul_le_mul_left wordBytes (show index + 1 ≤ done by omega)
      rw [Nat.mul_succ] at earlier
      rw [← linked index (by omega)]
      refine puts.outside.wordAt fun offset inside covered => ?_
      simp only [wordBytes] at earlier covered
      omega

/-- A loop that stores words succeeds if each store does. -/
theorem rounds_links_ok (number : Nat) (body : Word → Unit → MachineStep Unit)
    (round : ∀ index < number, ∀ machine, ∃ next, (body (Word.ofNat index) ()).run machine = .ok () next)
    (machine : Machine) : ∃ after, (Machine.rounds body number 0#256 ()).run machine = .ok () after := by
  obtain ⟨_, after, run, -⟩ := Machine.rounds_ok body (fun _ _ _ => True)
    (fun index inside _ machine _ => by
      obtain ⟨next, run⟩ := round index inside machine
      exact ⟨(), next, run, trivial⟩) trivial
  exact ⟨after, run⟩

/-- The elements that have been copied, as they are in call data. -/
def copiedElements (calldata : ByteArray) (base : Shape) (starts : Nat → Nat) (number : Nat) : List Value :=
  (List.range number).map fun position => Value.flatValue calldata base (starts position)

/-- There are as many elements as have been copied. -/
theorem length_copiedElements (calldata : ByteArray) (base : Shape) (starts : Nat → Nat) (number : Nat) :
    (copiedElements calldata base starts number).length = number := by
  simp [copiedElements]

/-- Each element is that in call data. -/
theorem getElem_copiedElements {calldata : ByteArray} {number position : Nat}
    (inside : position < (copiedElements calldata base starts number).length) :
    (copiedElements calldata base starts number)[position] = Value.flatValue calldata base (starts position) := by
  simp [copiedElements]

/-- Later elements have greater offsets. -/
theorem offset_mono {number : Nat} {size : Nat → Nat}
    (next : ∀ position < number, offset (position + 1) = offset position + size position) {position later : Nat}
    (behind : position ≤ later) (inside : later ≤ number) : offset position ≤ offset later := by
  induction later with
  | zero => exact Nat.le_of_eq (by rw [Nat.le_zero.mp behind])
  | succ later ih =>
    rcases Nat.le_succ_iff.mp behind with earlier | same
    · have step := next later inside
      have below := ih earlier (by omega)
      omega
    · rw [same]

/-- Elements that have been copied and linked are an array. -/
theorem Linked.places (linked : Linked before after base length source word starts offset) (flat : base.IsFlat) :
    Placed before after (.array base length) word (.array (copiedElements before.calldata base starts
      (storedCount before.calldata length source.toNat))) := by
  have size := length_copiedElements before.calldata base starts (storedCount before.calldata length source.toNat)
  have memory := Value.allocatedEach_eq _ fun position inside => by
      rw [getElem_copiedElements, Value.allocated_flatValue flat]
      exact linked.next position (size ▸ inside)
  rw [size, linked.first] at memory
  have room := offset_mono linked.next (Nat.zero_le _) (Nat.le_refl _)
  rw [linked.first] at room
  refine ⟨?_, .ofArray ?_ (Nat.le_of_eq linked.placed.symm) ?_ linked.advances.fits fun position inside => ?_⟩
  · rw [linked.moved, Value.allocated_array, size, memory]
    omega
  · rw [linked.placed, size]
    exact linked.stored
  · rw [linked.placed, linked.moved, size]
    omega
  · rw [size] at inside
    have behind := offset_mono linked.next inside (Nat.le_refl _)
    rw [linked.next position inside] at behind
    rw [getElem_copiedElements, linked.placed]
    have pointer := linked.words position inside
    refine Value.stands_copy flat (fun index below => ?_) (by omega) ?_ linked.advances.fits
    · rw [pointer]
      exact linked.copied position inside index below
    · rw [pointer, linked.moved]
      omega

end

end YulAbi.Codec
