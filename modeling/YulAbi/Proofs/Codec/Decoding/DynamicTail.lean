import YulAbi.Proofs.Codec.Decoding.Array

/-!
# Decoding arrays of one dynamic level

Call data is canonical if the tails of elements follow one another and end inside it, with
sums counted without any wrap. The decoder reverts without data exactly where it is not;
elsewhere one copy and a loop that turns offsets into pointers place the array. Lengths are
bounded by the checks, so the total of the decoder does not wrap either.
-/

namespace YulAbi.Codec

open Machine (Fresh)
open Value (EncodesEach tailsBefore Matches allocated allocatedEach encodeAs flatExtent lengthSize storedCount tailSpan)

/-- Where the tail of an element begins behind the heads of a number of elements, if all tails before it follow
one another. -/
def tailOffset (calldata : ByteArray) (element : Shape) (head number : Nat) : Nat → Nat
  | 0 => wordBytes * number
  | index + 1 =>
    let offset := tailOffset calldata element head number index
    offset + tailSpan element (Memory.wordAt calldata (head + offset)).toNat

/-- Whether the head of an element holds the offset of its tail, and its length is not too great. -/
structure TailInOrder (calldata : ByteArray) (element : Shape) (head number index : Nat) : Prop where
  /-- The offset is that behind the tails before it. -/
  ordered : (Memory.wordAt calldata (head + wordBytes * index)).toNat = tailOffset calldata element head number index
  /-- The length fits 64 bits. -/
  bounded : (Memory.wordAt calldata (head + tailOffset calldata element head number index)).toNat < 2 ^ 64

/-- Whether an encoded array of one dynamic level is laid out canonically. -/
structure Canonical (calldata : ByteArray) (element : Shape) (length : Option Nat) (start : Nat) : Prop where
  /-- The number of elements fits 64 bits. -/
  few : storedCount calldata length start < 2 ^ 64
  /-- All tails are in order. -/
  tails : ∀ index < storedCount calldata length start,
    TailInOrder calldata element (start + lengthSize length) (storedCount calldata length start) index
  /-- The last one ends inside call data. -/
  inside : start + lengthSize length + tailOffset calldata element (start + lengthSize length)
    (storedCount calldata length start) (storedCount calldata length start) ≤ calldata.size

section

variable {calldata : ByteArray} {before after : Machine} {element base : Shape} {length : Option Nat}
  {head number : Nat} {source word callHead index tail next : Word} {extent : Word → Word}

/-- The bound of lengths. -/
theorem toNat_maxLength : maxLength.toNat = 2 ^ 64 - 1 := rfl

/-- Lengths above the bound do not fit 64 bits. -/
theorem maxLength_lt (length : Word) : decide (maxLength < length) = true ↔ ¬ length.toNat < 2 ^ 64 := by
  rw [decide_eq_true_iff, BitVec.lt_def, toNat_maxLength]
  omega

/-- A tail whose length fits 64 bits. -/
theorem tailSpan_le (element : Shape) {size : Nat} (small : size < 2 ^ 64) : tailSpan element size ≤ 2 ^ 70 := by
  unfold tailSpan
  split <;> omega

/-- Tails in order are not far behind the heads. -/
theorem tailOffset_le {count : Nat} (few : number < 2 ^ 64) (inside : count ≤ number)
    (tails : ∀ index < count, TailInOrder calldata element head number index) :
    tailOffset calldata element head number count ≤ 2 ^ 70 + count * 2 ^ 70 := by
  induction count with
  | zero =>
    rw [tailOffset, wordBytes]
    omega
  | succ count ih =>
    have below := ih (by omega) fun index earlier => tails index (by omega)
    have span := tailSpan_le element (tails count (by omega)).bounded
    rw [tailOffset]
    omega

/-- Tails are behind the heads. -/
theorem le_tailOffset (calldata : ByteArray) (element : Shape) (head number count : Nat) :
    wordBytes * number ≤ tailOffset calldata element head number count := by
  induction count with
  | zero => exact Nat.le_refl _
  | succ count ih => exact Nat.le_trans ih (Nat.le_add_right _ _)

/-- One check passes if the offset is the expected one and the length is not too great. -/
theorem checkTail_eq_ok : (checkTail extent callHead index tail).run before = .ok next after ↔
    Memory.wordAt before.calldata (wordSlot callHead index).toNat = tail ∧
      (Memory.wordAt before.calldata (callHead + tail).toNat).toNat < 2 ^ 64 ∧
      next = tail + extent (Memory.wordAt before.calldata (callHead + tail).toNat) ∧ after = before := by
  rw [checkTail, Step.bind_of_ok (Machine.run_calldataload _ before)]
  constructor
  · intro h
    obtain ⟨_, reached, ordered, h⟩ := Step.bind_eq_ok.mp h
    obtain ⟨same, rfl⟩ := Machine.refuseIf_eq_ok.mp ordered
    rw [Step.bind_of_ok (Machine.run_calldataload _ _)] at h
    obtain ⟨_, reached', bounded, h⟩ := Step.bind_eq_ok.mp h
    obtain ⟨fits, rfl⟩ := Machine.refuseIf_eq_ok.mp bounded
    obtain ⟨rfl, rfl⟩ := Step.pure_eq_ok.mp h
    have same := bne_eq_false_iff_eq.mp same
    rw [same] at fits ⊢
    refine ⟨rfl, ?_, rfl, rfl⟩
    by_contra beyond
    rw [(maxLength_lt _).mpr beyond] at fits
    cases fits
  · rintro ⟨ordered, bounded, rfl, rfl⟩
    rw [ordered, Step.bind_of_ok (Machine.refuseIf_eq_ok.mpr ⟨by simp, rfl⟩),
      Step.bind_of_ok (Machine.run_calldataload _ _)]
    refine (Step.bind_of_ok (Machine.refuseIf_eq_ok.mpr ⟨?_, rfl⟩)).trans rfl
    by_contra beyond
    exact (maxLength_lt _).mp (by simpa using beyond) bounded

/-- Otherwise it reverts without data. -/
theorem checkTail_refuses (refused : ¬ (Memory.wordAt before.calldata (wordSlot callHead index).toNat = tail ∧
      (Memory.wordAt before.calldata (callHead + tail).toNat).toNat < 2 ^ 64)) :
    (checkTail extent callHead index tail).run before = .error (.reverted []) before := by
  rw [checkTail, Step.bind_of_ok (Machine.run_calldataload _ before)]
  by_cases ordered : Memory.wordAt before.calldata (wordSlot callHead index).toNat = tail
  · have beyond : ¬ (Memory.wordAt before.calldata (callHead + tail).toNat).toNat < 2 ^ 64 :=
      fun bounded => refused ⟨ordered, bounded⟩
    rw [ordered, Step.bind_of_ok (Machine.refuseIf_eq_ok.mpr ⟨by simp, rfl⟩),
      Step.bind_of_ok (Machine.run_calldataload _ _), (maxLength_lt _).mpr beyond]
    exact Step.bind_of_error (Machine.run_refuseIf_true before)
  · rw [bne_iff_ne.mpr ordered]
    exact Step.bind_of_error (Machine.run_refuseIf_true before)

/-- The size of a tail as a word. -/
theorem ofNat_tailSpan {size : Word} (small : size.toNat < 2 ^ 64) :
    Word.ofNat (tailSpan element size.toNat) = tailExtent element size := by
  have span := tailSpan_le element small
  refine BitVec.eq_of_toNat_eq ?_
  rw [toNat_tailExtent (by omega)]
  exact Word.toNat_ofNat (by omega)

/-- The loop of checks passes if all tails are in order, and reverts without data otherwise. -/
theorem run_checkTails (near : callHead.toNat < 2 ^ 65) (few : number < 2 ^ 64) (machine : Machine) :
    ((∀ index < number, TailInOrder machine.calldata element callHead.toNat number index) →
      (Machine.rounds (checkTail (tailExtent element) callHead) number 0#256 (Word.ofNat (wordBytes * number))).run
        machine = .ok (Word.ofNat (tailOffset machine.calldata element callHead.toNat number number)) machine) ∧
    ((¬ ∀ index < number, TailInOrder machine.calldata element callHead.toNat number index) →
      (Machine.rounds (checkTail (tailExtent element) callHead) number 0#256 (Word.ofNat (wordBytes * number))).run
        machine = .error (.reverted []) machine) := by
  have places : ∀ index < number,
      (∀ earlier < index, TailInOrder machine.calldata element callHead.toNat number earlier) →
      (Word.ofNat (tailOffset machine.calldata element callHead.toNat number index)).toNat =
          tailOffset machine.calldata element callHead.toNat number index ∧
        (callHead + Word.ofNat (tailOffset machine.calldata element callHead.toNat number index)).toNat =
          callHead.toNat + tailOffset machine.calldata element callHead.toNat number index ∧
        (wordSlot callHead (Word.ofNat index)).toNat = callHead.toNat + wordBytes * index := by
    intro index inside earlier
    have below := tailOffset_le few (Nat.le_of_lt inside) earlier
    have own := Word.toNat_ofNat (show tailOffset machine.calldata element callHead.toNat number index < 2 ^ 256 by omega)
    refine ⟨own, ?_, toNat_wordSlot _ _ ?_⟩
    · rw [Word.toNat_add] <;> rw [own]
      omega
    · rw [wordBytes]
      omega
  have start : Word.ofNat (wordBytes * number) =
      Word.ofNat (tailOffset machine.calldata element callHead.toNat number 0) := rfl
  rw [start]
  refine Machine.rounds_checks (fun index => Word.ofNat (tailOffset machine.calldata element callHead.toNat number index)) ?_ ?_
  · intro index inside earlier fine
    obtain ⟨own, tail, slot⟩ := places index inside earlier
    refine checkTail_eq_ok.mpr ⟨?_, ?_, ?_, rfl⟩
    · rw [slot]
      exact BitVec.eq_of_toNat_eq (fine.ordered.trans own.symm)
    · rw [tail]
      exact fine.bounded
    · rw [tail, tailOffset, ← ofNat_tailSpan fine.bounded]
      exact BitVec.ofNat_add ..
  · intro index inside earlier bad
    obtain ⟨own, tail, slot⟩ := places index inside earlier
    refine checkTail_refuses fun fine => bad ⟨?_, ?_⟩
    · rw [← slot, fine.1, own]
    · rw [← tail]
      exact fine.2

/-- What checks that have passed say; wherever they were made, there is nothing to check or the heads begin inside
call data. -/
theorem checks_of_ok {count : Word} (few : count.toNat < 2 ^ 64) (short : before.calldata.size < 2 ^ 64)
    (h : (Machine.rounds (checkTail (tailExtent element) callHead) count.toNat 0#256 (count * 32#256)).run before =
      .ok tail after) :
    (count.toNat = 0 ∨ callHead.toNat < before.calldata.size) ∧ after = before ∧
      tail.toNat = tailOffset before.calldata element callHead.toNat count.toNat count.toNat ∧
      ∀ index < count.toNat, TailInOrder before.calldata element callHead.toNat count.toNat index := by
  rw [mul_wordBytes] at h
  cases number : count.toNat with
  | zero =>
    rw [number] at h
    obtain ⟨rfl, rfl⟩ := Step.pure_eq_ok.mp h
    exact ⟨.inl rfl, rfl, rfl, fun index inside => absurd inside (Nat.not_lt_zero _)⟩
  | succ others =>
    rw [number] at h few
    have near : callHead.toNat < before.calldata.size := by
      obtain ⟨next, reached, first, _⟩ := Step.bind_eq_ok.mp h
      obtain ⟨ordered, -⟩ := checkTail_eq_ok.mp first
      by_contra outside
      have slot : wordSlot callHead 0#256 = callHead := by simp [wordSlot]
      rw [slot, Memory.wordAt_of_size_le (by omega)] at ordered
      have fits : wordBytes * (others + 1) < 2 ^ 256 := by
        rw [wordBytes]
        omega
      have same := congrArg BitVec.toNat ordered
      rw [Word.toNat_ofNat fits, BitVec.toNat_zero, wordBytes] at same
      omega
    obtain ⟨passes, refuses⟩ := run_checkTails (show callHead.toNat < 2 ^ 65 by omega) few before
    by_cases tails : ∀ index < others + 1, TailInOrder before.calldata element callHead.toNat (others + 1) index
    · rw [passes tails] at h
      cases h
      have below := tailOffset_le few (Nat.le_refl _) tails
      exact ⟨.inr near, rfl, Word.toNat_ofNat (by omega), tails⟩
    · rw [refuses tails] at h
      cases h

/-- The check of the number of elements. -/
theorem checkCount_eq_ok {count : Word} (few : ∀ expected ∈ length, count.toNat < 2 ^ 64) :
    (checkCount length count).run before = .ok () after ↔ count.toNat < 2 ^ 64 ∧ after = before := by
  cases length with
  | some expected =>
    have small := few expected rfl
    refine Step.pure_eq_ok.trans ⟨fun same => ⟨small, same.2.symm⟩, fun same => ⟨rfl, same.2.symm⟩⟩
  | none =>
    refine Machine.refuseIf_eq_ok.trans (and_congr_left fun _ => ?_)
    rw [← Bool.not_eq_true, maxLength_lt, not_not]

/-- The size of call data is looked up without any change. -/
theorem run_calldatasize (machine : Machine) :
    Machine.calldatasize.run machine = .ok (Word.ofNat machine.calldata.size) machine := rfl

/-- The heads of an array that has any elements are where they are. -/
theorem toNat_callHead (short : before.calldata.size < 2 ^ 64) (some : 0 < storedCount before.calldata length source.toNat)
    (near : (source + leadSize length).toNat < before.calldata.size) :
    (source + leadSize length).toNat = source.toNat + lengthSize length := by
  have inside : source.toNat < 2 ^ 255 := by
    cases length with
    | some count =>
      rw [leadSize, BitVec.add_zero] at near
      omega
    | none =>
      by_contra outside
      rw [storedCount, Memory.wordAt_of_size_le (by omega)] at some
      exact absurd some (Nat.lt_irrefl 0)
  have lead := lengthSize_le length
  rw [Word.toNat_add] <;> rw [toNat_leadSize]
  omega

/-- The loop that turns offsets into pointers. -/
theorem linkTails_links {start : Machine} {place : Nat} {offset : Nat → Nat}
    (at_head : callHead.toNat = place)
    (offsets : ∀ index < number, (start.wordAt (place + wordBytes * index)).toNat = offset index)
    (fits : place + wordBytes * number ≤ memoryLimit) (near : ∀ index < number, place + offset index ≤ memoryLimit)
    (h : (Machine.rounds (fun index _ => linkTail callHead index) number 0#256 ()).run start = .ok () after) :
    start.ChangesOnly (fun index => place ≤ index ∧ index < place + wordBytes * number) after ∧
      ∀ index < number, (after.wordAt (place + wordBytes * index)).toNat = place + offset index := by
  have limit : memoryLimit < 2 ^ 64 := by decide
  obtain ⟨slotted, words⟩ := rounds_links place
    (fun index inside middle later untouched run => by
      have slot := Nat.mul_le_mul_left wordBytes (show index + 1 ≤ number from inside)
      rw [Nat.mul_succ] at slot
      have address := toNat_wordSlot callHead index (by omega)
      rw [at_head] at address
      obtain ⟨read, reached, loaded, stored⟩ := Step.bind_eq_ok.mp run
      obtain ⟨-, value, unread⟩ := Machine.eq_of_mload loaded
      obtain rfl := unread.symm
      have puts := (Machine.puts_of_mstore stored).2
      rw [address] at value puts
      rw [value, untouched.wordAt fun byte small covered => by omega] at puts
      exact puts) h
  refine ⟨slotted, fun index inside => ?_⟩
  have own := offsets index inside
  have room := near index inside
  rw [words index inside, Word.toNat_add] <;> rw [own, at_head]
  omega

/-- Whether everything that the decoder of elements of one dynamic level does has succeeded. -/
structure TailsDecoded (before after : Machine) (base : Shape) (length : Option Nat) (source word : Word)
    (count tail : Word) (filled grown : Machine) : Prop where
  /-- The array is placed at the free memory pointer. -/
  placed : word.toNat = before.free
  /-- The number of elements is that in call data. -/
  counted : count.toNat = storedCount before.calldata length source.toNat
  /-- It fits 64 bits. -/
  few : count.toNat < 2 ^ 64
  /-- The heads begin inside call data, unless there are none. -/
  near : count.toNat = 0 ∨ (source + leadSize length).toNat < before.calldata.size
  /-- The tails are in order. -/
  tails : ∀ index < count.toNat,
    TailInOrder before.calldata base (source + leadSize length).toNat count.toNat index
  /-- The running total is the end of the last one. -/
  summed : tail.toNat =
    tailOffset before.calldata base (source + leadSize length).toNat count.toNat count.toNat
  /-- The end of the last one, which may wrap, has been compared with the size of call data. -/
  within : (source + (tail + leadSize length)).toNat ≤ before.calldata.size
  /-- Everything has been copied. -/
  copied : (Machine.calldatacopy word source (tail + leadSize length)).run before = .ok () filled
  /-- Memory for it has been allocated. -/
  moved : (Machine.mstore freeSlot (word + (tail + leadSize length))).run filled = .ok () grown
  /-- Offsets have been turned into pointers. -/
  linked : (Machine.rounds (fun index _ => linkTail (word + leadSize length) index) count.toNat 0#256 ()).run
    grown = .ok () after

/-- What the decoder of elements of one dynamic level has done if it succeeds. -/
theorem tailsDecoded_of_ok (few : ∀ expected ∈ length, expected < 2 ^ 64) (short : before.calldata.size < 2 ^ 64)
    (h : (decodeDynamicTail length (tailExtent base) source).run before = .ok word after) :
    ∃ count tail filled grown, TailsDecoded before after base length source word count tail filled grown := by
  obtain ⟨count, counted, same⟩ := run_countAt few source before
  rw [decodeDynamicTail, Step.bind_of_ok (Machine.run_mload_free before), Step.bind_of_ok counted] at h
  obtain ⟨_, checked, bounded, ordering⟩ := Step.bind_eq_ok.mp h
  obtain ⟨small, unchanged⟩ := (checkCount_eq_ok fun expected listed => by
    have fits := few expected listed
    cases listed
    rwa [same]).mp bounded
  obtain rfl := unchanged.symm
  obtain ⟨tail, checked', ordered, measuring⟩ := Step.bind_eq_ok.mp ordering
  obtain ⟨near, unchanged', summed, tails⟩ := checks_of_ok small short ordered
  obtain rfl := unchanged'.symm
  rw [Step.bind_of_ok (run_calldatasize before)] at measuring
  obtain ⟨_, checked'', accepted, copying⟩ := Step.bind_eq_ok.mp measuring
  obtain ⟨passed, unchanged''⟩ := Machine.refuseIf_eq_ok.mp accepted
  obtain rfl := unchanged''.symm
  have within : (source + (tail + leadSize length)).toNat ≤ before.calldata.size := by
    have total : (Word.ofNat before.calldata.size).toNat = before.calldata.size := Word.toNat_ofNat (by omega)
    have above := of_decide_eq_false passed
    rw [BitVec.lt_def, total] at above
    omega
  obtain ⟨_, filled, copied, moving⟩ := Step.bind_eq_ok.mp copying
  obtain ⟨_, grown, moved, looping⟩ := Step.bind_eq_ok.mp moving
  obtain ⟨_, linked, looped, last⟩ := Step.bind_eq_ok.mp looping
  obtain ⟨isFree, ended⟩ := Step.pure_eq_ok.mp last
  obtain rfl := ended
  rw [isFree] at copied moved looped
  exact ⟨count, tail, filled, grown, by rw [← isFree, Machine.free], same, small, near, tails, summed, within,
    copied, moved, looped⟩

/-- What the decoder of elements of one dynamic level leaves in memory. -/
theorem TailsDecoded.links {count : Word} {filled grown : Machine} (dynamic : base.isDynamicallyEncoded = true)
    (roomy : before.Roomy) (short : before.calldata.size < 2 ^ 64)
    (h : TailsDecoded before after base length source word count tail filled grown) :
    Linked before after base length source word
      (fun position => (source + leadSize length).toNat + tailOffset before.calldata base
        (source + leadSize length).toNat (storedCount before.calldata length source.toNat) position)
      (tailOffset before.calldata base (source + leadSize length).toNat
        (storedCount before.calldata length source.toNat)) := by
  have limit : memoryLimit < 2 ^ 64 := by decide
  have above := roomy.above
  have room := roomy.fits
  have lead := lengthSize_le length
  have start : 0 < count.toNat → (source + leadSize length).toNat = source.toNat + lengthSize length :=
    fun some => toNat_callHead short (h.counted ▸ some) (by have := h.near; omega)
  have below := tailOffset_le h.few (Nat.le_refl _) h.tails
  have next : ∀ position < count.toNat,
      tailOffset before.calldata base (source + leadSize length).toNat count.toNat (position + 1) =
        tailOffset before.calldata base (source + leadSize length).toNat count.toNat position +
          flatExtent before.calldata base ((source + leadSize length).toNat +
            tailOffset before.calldata base (source + leadSize length).toNat count.toNat position) :=
    fun position _ => by rw [tailOffset, Value.flatExtent_dynamic dynamic]
  have first : tailOffset before.calldata base (source + leadSize length).toNat count.toNat 0 =
      wordBytes * count.toNat := rfl
  have ordered := fun index inside => (h.tails index inside).ordered
  have summed := h.summed
  have few := h.few
  obtain ⟨place, counted, -, -, -, -, -, copied, moved, linked⟩ := h
  rw [← counted]
  generalize tailOffset before.calldata base (source + leadSize length).toNat count.toNat = offset at *
  have size : (tail + leadSize length).toNat = offset count.toNat + lengthSize length := by
    rw [Word.toNat_add] <;> rw [toNat_leadSize, summed]
    omega
  obtain ⟨fits, pointer, changed, copies⟩ := copy_allocates copied moved (by rw [place]; exact above)
  rw [place, size] at fits pointer
  rw [place] at changed copies
  rw [size] at copies
  have heads := offset_mono next (Nat.zero_le _) (Nat.le_refl _)
  rw [first] at heads
  have head : (word + leadSize length).toNat = before.free + lengthSize length := by
    rw [Word.toNat_add] <;> rw [toNat_leadSize, place]
    omega
  have offsets : ∀ index < count.toNat,
      (grown.wordAt (before.free + lengthSize length + wordBytes * index)).toNat = offset index := by
    intro index inside
    rw [← ordered index inside, start (by omega)]
    have slot := Nat.mul_le_mul_left wordBytes (show index + 1 ≤ count.toNat from inside)
    rw [Nat.mul_succ] at slot
    refine congrArg BitVec.toNat (Memory.wordAt_congr fun byte small => ?_)
    have copy := copies (lengthSize length + wordBytes * index + byte) (by rw [wordBytes] at *; omega)
    simpa only [Nat.add_assoc] using copy
  have behind : ∀ position < count.toNat, wordBytes * count.toNat ≤ offset position ∧
      offset position + flatExtent before.calldata base ((source + leadSize length).toNat + offset position) ≤
        offset count.toNat := by
    intro position inside
    have later := offset_mono next inside (Nat.le_refl _)
    have earlier := offset_mono next (Nat.zero_le position) (Nat.le_of_lt inside)
    rw [next position inside] at later
    rw [first] at earlier
    exact ⟨earlier, later⟩
  obtain ⟨slotted, words⟩ := linkTails_links head offsets (by omega) (fun index inside => by
    have own := behind index inside
    omega) linked
  have kept : after.free = grown.free := slotted.free fun index _ _ covered => by omega
  have whole : before.ChangesOnly (Fresh before.free) after :=
    changed.trans (slotted.mono fun index covered => .inr (by omega))
  refine ⟨place, ⟨whole, by omega, by omega⟩, ?_, by rw [← counted]; exact words, ?_, by rw [← counted]; exact first,
    by rw [← counted]; exact next, ?_⟩
  · refine Value.storedCount_congr fun index inside => ?_
    rw [slotted.memory _ fun covered => by omega]
    exact copies index (by omega)
  · rw [← counted]
    intro position inside index small
    obtain ⟨earlier, later⟩ := behind position inside
    rw [slotted.memory _ fun covered => by omega]
    have copy := copies (lengthSize length + offset position + index) (by omega)
    rw [start (by omega)]
    simpa only [Nat.add_assoc] using copy
  · rw [← counted, kept, pointer]
    omega

/-- Where the heads of an array that begins inside call data are. -/
theorem toNat_inside (length : Option Nat) (short : calldata.size < 2 ^ 64) (inside : source.toNat ≤ calldata.size) :
    (source + leadSize length).toNat = source.toNat + lengthSize length := by
  have lead := lengthSize_le length
  rw [Word.toNat_add] <;> rw [toNat_leadSize]
  omega

/-- The end of a canonical array as a word. -/
theorem toNat_end (length : Option Nat) (short : calldata.size < 2 ^ 64) (inside : source.toNat ≤ calldata.size)
    (few : number < 2 ^ 64)
    (tails : ∀ index < number, TailInOrder calldata element head number index) :
    (Word.ofNat (tailOffset calldata element head number number) + leadSize length).toNat =
        lengthSize length + tailOffset calldata element head number number ∧
      (source + (Word.ofNat (tailOffset calldata element head number number) + leadSize length)).toNat =
        source.toNat + lengthSize length + tailOffset calldata element head number number := by
  have below := tailOffset_le few (Nat.le_refl _) tails
  have lead := lengthSize_le length
  have own := Word.toNat_ofNat (show tailOffset calldata element head number number < 2 ^ 256 by omega)
  have size : (Word.ofNat (tailOffset calldata element head number number) + leadSize length).toNat =
      lengthSize length + tailOffset calldata element head number number := by
    rw [Word.toNat_add] <;> rw [toNat_leadSize, own] <;> omega
  refine ⟨size, ?_⟩
  rw [Word.toNat_add] <;> rw [size] <;> omega

/-- The decoder of elements of one dynamic level reverts without data unless call data is canonical. -/
theorem decodeDynamicTail_refuses (few : ∀ expected ∈ length, expected < 2 ^ 64)
    (short : before.calldata.size < 2 ^ 64) (inside : source.toNat ≤ before.calldata.size)
    (refused : ¬ Canonical before.calldata base length source.toNat) :
    (decodeDynamicTail length (tailExtent base) source).run before = .error (.reverted []) before := by
  obtain ⟨count, counted, same⟩ := run_countAt few source before
  have head := toNat_inside length short inside
  rw [decodeDynamicTail, Step.bind_of_ok (Machine.run_mload_free before), Step.bind_of_ok counted]
  by_cases small : count.toNat < 2 ^ 64
  · rw [Step.bind_of_ok ((checkCount_eq_ok fun _ _ => small).mpr ⟨small, rfl⟩), mul_wordBytes]
    have near : (source + leadSize length).toNat < 2 ^ 65 := by
      have lead := lengthSize_le length
      omega
    obtain ⟨passes, refuses⟩ := run_checkTails near small before
    by_cases tails : ∀ index < count.toNat,
        TailInOrder before.calldata base (source + leadSize length).toNat count.toNat index
    · rw [Step.bind_of_ok (passes tails), Step.bind_of_ok (run_calldatasize before)]
      obtain ⟨-, stop⟩ := toNat_end length short inside small tails
      have beyond : ¬ source.toNat + lengthSize length + tailOffset before.calldata base
          (source + leadSize length).toNat count.toNat count.toNat ≤ before.calldata.size := by
        intro fits
        rw [head, same] at tails fits
        exact refused ⟨same ▸ small, tails, fits⟩
      have above : decide (Word.ofNat before.calldata.size < source + (Word.ofNat (tailOffset before.calldata base
          (source + leadSize length).toNat count.toNat count.toNat) + leadSize length)) = true := by
        rw [decide_eq_true_iff, BitVec.lt_def, stop, Word.toNat_ofNat (by omega)]
        omega
      rw [above]
      exact Step.bind_of_error (Machine.run_refuseIf_true before)
    · exact Step.bind_of_error (refuses tails)
  · cases length with
    | some expected =>
      rw [same] at small
      exact absurd (few expected rfl) small
    | none =>
      refine Step.bind_of_error ?_
      rw [checkCount, (maxLength_lt count).mpr small]
      exact Machine.run_refuseIf_true before

/-- The decoder of elements of one dynamic level succeeds on canonical call data if there is memory for all of it. -/
theorem decodeDynamicTail_ok (few : ∀ expected ∈ length, expected < 2 ^ 64)
    (short : before.calldata.size < 2 ^ 64) (canonical : Canonical before.calldata base length source.toNat)
    (room : before.free + lengthSize length + tailOffset before.calldata base (source.toNat + lengthSize length)
      (storedCount before.calldata length source.toNat) (storedCount before.calldata length source.toNat) ≤
        memoryLimit) :
    ∃ word after, (decodeDynamicTail length (tailExtent base) source).run before = .ok word after := by
  have limit : memoryLimit < 2 ^ 64 := by decide
  obtain ⟨count, counted, same⟩ := run_countAt few source before
  have inside := canonical.inside
  have head := toNat_inside length short (show source.toNat ≤ _ by omega)
  have small : count.toNat < 2 ^ 64 := same ▸ canonical.few
  have tails := canonical.tails
  rw [← same] at inside room tails
  rw [← head] at inside tails
  have room' : before.free + (lengthSize length + tailOffset before.calldata base
      (source + leadSize length).toNat count.toNat count.toNat) ≤ memoryLimit := by
    rw [head]
    omega
  clear room canonical
  have near : (source + leadSize length).toNat < 2 ^ 65 := by
    have lead := lengthSize_le length
    omega
  obtain ⟨passes, -⟩ := run_checkTails near small before
  obtain ⟨size, stop⟩ := toNat_end length short (show source.toNat ≤ _ by omega) small tails
  have heads := le_tailOffset before.calldata base (source + leadSize length).toNat count.toNat count.toNat
  generalize tailOffset before.calldata base (source + leadSize length).toNat count.toNat count.toNat = offset at *
  have within : decide (Word.ofNat before.calldata.size < source + (Word.ofNat offset + leadSize length)) = false := by
    rw [decide_eq_false_iff_not, BitVec.lt_def, stop, Word.toNat_ofNat (by omega)]
    omega
  obtain ⟨filled, grown, copied, moved⟩ := copy_ok (before.wordAt Machine.freePointerSlot) _ before source
    (.inr (by rw [size]; exact room'))
  have target : (before.wordAt Machine.freePointerSlot + leadSize length).toNat = before.free + lengthSize length := by
    rw [Word.toNat_add] <;> rw [toNat_leadSize, ← Machine.free]
    omega
  obtain ⟨after, linked⟩ := rounds_links_ok count.toNat
    (fun index _ => linkTail (before.wordAt Machine.freePointerSlot + leadSize length) index)
    (fun index below machine => by
      have slot := Nat.mul_le_mul_left wordBytes (show index + 1 ≤ count.toNat from below)
      rw [Nat.mul_succ] at slot
      have address := toNat_wordSlot (before.wordAt Machine.freePointerSlot + leadSize length) index (by omega)
      rw [target] at address
      rw [linkTail, Step.bind_of_ok (Machine.run_mload (by rw [wordBytes] at *; omega) machine)]
      exact Machine.mstore_ok machine _ _ (by rw [wordBytes] at *; omega)) grown
  refine ⟨before.wordAt Machine.freePointerSlot, after, ?_⟩
  rw [decodeDynamicTail, Step.bind_of_ok (Machine.run_mload_free before), Step.bind_of_ok counted,
    Step.bind_of_ok ((checkCount_eq_ok fun _ _ => small).mpr ⟨small, rfl⟩), mul_wordBytes, Step.bind_of_ok (passes tails),
    Step.bind_of_ok (run_calldatasize before), Step.bind_of_ok (Machine.refuseIf_eq_ok.mpr ⟨within, rfl⟩),
    Step.bind_of_ok copied, Step.bind_of_ok moved, Step.bind_of_ok linked]
  rfl

/-- Arrays of one dynamic level are placed. -/
theorem decodeDynamicTail_settles (flat : base.IsFlat) (dynamic : base.isDynamicallyEncoded = true)
    (few : ∀ expected ∈ length, expected < 2 ^ 64) :
    Settles (decodeDynamicTail length (tailExtent base)) (.array base length) := by
  intro source before word after roomy short h
  obtain ⟨count, tail, filled, grown, decoded⟩ := tailsDecoded_of_ok few short h
  have linked := decoded.links dynamic roomy short
  refine ⟨linked.advances, fun _ => ⟨_, linked.places flat, ?_⟩⟩
  refine matches_array (length_copiedElements _ _ _ _) fun _ position inside => ?_
  rw [length_copiedElements] at inside
  have near := decoded.near
  have tails := decoded.tails
  have few := decoded.few
  rw [decoded.counted] at near tails few
  have order := (tails position inside).ordered
  have below := tailOffset_le few (Nat.le_of_lt inside) fun index earlier => tails index (by omega)
  have offset : (source + leadSize length + Word.ofNat (position * base.headBytes)).toNat =
      (source + leadSize length).toNat + wordBytes * position := by
    have width : base.headBytes = 32 := Shape.headBytes_dynamic dynamic
    rw [width, wordBytes, Word.toNat_add] <;> rw [Word.toNat_ofNat (by omega)] <;> omega
  have place : (sourceOf before.calldata (source + leadSize length) base (position * base.headBytes)).toNat =
      (source + leadSize length).toNat + tailOffset before.calldata base (source + leadSize length).toNat
        (storedCount before.calldata length source.toNat) position := by
    rw [sourceOf, dynamic, if_pos rfl, offset, Word.toNat_add, order]
    rw [order]
    omega
  rw [getElem_copiedElements, place]
  exact Value.matches_flatValue flat _ _

/-- Encodings of arrays of one dynamic level are canonical. -/
theorem canonical_of_encoded {elements : List Value} {encoding : List UInt8} {encodings : List (List UInt8)}
    (flat : base.IsFlat) (dynamic : base.isDynamicallyEncoded = true) (short : calldata.size < 2 ^ 64)
    (array : EncodedArray calldata base length source encoding elements encodings)
    (inside : source.toNat + encoding.length ≤ calldata.size) :
    Canonical calldata base length source.toNat ∧
      tailOffset calldata base (source.toNat + lengthSize length) elements.length elements.length =
        wordBytes * elements.length + allocatedEach (List.replicate elements.length base) elements := by
  have width : base.headBytes = wordBytes := Shape.headBytes_dynamic dynamic
  have total := array.total
  have lead := lengthSize_le length
  have heads := array.each.length_sequenceBytes
  rw [Value.headBytesSum_replicate, width, Nat.mul_comm, List.length_replicate] at heads
  have many : elements.length ≤ wordBytes * elements.length := Nat.le_mul_of_pos_left _ (by decide)
  -- Each tail stands where its head says, and its length word gives its size.
  have part : ∀ position < elements.length, ∀ inside : position < encodings.length,
      (Memory.wordAt calldata ((source + leadSize length).toNat + wordBytes * position)).toNat =
          wordBytes * elements.length + tailsBefore (List.replicate elements.length base) encodings position ∧
        encodings[position].length = tailSpan base (Memory.wordAt calldata ((source + leadSize length).toNat +
          (wordBytes * elements.length + tailsBefore (List.replicate elements.length base) encodings position))).toNat ∧
        tailsBefore (List.replicate elements.length base) encodings (position + 1) =
          tailsBefore (List.replicate elements.length base) encodings position + encodings[position].length := by
    intro position below below'
    have below'' : position < (List.replicate elements.length base).length := by simpa using below
    have stands := array.each.holds_iff.mp array.holds position below'' below'
    have within := (array.each.within below'' below').2
    have encoded := array.each.each position below'' below below'
    have step := Value.tailsBefore_succ below'' below'
    simp only [List.getElem_replicate] at encoded
    simp only [List.getElem_replicate, Value.tailBytes, dynamic, if_true] at step
    simp only [List.getElem_replicate, Value.PartStands, Value.tailBytes, dynamic, if_true,
      Value.headBytesSum_replicate, List.take_replicate, width, Nat.min_eq_left (Nat.le_of_lt below)] at stands within
    rw [Nat.mul_comm position, Nat.mul_comm elements.length] at stands
    rw [Nat.mul_comm elements.length] at within
    obtain ⟨offset, tail⟩ := stands
    rw [Nat.add_assoc] at tail
    have size := Value.length_of_holds flat encoded tail (by omega)
    rw [Value.flatExtent_dynamic dynamic] at size
    rw [Memory.holds_toBytes.mp offset]
    exact ⟨Word.toNat_ofNat (by omega), size, step⟩
  have covered : encodings.length = elements.length := by rw [array.each.covered, List.length_replicate]
  have offsets : ∀ position ≤ elements.length,
      tailOffset calldata base (source + leadSize length).toNat elements.length position =
        wordBytes * elements.length + tailsBefore (List.replicate elements.length base) encodings position := by
    intro position below
    induction position with
    | zero => rw [tailOffset, Value.tailsBefore_zero, Nat.add_zero]
    | succ position ih =>
      obtain ⟨-, size, step⟩ := part position below (by omega)
      rw [tailOffset, ih (by omega), ← size, step]
      omega
  rw [← array.head, offsets _ (Nat.le_refl _), Value.allocatedEach_dynamic flat dynamic array.each]
  refine ⟨⟨?_, ?_, ?_⟩, rfl⟩
  · rw [← array.counted]
    rw [wordBytes] at *
    omega
  · rw [← array.counted, ← array.head]
    intro position below
    obtain ⟨offset, size, -⟩ := part position below (by omega)
    have behind := Value.tailsBefore_mono (List.replicate elements.length base) encodings
      (show position + 1 ≤ elements.length from below)
    obtain ⟨-, -, step⟩ := part position below (by omega)
    have length_le := Value.le_tailSpan base (Memory.wordAt calldata ((source + leadSize length).toNat +
      (wordBytes * elements.length + tailsBefore (List.replicate elements.length base) encodings position))).toNat
    refine ⟨?_, ?_⟩
    · rw [offset, offsets position (Nat.le_of_lt below)]
    · rw [offsets position (Nat.le_of_lt below)]
      omega
  · rw [← array.counted, ← array.head, offsets _ (Nat.le_refl _), array.head]
    omega

/-- Arrays of one dynamic level are decoded. -/
theorem decodeDynamicTail_succeeds (flat : base.IsFlat) (dynamic : base.isDynamicallyEncoded = true)
    (few : ∀ expected ∈ length, expected < 2 ^ 64) :
    Succeeds (decodeDynamicTail length (tailExtent base)) (.array base length) := by
  have limit : memoryLimit < 2 ^ 64 := by decide
  intro source before value encoding _ short encoded holds inside room
  obtain ⟨elements, encodings, rfl, array⟩ := encodedArray encoded holds (by omega) (by omega)
  obtain ⟨canonical, stop⟩ := canonical_of_encoded flat dynamic short array inside
  refine decodeDynamicTail_ok few short canonical ?_
  rw [Value.allocated_array] at room
  rw [← array.counted, stop]
  omega

end

end YulAbi.Codec
