import YulAbi.Proofs.Codec.Decoding.Array
import YulAbi.Proofs.Codec.Decoding.Parts

/-!
# Decoding elements behind their words

The words of all elements are allocated first. Static elements are one copy behind the words
that point to them; the size of the copy cannot wrap, because a loop that stores as many words
has to succeed. Other elements take the memory behind those before them, one by one. They are
parts like the members of a tuple, so the loop only repeats what one part does.
-/

namespace YulAbi.Codec

open Machine (Fresh)
open Value (Matches allocated encodeAs flatExtent lengthSize storedCount)

section

variable {before after : Machine} {base : Shape} {length : Option Nat} {source word : Word}

/-- What the decoder of static elements leaves in memory. -/
theorem decodeStaticTail_links (static : base.isDynamicallyEncoded = false)
    (few : ∀ expected ∈ length, expected < 2 ^ 64) (small : base.staticBytes < 2 ^ 128) (roomy : before.Roomy)
    (h : (decodeStaticTail length (Word.ofNat base.staticBytes) source).run before = .ok word after) :
    Linked before after base length source word
      (fun position => (source + leadSize length).toNat + position * base.staticBytes)
      (fun position => wordBytes * storedCount before.calldata length source.toNat + position * base.staticBytes) := by
  have limit : memoryLimit < 2 ^ 64 := by decide
  obtain ⟨target, reached, loaded, counting⟩ := Step.bind_eq_ok.mp h
  obtain ⟨count, reached', counted, storing⟩ := Step.bind_eq_ok.mp counting
  obtain ⟨_, opened, stored, copying⟩ := Step.bind_eq_ok.mp storing
  obtain ⟨_, filled, copied, moving⟩ := Step.bind_eq_ok.mp copying
  obtain ⟨_, grown, moved, looping⟩ := Step.bind_eq_ok.mp moving
  obtain ⟨_, linked, looped, last⟩ := Step.bind_eq_ok.mp looping
  cases last
  have opening := opened_of_ok few roomy loaded counted stored
  have above := roomy.above
  have lead : lengthSize length ≤ wordBytes := by cases length <;> simp [lengthSize]
  have head := opening.toNat_head
  -- The loop succeeds, so there are as many words.
  have slots : before.free + lengthSize length + wordBytes * count.toNat ≤ memoryLimit := by
    rw [← head]
    refine slots_fit (by rw [head]; exact opening.fits) fun index inside => ?_
    obtain ⟨_, _, _, _, run⟩ := Machine.rounds_visit looped inside
    exact (Machine.puts_of_mstore run).1
  have tail : (word + leadSize length + count * 32#256).toNat =
      before.free + lengthSize length + wordBytes * count.toNat := by
    rw [toNat_behind (by omega), head]
  have size : (count * Word.ofNat base.staticBytes).toNat = count.toNat * base.staticBytes := by
    have many : count.toNat ≤ 2 ^ 64 := by
      rw [wordBytes] at slots
      omega
    have product := Nat.mul_le_mul many (Nat.le_of_lt small)
    rw [Word.toNat_mul] <;> rw [Word.toNat_ofNat (by omega)]
    omega
  obtain ⟨fits, pointer, changed, same⟩ := copy_allocates copied moved (by rw [tail]; omega)
  rw [tail, size] at fits pointer
  rw [tail] at changed
  obtain ⟨slotted, words⟩ := rounds_links _
    (fun index inside middle next _ run => by
      have slot := Nat.mul_le_mul_left wordBytes (show index + 1 ≤ count.toNat from inside)
      rw [Nat.mul_succ] at slot
      have puts := (Machine.puts_of_mstore run).2
      rwa [toNat_wordSlot _ _ (by omega), head] at puts) looped
  have link : ∀ index < count.toNat, (word + leadSize length + count * 32#256 +
      Word.ofNat index * Word.ofNat base.staticBytes).toNat =
        before.free + lengthSize length + (wordBytes * count.toNat + index * base.staticBytes) := by
    intro index inside
    have below := Nat.mul_le_mul_right base.staticBytes (Nat.le_of_lt inside)
    rw [Word.ofNat_mul, Word.toNat_add, tail, Word.toNat_ofNat (by omega)]
    · omega
    · rw [tail, Word.toNat_ofNat (by omega)]
      omega
  have kept : after.free = grown.free := slotted.free fun index _ _ covered => by omega
  have whole : before.ChangesOnly (Fresh before.free) after :=
    ((opening.changes.mono fun index covered => .inr covered.1).trans
      (changed.mono fun index fresh => fresh.mono (by omega))).trans
      (slotted.mono fun index covered => .inr (by omega))
  rw [← opening.counted]
  refine ⟨opening.placed, ⟨whole, by omega, by omega⟩, ?_, ?_, ?_, ?_, ?_, ?_⟩
  · rw [← opening.counted, ← opening.stored]
    refine Value.storedCount_congr fun index inside => ?_
    rw [slotted.memory _ fun covered => by omega, changed.memory _ fun fresh => ?_]
    simp only [Fresh, Machine.freePointerSlot, wordBytes] at *
    omega
  · rw [← opening.counted]
    intro position inside
    rw [words position inside, link position inside]
  · rw [← opening.counted]
    intro position inside index below
    rw [Value.flatExtent_static static] at below
    have within := Nat.mul_le_mul_right base.staticBytes (show position + 1 ≤ count.toNat from inside)
    rw [Nat.succ_mul] at within
    rw [slotted.memory _ fun covered => by omega]
    have piece := same (position * base.staticBytes + index) (by rw [size]; omega)
    rw [tail, opening.changes.calldata, ← Nat.add_assoc, ← Nat.add_assoc] at piece
    rw [← Nat.add_assoc]
    exact piece
  · rw [← opening.counted, Nat.zero_mul, Nat.add_zero]
  · intro position _
    rw [Value.flatExtent_static static, Nat.succ_mul]
    omega
  · rw [← opening.counted, kept, pointer]
    omega

/-- Arrays of static elements are placed. -/
theorem decodeStaticTail_settles (flat : base.IsFlat) (static : base.isDynamicallyEncoded = false)
    (few : ∀ expected ∈ length, expected < 2 ^ 64) (small : base.staticBytes < 2 ^ 128) :
    Settles (decodeStaticTail length (Word.ofNat base.staticBytes)) (.array base length) := by
  intro source before word after roomy _ h
  have linked := decodeStaticTail_links static few small roomy h
  refine ⟨linked.advances, fun _ => ⟨_, linked.places flat, ?_⟩⟩
  refine matches_array (length_copiedElements _ _ _ _) fun unwrapped position inside => ?_
  rw [length_copiedElements] at unwrapped inside
  have head : base.headBytes = base.staticBytes := Shape.headBytes_static static
  have within := Nat.mul_le_mul_right base.headBytes (show position + 1 ≤ _ from inside)
  rw [Nat.succ_mul] at within
  rw [getElem_copiedElements, toNat_sourceOf_static static (by omega), head]
  exact Value.matches_flatValue flat _ _

/-- Arrays of static elements are decoded. -/
theorem decodeStaticTail_succeeds (flat : base.IsFlat) (static : base.isDynamicallyEncoded = false)
    (few : ∀ expected ∈ length, expected < 2 ^ 64) (small : base.staticBytes < 2 ^ 128) :
    Succeeds (decodeStaticTail length (Word.ofNat base.staticBytes)) (.array base length) := by
  have limit : memoryLimit < 2 ^ 64 := by decide
  intro source before value encoding roomy short encoded holds inside room
  obtain ⟨elements, encodings, rfl, array⟩ := encodedArray encoded holds (by omega) (by omega)
  rw [Value.allocated_array, Value.allocatedEach_static flat static array.each] at room
  obtain ⟨target, count, opened, loaded, counted, stored⟩ := exists_opened few before source (by omega)
  have opening := opened_of_ok few roomy loaded counted stored
  have head := opening.toNat_head
  have number : count.toNat = elements.length := opening.counted.trans array.counted.symm
  have tail : (target + leadSize length + count * 32#256).toNat =
      before.free + lengthSize length + wordBytes * count.toNat := by
    rw [toNat_behind (by rw [head, number]; omega), head]
  have size : (count * Word.ofNat base.staticBytes).toNat = count.toNat * base.staticBytes := by
    rw [Word.toNat_mul] <;> rw [Word.toNat_ofNat (by omega), number]
    omega
  obtain ⟨filled, grown, copied, moved⟩ := copy_ok (target + leadSize length + count * 32#256)
    (count * Word.ofNat base.staticBytes) opened (source + leadSize length) (.inr (by rw [tail, size, number]; omega))
  obtain ⟨after, looped⟩ := rounds_links_ok count.toNat
    (fun index _ => Machine.mstore (wordSlot (target + leadSize length) index)
      (target + leadSize length + count * 32#256 + index * Word.ofNat base.staticBytes))
    (fun index inside machine => Machine.mstore_ok machine _ _ (by
      have slot := Nat.mul_le_mul_left wordBytes (show index + 1 ≤ elements.length by omega)
      rw [Nat.mul_succ] at slot
      rw [toNat_wordSlot _ _ (by omega), head]
      simp only [wordBytes] at *
      omega)) grown
  refine ⟨target, after, ?_⟩
  rw [decodeStaticTail, Step.bind_of_ok loaded, Step.bind_of_ok counted, Step.bind_of_ok stored,
    Step.bind_of_ok copied, Step.bind_of_ok moved, Step.bind_of_ok looped]
  rfl

end

/-! ### Elements one by one -/

open Shape (headBytesSum)
open Value (EncodesEach allocatedEach)

section

variable {before after opened start machine : Machine} {base : Shape} {length : Option Nat}
  {decodeElement : Word → MachineStep Word} {source target count word : Word}

/-- A round of the loop. -/
def storeElement (decodeElement : Word → MachineStep Word) (base : Shape) (callHead head index : Word) :
    MachineStep Unit := do
  let element ← partAt base.isDynamicallyEncoded callHead (callHead + index * Word.ofNat base.headBytes)
  let word ← decodeElement element
  Machine.mstore (wordSlot head index) word

/-- A round of the loop decodes one part. -/
theorem storeElement_eq_storePart (callHead head : Word) (index : Nat) :
    storeElement decodeElement base callHead head (Word.ofNat index) =
      storePart decodeElement base callHead (index * base.headBytes) (wordSlot head (Word.ofNat index)) := by
  rw [storeElement, Word.ofNat_mul]
  rfl

/-- The decoder of arrays whose elements are decoded one by one repeats its round. -/
theorem decodeSeparate_eq : decodeSeparate length base decodeElement source = (do
    let target ← Machine.mload freeSlot
    let count ← countAt length source
    storeCount length target count
    Machine.mstore freeSlot (target + leadSize length + count * 32#256)
    Machine.rounds (fun index _ => storeElement decodeElement base (source + leadSize length)
      (target + leadSize length) index) count.toNat 0#256 ()
    return target) :=
  rfl

/-- Whether the words of all elements of an array have been allocated. -/
structure Widened (before opened start : Machine) (length : Option Nat) (source target count : Word) : Prop where
  /-- The array has been begun. -/
  opening : Opened before opened length source target count
  /-- The words of the elements fit the memory. -/
  slots : before.free + lengthSize length + wordBytes * count.toNat ≤ memoryLimit
  /-- The free memory pointer is behind the words. -/
  moved : start.free = before.free + lengthSize length + wordBytes * count.toNat
  /-- Nothing else has changed. -/
  changes : opened.ChangesOnly
    (fun index => Machine.freePointerSlot ≤ index ∧ index < Machine.freePointerSlot + wordBytes) start

/-- The words of all elements fit the memory, as the loop that stores them succeeds. -/
theorem Opened.slots {callHead : Word} (opening : Opened before opened length source target count)
    (looped : (Machine.rounds (fun index _ => storeElement decodeElement base callHead (target + leadSize length) index)
      count.toNat 0#256 ()).run start = .ok () after) :
    before.free + lengthSize length + wordBytes * count.toNat ≤ memoryLimit := by
  have head := opening.toNat_head
  rw [← head]
  refine slots_fit (by rw [head]; exact opening.fits) fun index inside => ?_
  obtain ⟨_, _, _, _, run⟩ := Machine.rounds_visit looped inside
  obtain ⟨_, _, _, decoding⟩ := Step.bind_eq_ok.mp run
  obtain ⟨_, _, _, storing⟩ := Step.bind_eq_ok.mp decoding
  exact (Machine.puts_of_mstore storing).1

/-- The words of elements are allocated. -/
theorem widened_of_ok (opening : Opened before opened length source target count)
    (slots : before.free + lengthSize length + wordBytes * count.toNat ≤ memoryLimit)
    (moved : (Machine.mstore freeSlot (target + leadSize length + count * 32#256)).run opened = .ok () start) :
    Widened before opened start length source target count := by
  have limit : memoryLimit < 2 ^ 256 := by decide
  obtain ⟨pointer, changed⟩ := Machine.free_of_mstore moved
  have head := opening.toNat_head
  refine ⟨opening, slots, ?_, changed⟩
  rw [pointer, toNat_behind (by omega), head]

/-- One more element is decoded. -/
theorem Widened.round (widened : Widened before opened start length source target count) (roomy : before.Roomy)
    (short : before.calldata.size < 2 ^ 64) (settles : Settles decodeElement base) {index : Nat}
    (inside : index < count.toNat)
    (done : PartsDecoded start machine (before.free + lengthSize length + wordBytes * count.toNat)
      (before.free + lengthSize length) (List.replicate count.toNat base) (source + leadSize length) index)
    (run : (storePart decodeElement base (source + leadSize length) (index * base.headBytes)
      (wordSlot (target + leadSize length) (Word.ofNat index))).run machine = .ok () after) :
    PartsDecoded start after (before.free + lengthSize length + wordBytes * count.toNat)
      (before.free + lengthSize length) (List.replicate count.toNat base) (source + leadSize length) (index + 1) := by
  have limit : memoryLimit < 2 ^ 256 := by decide
  have above := roomy.above
  have slots := widened.slots
  have head := widened.opening.toNat_head
  have slot := Nat.mul_le_mul_left wordBytes (Nat.le_of_lt inside)
  have same : start.calldata = before.calldata := widened.changes.calldata.trans widened.opening.changes.calldata
  refine done.store (wordSlot (target + leadSize length) (Word.ofNat index))
    (by simpa using inside) (by omega) (by simp) (by rw [same]; exact short) (by simpa using settles)
    (by rw [toNat_wordSlot _ _ (by omega), head]) ?_
  rw [Value.headBytesSum_take_replicate (Nat.le_of_lt inside), List.getElem_replicate]
  exact run

/-- Before the first element has been decoded. -/
theorem Widened.none (widened : Widened before opened start length source target count) (base : Shape) :
    PartsDecoded start start (before.free + lengthSize length + wordBytes * count.toNat)
      (before.free + lengthSize length) (List.replicate count.toNat base) (source + leadSize length) 0 :=
  .none widened.moved widened.slots _ _ _

/-- Elements that have all been decoded are an array. -/
theorem Widened.settled (widened : Widened before opened start length source word count) (roomy : before.Roomy)
    (strategy : base.elementStrategy = .separateTail)
    (done : PartsDecoded start after (before.free + lengthSize length + wordBytes * count.toNat)
      (before.free + lengthSize length) (List.replicate count.toNat base) (source + leadSize length) count.toNat) :
    before.Advances after ∧ (LengthsFit before.calldata (.array base length) source →
      ∃ value, Value.Placed before after (.array base length) word value ∧
        Matches before.calldata (.array base length) source.toNat value) := by
  have above := roomy.above
  have up := done.up
  have counted := widened.opening.counted
  have same : start.calldata = before.calldata := widened.changes.calldata.trans widened.opening.changes.calldata
  have whole : before.ChangesOnly (Machine.Fresh before.free) after :=
    ((widened.opening.changes.mono fun index covered => .inr covered.1).trans
      (widened.changes.mono fun index covered => .inl covered)).trans
      (done.changes.mono fun index covered => covered.elim (fun fresh => fresh.mono (by omega)) fun word =>
        .inr (by omega))
  have kept : storedCount after.memory length before.free = count.toNat := by
    refine (Value.storedCount_congr fun index inside => ?_).trans widened.opening.stored
    rw [done.changes.memory _ fun covered => ?_, widened.changes.memory _ fun covered => by omega]
    simp only [Machine.Fresh, Machine.freePointerSlot, wordBytes] at *
    omega
  refine ⟨⟨whole, by omega, done.fits⟩, fun lengths => ?_⟩
  rw [lengthsFit_separate strategy, ← counted, ← same] at lengths
  obtain ⟨values, size, stand, only⟩ := done.parts fun position inside below => by
    rw [Value.headBytesSum_take_replicate (Nat.le_of_lt below), List.getElem_replicate]
    exact lengths position below
  rw [← size] at stand only
  refine ⟨.array values, ⟨?_, .ofArray ?_ ?_ ?_ done.fits fun position inside => ?_⟩, ?_⟩
  · rw [stand.moved, Value.allocated_array, size]
    omega
  · rw [widened.opening.placed, kept, size]
  · rw [widened.opening.placed]
  · rw [widened.opening.placed, size]
    omega
  · have part := stand.each position (by simpa using inside) inside
    rw [List.getElem_replicate] at part
    rw [widened.opening.placed]
    exact part.mono (by omega) (Nat.le_refl _)
  · refine matches_array (size.trans counted) fun near position inside => ?_
    have part := only position (by simpa using inside) inside (by rw [Value.headBytesSum_replicate]; exact near)
    rwa [Value.headBytesSum_take_replicate (Nat.le_of_lt inside), List.getElem_replicate, same] at part

/-- Arrays whose elements are decoded one by one are placed. -/
theorem decodeSeparate_settles (strategy : base.elementStrategy = .separateTail)
    (few : ∀ expected ∈ length, expected < 2 ^ 64) (settles : Settles decodeElement base) :
    Settles (decodeSeparate length base decodeElement) (.array base length) := by
  intro source before word after roomy short h
  rw [decodeSeparate_eq] at h
  obtain ⟨target, reached, loaded, counting⟩ := Step.bind_eq_ok.mp h
  obtain ⟨count, reached', counted, storing⟩ := Step.bind_eq_ok.mp counting
  obtain ⟨_, opened, stored, moving⟩ := Step.bind_eq_ok.mp storing
  obtain ⟨_, start, moved, looping⟩ := Step.bind_eq_ok.mp moving
  obtain ⟨_, ended, looped, last⟩ := Step.bind_eq_ok.mp looping
  cases last
  have opening := opened_of_ok few roomy loaded counted stored
  have widened := widened_of_ok opening (opening.slots looped) moved
  refine widened.settled roomy strategy ?_
  refine Machine.rounds_keep (fun done _ machine => PartsDecoded start machine
    (before.free + lengthSize length + wordBytes * count.toNat) (before.free + lengthSize length)
    (List.replicate count.toNat base) (source + leadSize length) done) ?_ (widened.none base) looped
  intro index inside _ machine _ next done run
  rw [storeElement_eq_storePart] at run
  exact widened.round roomy short settles inside done run

/-- Arrays whose elements are decoded one by one are decoded. -/
theorem decodeSeparate_succeeds (strategy : base.elementStrategy = .separateTail)
    (few : ∀ expected ∈ length, expected < 2 ^ 64) (settles : Settles decodeElement base)
    (succeeds : Succeeds decodeElement base) : Succeeds (decodeSeparate length base decodeElement) (.array base length) := by
  have limit : memoryLimit < 2 ^ 64 := by decide
  intro source before value encoding roomy short encoded holds inside room
  have lengths := lengthsFit_of_encoded encoded holds (by omega) (by omega)
  obtain ⟨elements, encodings, rfl, array⟩ := encodedArray encoded holds (by omega) (by omega)
  rw [Value.allocated_array] at room
  obtain ⟨target, count, opened, loaded, counted, stored⟩ := exists_opened few before source (by omega)
  obtain ⟨start, moved⟩ := Machine.mstore_free_ok opened (target + leadSize length + count * 32#256)
  have opening := opened_of_ok few roomy loaded counted stored
  have number : count.toNat = elements.length := opening.counted.trans array.counted.symm
  have widened := widened_of_ok opening (by rw [number]; omega) moved
  have same : start.calldata = before.calldata := widened.changes.calldata.trans widened.opening.changes.calldata
  have head := opening.toNat_head
  have above := roomy.above
  have first := array.head
  have total := array.total
  rw [lengthsFit_separate strategy, ← array.counted, ← number] at lengths
  have parts : PartsEncoded start.calldata (List.replicate count.toNat base) (source + leadSize length) elements
      encodings := by
    rw [same]
    refine ⟨by rw [number]; exact array.each, by rw [number]; exact array.holds, by rw [number]; omega,
      fun position below => ?_⟩
    rw [List.length_replicate] at below
    rw [Value.headBytesSum_take_replicate (Nat.le_of_lt below), List.getElem_replicate]
    exact lengths position below
  obtain ⟨_, after, looped, -⟩ := Machine.rounds_ok (fun index _ =>
      storeElement decodeElement base (source + leadSize length) (target + leadSize length) index)
    (fun done _ machine =>
      PartsDecoded start machine (before.free + lengthSize length + wordBytes * count.toNat)
        (before.free + lengthSize length) (List.replicate count.toNat base) (source + leadSize length) done)
    (fun index inside _ machine done => by
      have slot := Nat.mul_le_mul_left wordBytes (Nat.le_of_lt inside)
      have slots := widened.slots
      obtain ⟨next, run⟩ := done.store_ok
        (wordSlot (target + leadSize length) (Word.ofNat index)) (by simpa using inside) (by omega) (by simp)
        (by rw [same]; exact short) (by simpa using succeeds) (by rw [toNat_wordSlot _ _ (by omega), head]) parts
        (by rw [number]; omega)
      rw [Value.headBytesSum_take_replicate (Nat.le_of_lt inside), List.getElem_replicate] at run
      refine ⟨(), next, ?_, widened.round roomy short settles inside done run⟩
      rw [storeElement_eq_storePart]
      exact run) (widened.none base)
  refine ⟨target, after, ?_⟩
  rw [decodeSeparate_eq, Step.bind_of_ok loaded, Step.bind_of_ok counted, Step.bind_of_ok stored, Step.bind_of_ok moved,
    Step.bind_of_ok looped]
  rfl

end

end YulAbi.Codec
