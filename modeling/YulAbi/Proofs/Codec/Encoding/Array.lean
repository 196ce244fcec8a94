import YulAbi.Proofs.Codec.Encoding.Copy

/-!
# Writing arrays

Once the number of elements has been written, the loop over the elements leaves one more of
them written each time: a static one in its place, and a dynamic one behind those before it,
with its offset in its head.

Each strategy writes its elements in a loop of its own. All loops keep the same invariant:
before a round the elements of the earlier ones have been written, and with dynamic
elements the running total is where the next tail begins. How far a static element is from
the next one does not matter as long as it is the size of its head.
-/

namespace YulAbi.Codec

open Shape (headBytesSum)
open Value (EncodesEach Stands encodeAs lengthSize lengthWord sequenceBytes tailsBefore)

/-- The encodings of elements, with room for them behind an address that they stand below. -/
structure ElementsBelow (machine : Machine) (base : Shape) (length : Option Nat) (pointer target : Word)
    (elements : List Value) (encodings : List (List UInt8)) : Prop where
  /-- The array stands below the address. -/
  array : ArrayBelow machine target.toNat base length pointer elements
  /-- The elements are encoded like members. -/
  each : EncodesEach (List.replicate elements.length base) elements encodings
  /-- There is room for them behind the length word. -/
  room : target.toNat + lengthSize length +
    (sequenceBytes (List.replicate elements.length base) encodings).length ≤ memoryLimit

section

variable {before linked after machine : Machine} {base : Shape} {length : Option Nat} {elements : List Value}
  {encodings : List (List UInt8)} {pointer target : Word} {start position count : Nat}

/-- The size of a length word as a word. -/
theorem leadSize_eq (length : Option Nat) : leadSize length = Word.ofNat (lengthSize length) := by
  cases length <;> rfl

/-- One more static element is put in its place. -/
theorem PartsWritten.staticElement
    (h : PartsWritten before machine (List.replicate elements.length base) encodings start fun other => other < position)
    (each : EncodesEach (List.replicate elements.length base) elements encodings) (inside : position < elements.length)
    (inside' : position < encodings.length) (static : base.isDynamicallyEncoded = false)
    (puts : machine.Puts after (start + position * base.headBytes) encodings[position]) :
    PartsWritten before after (List.replicate elements.length base) encodings start fun other => other < position + 1 := by
  have below : position < (List.replicate elements.length base).length := by simpa using inside
  rw [← Value.headBytesSum_take_replicate (Nat.le_of_lt inside)] at puts
  refine (h.writeStatic each below inside' (by simpa using static) puts).weaken fun other _ written => ?_
  omega

/-- One more dynamic element is put behind those before it. -/
theorem PartsWritten.dynamicElement
    (h : PartsWritten before machine (List.replicate elements.length base) encodings start fun other => other < position)
    (each : EncodesEach (List.replicate elements.length base) elements encodings) (inside : position < elements.length)
    (inside' : position < encodings.length) (dynamic : base.isDynamicallyEncoded = true)
    (head : machine.Puts linked (start + wordBytes * position) (Word.toBytes (Word.ofNat (wordBytes * elements.length +
      tailsBefore (List.replicate elements.length base) encodings position))))
    (tail : linked.Puts after (start + wordBytes * elements.length +
      tailsBefore (List.replicate elements.length base) encodings position) encodings[position]) :
    PartsWritten before after (List.replicate elements.length base) encodings start fun other => other < position + 1 := by
  have below : position < (List.replicate elements.length base).length := by simpa using inside
  have width : base.headBytes = wordBytes := Shape.headBytes_dynamic dynamic
  have own : headBytesSum ((List.replicate elements.length base).take position) = position * base.headBytes :=
    Value.headBytesSum_take_replicate (Nat.le_of_lt inside)
  have all := Value.headBytesSum_replicate base elements.length
  rw [width, Nat.mul_comm] at own all
  rw [← own, ← all] at head
  rw [← all] at tail
  refine (h.writeDynamic each below inside' (by simpa using dynamic) head tail).weaken fun other _ written => ?_
  omega

/-- The size of the encoding of dynamic elements. -/
theorem length_dynamicElements (each : EncodesEach (List.replicate elements.length base) elements encodings)
    (dynamic : base.isDynamicallyEncoded = true) :
    (sequenceBytes (List.replicate elements.length base) encodings).length = wordBytes * elements.length +
      tailsBefore (List.replicate elements.length base) encodings elements.length := by
  have width : base.headBytes = wordBytes := Shape.headBytes_dynamic dynamic
  rw [each.length_sequenceBytes, Value.headBytesSum_replicate, width, Nat.mul_comm, List.length_replicate]

/-- The size of the encoding of static elements. -/
theorem length_staticElements (each : EncodesEach (List.replicate elements.length base) elements encodings)
    (static : base.isDynamicallyEncoded = false) :
    (sequenceBytes (List.replicate elements.length base) encodings).length = elements.length * base.headBytes := by
  rw [each.length_sequenceBytes, Value.headBytesSum_replicate, Value.tailsBefore_static, Nat.add_zero]
  intro member listed
  rw [(List.mem_replicate.mp listed).2, static]

/-- The tail of the next dynamic element. -/
theorem tailsBefore_element (inside : position < elements.length) (inside' : position < encodings.length)
    (dynamic : base.isDynamicallyEncoded = true) :
    tailsBefore (List.replicate elements.length base) encodings (position + 1) =
      tailsBefore (List.replicate elements.length base) encodings position + encodings[position].length := by
  have below : position < (List.replicate elements.length base).length := by simpa using inside
  rw [Value.tailsBefore_succ below inside', Value.tailBytes, List.getElem_replicate, dynamic, if_pos rfl]

namespace ElementsBelow

variable (context : ElementsBelow machine base length pointer target elements encodings)

include context

/-- There is an encoding for each element. -/
theorem covered : encodings.length = elements.length := by
  rw [context.each.covered, List.length_replicate]

/-- Each element has its encoding. -/
theorem encoded (inside : position < elements.length) (inside' : position < encodings.length) :
    encodeAs base elements[position] = .ok encodings[position] := by
  have own := context.each.each position (by simpa using inside) inside inside'
  rwa [List.getElem_replicate] at own

/-- The address of the heads. -/
theorem toNat_head : (target + leadSize length).toNat = target.toNat + lengthSize length := by
  have limit : memoryLimit < 2 ^ 64 := by decide
  have room := context.room
  rw [Word.toNat_add] <;> rw [toNat_leadSize]
  omega

/-- A static element is written in its place, where the next one begins behind it. -/
theorem staticPlace (inside : position < elements.length) (inside' : position < encodings.length)
    (static : base.isDynamicallyEncoded = false) :
    (target + leadSize length + Word.ofNat position * Word.ofNat base.headBytes).toNat =
        target.toNat + lengthSize length + position * base.headBytes ∧
      target.toNat + lengthSize length + position * base.headBytes + encodings[position].length ≤ memoryLimit := by
  have limit : memoryLimit < 2 ^ 64 := by decide
  have room := context.room
  have head := context.toNat_head
  have own := context.each.sized position (by simpa using inside) inside' (by simpa using static)
  have reach := Nat.mul_le_mul_right base.headBytes (show position + 1 ≤ elements.length from inside)
  rw [List.getElem_replicate] at own
  rw [length_staticElements context.each static] at room
  rw [Nat.succ_mul] at reach
  refine ⟨?_, by omega⟩
  rw [Word.ofNat_mul, Word.toNat_add] <;> rw [Word.toNat_ofNat (by omega), head]
  omega

/-- The offset of a dynamic element is put into its head, and there is room for the element behind the others. -/
theorem link (dynamic : base.isDynamicallyEncoded = true) {reached : Machine}
    (h : PartsWritten machine reached (List.replicate elements.length base) encodings
      (target.toNat + lengthSize length) fun other => other < position)
    (inside : position < elements.length) (inside' : position < encodings.length) :
    let offset := wordBytes * elements.length + tailsBefore (List.replicate elements.length base) encodings position
    let tail := target + leadSize length + Word.ofNat offset
    ∃ linked, (Machine.mstore (wordSlot (target + leadSize length) (Word.ofNat position)) (Word.ofNat offset)).run
        reached = .ok () linked ∧
      reached.Puts linked (target.toNat + lengthSize length + wordBytes * position) (Word.toBytes (Word.ofNat offset)) ∧
      Stands linked 0 tail.toNat base
        (machine.wordAt (pointer.toNat + lengthSize length + wordBytes * position)) elements[position] ∧
      tail.toNat = target.toNat + lengthSize length + offset ∧
      tail.toNat + encodings[position].length ≤ memoryLimit := by
  intro offset tail
  have limit : memoryLimit < 2 ^ 64 := by decide
  have room := context.room
  have head := context.toNat_head
  have slots := Nat.mul_le_mul_left wordBytes (show position + 1 ≤ elements.length from inside)
  rw [Nat.mul_succ] at slots
  have next := tailsBefore_element inside inside' dynamic
  have tails := Value.tailsBefore_mono (List.replicate elements.length base) encodings
    (show position + 1 ≤ elements.length from inside)
  rw [length_dynamicElements context.each dynamic] at room
  have place : tail.toNat = target.toNat + lengthSize length + offset := by
    rw [Word.toNat_add] <;> rw [Word.toNat_ofNat (by omega), head]
    omega
  have slot : (wordSlot (target + leadSize length) (Word.ofNat position)).toNat =
      target.toNat + lengthSize length + wordBytes * position := by
    rw [toNat_wordSlot _ _ (by rw [head]; omega), head]
  obtain ⟨linked, stored⟩ := Machine.mstore_ok reached (wordSlot (target + leadSize length) (Word.ofNat position))
    (Word.ofNat offset) (by rw [slot]; rw [wordBytes] at *; omega)
  have puts := (Machine.puts_of_mstore stored).2
  rw [slot] at puts
  have kept := h.keeps (context.array.each position inside) (Nat.le_add_right _ _)
  refine ⟨linked, stored, puts, ?_, place, by omega⟩
  refine (kept.changes puts.outside fun index _ upper covered => by omega).mono (Nat.le_refl _) ?_
  rw [place]
  omega

end ElementsBelow

/-- An array that stands below an address stands there after changes from the address on. -/
theorem ArrayBelow.changes {region : Nat → Prop} {high : Nat}
    (array : ArrayBelow before high base length pointer elements) (changed : before.ChangesOnly region after)
    (apart : ∀ index < high, ¬ region index) : ArrayBelow after high base length pointer elements := by
  have lead := lengthSize_le length
  refine ⟨array.near, ?_, array.few, array.words, array.lead, fun position inside => ?_⟩
  · rw [← array.counted]
    refine Value.storedCount_congr fun index inside => changed.memory _ (apart _ ?_)
    have own := array.lead
    omega
  · have below := array.words position inside
    rw [Nat.mul_succ] at below
    rw [wordAt_of_below changed apart (by omega)]
    exact (array.each position inside).changes changed fun index _ upper => apart index upper

/-- An array is written if its elements are, once their number is there. -/
theorem encodeArray_writes {rest : Word → Word → Word → MachineStep Word}
    (elementwise : ∀ machine pointer target elements encodings,
      ElementsBelow machine base length pointer target elements encodings →
      ∃ after, (rest pointer target (Word.ofNat elements.length)).run machine =
          .ok (Word.ofNat (sequenceBytes (List.replicate elements.length base) encodings).length + leadSize length) after ∧
        machine.Puts after (target.toNat + lengthSize length)
          (sequenceBytes (List.replicate elements.length base) encodings)) :
    Writes (fun pointer target => do
      let count ← encodeCount length pointer target
      rest pointer target count) (.array base length) := by
  intro machine pointer target value encoding stands encoded room
  obtain ⟨elements, rfl, array⟩ := arrayBelow_of_stands stands
  obtain ⟨others, encodings, same, fixed, -, each, rfl⟩ := Value.encodeAs_array.mp encoded
  cases same
  rw [List.length_append, Value.length_lengthWord_eq] at room ⊢
  obtain ⟨counted, counting, lead⟩ := encodeCount_writes array fixed (by omega)
  have size := Value.length_lengthWord_eq length elements.length
  have below := array.changes lead.outside fun index low covered => by omega
  obtain ⟨after, written, puts⟩ := elementwise counted pointer target elements encodings
    ⟨below, each, by omega⟩
  refine ⟨after, ?_, puts_append lead ?_⟩
  · rw [Step.bind_of_ok counting, written, leadSize_eq, Word.ofNat_add, Nat.add_comm]
  · rw [size]
    exact puts

end

/-! ### Strategies -/

section

variable {machine : Machine} {base : Shape} {length : Option Nat} {elements : List Value}
  {encodings : List (List UInt8)} {pointer target : Word}

/-- The number of elements as a word. -/
theorem ElementsBelow.toNat_count (context : ElementsBelow machine base length pointer target elements encodings) :
    (Word.ofNat elements.length).toNat = elements.length := by
  have limit : memoryLimit < 2 ^ 64 := by decide
  have few := context.array.few
  exact Word.toNat_ofNat (by omega)

/-- A loop writes static elements if each round puts one in its place. -/
theorem staticRounds_write (body : Word → Unit → MachineStep Unit)
    (context : ElementsBelow machine base length pointer target elements encodings)
    (static : base.isDynamicallyEncoded = false)
    (round : ∀ position (_ : position < elements.length) (inside' : position < encodings.length) reached,
      PartsWritten machine reached (List.replicate elements.length base) encodings (target.toNat + lengthSize length)
        (fun other => other < position) →
      ∃ after, (body (Word.ofNat position) ()).run reached = .ok () after ∧
        reached.Puts after (target.toNat + lengthSize length + position * base.headBytes) encodings[position]) :
    ∃ after, (Machine.rounds body (Word.ofNat elements.length).toNat 0#256 ()).run machine = .ok () after ∧
      machine.Puts after (target.toNat + lengthSize length)
        (sequenceBytes (List.replicate elements.length base) encodings) := by
  have covered := context.covered
  have looped : ∃ last after, (Machine.rounds body elements.length 0#256 ()).run machine = .ok last after ∧
      PartsWritten machine after (List.replicate elements.length base) encodings (target.toNat + lengthSize length)
        fun other => other < elements.length :=
    Machine.rounds_ok body (fun position _ reached =>
        PartsWritten machine reached (List.replicate elements.length base) encodings
          (target.toNat + lengthSize length) fun other => other < position)
      (fun position inside _ reached earlier => by
        obtain ⟨after, run, puts⟩ := round position inside (by omega) reached earlier
        exact ⟨(), after, run, earlier.staticElement context.each inside (by omega) static puts⟩)
      ((PartsWritten.none machine (List.replicate elements.length base) encodings _).weaken fun _ _ none =>
        absurd none (Nat.not_lt_zero _))
  obtain ⟨_, after, run, written⟩ := looped
  rw [context.toNat_count]
  exact ⟨after, run, written.puts context.each fun position inside => by simpa using inside⟩

/-- A loop writes dynamic elements if each round puts one behind those before it. -/
theorem dynamicRounds_write (body : Word → Word → MachineStep Word)
    (context : ElementsBelow machine base length pointer target elements encodings)
    (dynamic : base.isDynamicallyEncoded = true)
    (round : ∀ position (_ : position < elements.length) (inside' : position < encodings.length) reached,
      PartsWritten machine reached (List.replicate elements.length base) encodings (target.toNat + lengthSize length)
        (fun other => other < position) →
      let offset := wordBytes * elements.length + tailsBefore (List.replicate elements.length base) encodings position
      ∃ linked after, (body (Word.ofNat position) (Word.ofNat offset)).run reached =
          .ok (Word.ofNat offset + Word.ofNat encodings[position].length) after ∧
        reached.Puts linked (target.toNat + lengthSize length + wordBytes * position) (Word.toBytes (Word.ofNat offset)) ∧
        linked.Puts after (target.toNat + lengthSize length + offset) encodings[position]) :
    ∃ after, (Machine.rounds body (Word.ofNat elements.length).toNat 0#256
        (Word.ofNat elements.length * 32#256)).run machine =
          .ok (Word.ofNat (sequenceBytes (List.replicate elements.length base) encodings).length) after ∧
      machine.Puts after (target.toNat + lengthSize length)
        (sequenceBytes (List.replicate elements.length base) encodings) := by
  have covered := context.covered
  have start : Word.ofNat elements.length * 32#256 = Word.ofNat (wordBytes * elements.length +
      tailsBefore (List.replicate elements.length base) encodings 0) := by
    rw [Value.tailsBefore_zero, Nat.add_zero, mul_wordBytes, context.toNat_count]
  obtain ⟨total, after, run, same, written⟩ := Machine.rounds_ok body (fun position state reached =>
      state = Word.ofNat (wordBytes * elements.length +
        tailsBefore (List.replicate elements.length base) encodings position) ∧
      PartsWritten machine reached (List.replicate elements.length base) encodings (target.toNat + lengthSize length)
        fun other => other < position)
    (fun position inside state reached ⟨same, earlier⟩ => by
      obtain ⟨linked, after, run, head, tail⟩ := round position inside (by omega) reached earlier
      rw [same]
      refine ⟨_, after, run, ?_, ?_⟩
      · rw [Word.ofNat_add, tailsBefore_element inside (by omega) dynamic, Nat.add_assoc]
      · rw [← Nat.add_assoc] at tail
        exact earlier.dynamicElement context.each inside (by omega) dynamic head tail)
    ⟨start, (PartsWritten.none machine (List.replicate elements.length base) encodings _).weaken fun _ _ none =>
      absurd none (Nat.not_lt_zero _)⟩
  rw [context.toNat_count]
  refine ⟨after, ?_, written.puts context.each fun position inside => by simpa using inside⟩
  rw [run, same, length_dynamicElements context.each dynamic]

/-- Static elements are copied one by one. -/
theorem encodeStaticTail_writes (flat : base.IsFlat) (static : base.isDynamicallyEncoded = false) :
    Writes (encodeStaticTail length (Word.ofNat base.staticBytes)) (.array base length) := by
  have limit : memoryLimit < 2 ^ 64 := by decide
  refine encodeArray_writes fun machine pointer target elements encodings context => ?_
  have stride : base.staticBytes = base.headBytes := (Shape.headBytes_static static).symm
  have noBytes : base.isBytesLike = false := by
    by_contra bytesLike
    rw [Value.isDynamicallyEncoded_of_isBytesLike (by simpa using bytesLike)] at static
    cases static
  rw [stride]
  obtain ⟨after, run, puts⟩ := staticRounds_write (fun index _ => do
      let part ← Machine.mload (wordSlot (pointer + leadSize length) index)
      Machine.mcopy (target + leadSize length + index * Word.ofNat base.headBytes) part (Word.ofNat base.headBytes))
    context static fun position inside inside' reached earlier => by
      obtain ⟨place, room⟩ := context.staticPlace inside inside' static
      have width := context.each.sized position (by simpa using inside) inside' (by simpa using static)
      rw [List.getElem_replicate] at width
      have loaded := run_mload_element context.array (by have := context.room; omega) earlier.changes
        (fun index low covered => by omega) inside
      have stands := (earlier.keeps (context.array.each position inside) (Nat.le_add_right _ _)).mono (Nat.le_refl 0)
        (show target.toNat ≤ (target + leadSize length + Word.ofNat position * Word.ofNat base.headBytes).toNat by
          omega)
      have extent : (Word.ofNat base.headBytes).toNat = encodings[position].length := by
        rw [Word.toNat_ofNat (by omega), width]
      rw [← place] at room
      obtain ⟨after, copied, puts⟩ := mcopy_writes flat noBytes stands (context.encoded inside inside') extent room
      rw [place] at puts
      exact ⟨after, by rw [Step.bind_of_ok loaded, copied], puts⟩
  refine ⟨after, ?_, puts⟩
  rw [Step.bind_of_ok run, length_staticElements context.each static, ← Word.ofNat_mul]
  rfl

/-- The tails of elements of one dynamic level are copied one by one. -/
theorem encodeDynamicTail_writes (flat : base.IsFlat) (dynamic : base.isDynamicallyEncoded = true) :
    Writes (encodeDynamicTail length base.isBytesLike (tailExtent base)) (.array base length) := by
  refine encodeArray_writes fun machine pointer target elements encodings context => ?_
  obtain ⟨after, run, puts⟩ := dynamicRounds_write
    (encodeTail base.isBytesLike (tailExtent base) (pointer + leadSize length) (target + leadSize length))
    context dynamic fun position inside inside' reached earlier => by
      obtain ⟨linked, stored, head, stands, place, room⟩ := context.link dynamic earlier inside inside'
      have loaded := run_mload_element context.array (by have := context.room; omega) earlier.changes
        (fun index low covered => by omega) inside
      have near := le_of_readAs flat stands.read
      obtain ⟨after, copied, puts⟩ := copyTail_writes flat dynamic stands (context.encoded inside inside') room
      obtain ⟨extent, -⟩ := tailExtent_encoding flat dynamic stands.read (context.encoded inside inside')
      rw [place] at puts
      refine ⟨linked, after, ?_, head, puts⟩
      rw [encodeTail, Step.bind_of_ok loaded, Step.bind_of_ok stored, Step.bind_of_ok (Machine.run_mload near linked),
        Step.bind_of_ok copied, extent]
      rfl
  refine ⟨after, ?_, puts⟩
  rw [Step.bind_of_ok run]
  rfl

/-- Elements are encoded one by one. -/
theorem encodeSeparate_writes {encodeElement : Word → Word → MachineStep Word} (writes : Writes encodeElement base) :
    Writes (encodeSeparate length base encodeElement) (.array base length) := by
  refine encodeArray_writes fun machine pointer target elements encodings context => ?_
  cases dynamic : base.isDynamicallyEncoded with
  | true =>
    obtain ⟨after, run, puts⟩ := dynamicRounds_write
      (encodeBehind encodeElement (pointer + leadSize length) (target + leadSize length)) context dynamic
      fun position inside inside' reached earlier => by
        obtain ⟨linked, stored, head, stands, place, room⟩ := context.link dynamic earlier inside inside'
        have changed : machine.ChangesOnly (fun index => target.toNat ≤ index) linked :=
          (earlier.changes.mono fun index covered => by omega).trans (head.changes fun index lower upper => by omega)
        have loaded := run_mload_element context.array (by have := context.room; omega) changed
          (fun index low covered => by omega) inside
        obtain ⟨after, encoded, puts⟩ := writes linked _ _ _ _ stands (context.encoded inside inside') room
        rw [place] at puts
        refine ⟨linked, after, ?_, head, puts⟩
        rw [encodeBehind, Step.bind_of_ok stored, Step.bind_of_ok loaded, Step.bind_of_ok encoded]
        rfl
    refine ⟨after, ?_, puts⟩
    rw [if_pos rfl, Step.bind_of_ok run]
    rfl
  | false =>
    obtain ⟨after, run, puts⟩ := staticRounds_write (fun index _ =>
        encodeInPlace encodeElement (Word.ofNat base.headBytes) (pointer + leadSize length) (target + leadSize length)
          index) context dynamic
      fun position inside inside' reached earlier => by
        obtain ⟨place, room⟩ := context.staticPlace inside inside' dynamic
        have loaded := run_mload_element context.array (by have := context.room; omega) earlier.changes
          (fun index low covered => by omega) inside
        have stands := (earlier.keeps (context.array.each position inside) (Nat.le_add_right _ _)).mono (Nat.le_refl 0)
          (show target.toNat ≤ (target + leadSize length + Word.ofNat position * Word.ofNat base.headBytes).toNat by
            omega)
        rw [← place] at room
        obtain ⟨after, encoded, puts⟩ := writes reached _ _ _ _ stands (context.encoded inside inside') room
        rw [place] at puts
        refine ⟨after, ?_, puts⟩
        rw [encodeInPlace, Step.bind_of_ok loaded, Step.bind_of_ok encoded]
        rfl
    refine ⟨after, ?_, puts⟩
    rw [if_neg Bool.false_ne_true]
    dsimp only
    rw [Step.bind_of_ok run, length_staticElements context.each dynamic, ← Word.ofNat_mul]
    rfl

end

end YulAbi.Codec
