import YulAbi.Proofs.Codec.Decoding.Array
import YulAbi.Proofs.Codec.EncodeStep
import YulAbi.Proofs.Value.Copied

/-!
# What encoders read and write

Encoders write exactly the encoding of a value to an address that all bytes of the value
lie below. The encoding of a sequence is written part by part, in any order: no two parts
share a byte, so what has been written of other parts stays. Once every part is there the
sequence is.

A value that stands below an address is read from words and bytes below it, wherever its
parts are. All these words and bytes stay while the encoding is written from the address
on, so encoders may read them at any time.
-/

namespace YulAbi.Codec

open Shape (headBytesSum)
open Value (EncodesEach PartStands Stands encodeAs lengthSize lengthWord sequenceBytes storedCount
  tailBytes tailsBefore)

/-- Whether a step writes the encoding of every value that stands below the address it is given, and answers with
its size. -/
def Writes (step : Word → Word → MachineStep Word) (shape : Shape) : Prop :=
  ∀ (machine : Machine) (pointer target : Word) (value : Value) (encoding : List UInt8),
    Stands machine 0 target.toNat shape pointer value → encodeAs shape value = .ok encoding →
    target.toNat + encoding.length ≤ memoryLimit →
    ∃ after, (step pointer target).run machine = .ok (Word.ofNat encoding.length) after ∧
      machine.Puts after target.toNat encoding

/-- Whether a byte belongs to the head or the tail of a part. -/
def InPart (members : List Shape) (encodings : List (List UInt8)) (start position index : Nat) : Prop :=
  (start + headBytesSum (members.take position) ≤ index ∧
    index < start + headBytesSum (members.take (position + 1))) ∨
  (start + headBytesSum members + tailsBefore members encodings position ≤ index ∧
    index < start + headBytesSum members + tailsBefore members encodings (position + 1))

/-- Whether some parts of a sequence have been written. -/
structure PartsWritten (before after : Machine) (members : List Shape) (encodings : List (List UInt8)) (start : Nat)
    (done : Nat → Prop) : Prop where
  /-- Only bytes of the sequence change. -/
  changes : before.ChangesOnly (fun index => start ≤ index ∧
    index < start + (headBytesSum members + tailsBefore members encodings members.length)) after
  /-- The parts are where they belong. -/
  stands : ∀ position (inside : position < members.length) (inside' : position < encodings.length), done position →
    PartStands after.memory members[position].isDynamicallyEncoded (start + headBytesSum (members.take position))
      (headBytesSum members + tailsBefore members encodings position)
      (start + headBytesSum members + tailsBefore members encodings position) encodings[position]

section

variable {before middle after machine : Machine} {members : List Shape} {values : List Value}
  {encodings : List (List UInt8)} {start position other index offset : Nat} {done : Nat → Prop}
  {shape base : Shape} {length : Option Nat} {first second : List UInt8} {pointer target word : Word}

/-- Bytes that are put in two pieces. -/
theorem puts_append (h : before.Puts middle offset first) (h' : middle.Puts after (offset + first.length) second) :
    before.Puts after offset (first ++ second) := by
  refine ⟨Memory.holds_append.mpr ⟨?_, h'.inside⟩, ?_⟩
  · exact h'.outside.holds h.inside fun index inside covered => by omega
  · rw [List.length_append]
    exact (h.changes fun index lower upper => ⟨lower, by omega⟩).trans
      (h'.changes fun index lower upper => ⟨by omega, by omega⟩)

/-- No bytes are put without any change. -/
theorem puts_nil (machine : Machine) (offset : Nat) : machine.Puts machine offset [] :=
  ⟨Memory.holds_nil _ _, .refl _ _⟩

/-- The heads of the first parts are among those of more. -/
theorem headBytesSum_take_mono (members : List Shape) {count more : Nat} (fewer : count ≤ more) :
    headBytesSum (members.take count) ≤ headBytesSum (members.take more) := by
  have same : (members.take more).take count = members.take count := by
    rw [List.take_take, Nat.min_eq_left fewer]
  rw [← same]
  exact Value.headBytesSum_take_le _ _

/-- Different parts share no byte. -/
theorem InPart.apart (h : InPart members encodings start position index) (different : position ≠ other) :
    ¬ InPart members encodings start other index := by
  have heads := Value.headBytesSum_take_le members (position + 1)
  have heads' := Value.headBytesSum_take_le members (other + 1)
  rcases Nat.lt_or_gt_of_ne different with earlier | later
  · have head := headBytesSum_take_mono members (show position + 1 ≤ other from earlier)
    have tail := Value.tailsBefore_mono members encodings (show position + 1 ≤ other from earlier)
    rintro (own | own) <;> rcases h with covered | covered <;> omega
  · have head := headBytesSum_take_mono members (show other + 1 ≤ position from later)
    have tail := Value.tailsBefore_mono members encodings (show other + 1 ≤ position from later)
    rintro (own | own) <;> rcases h with covered | covered <;> omega

/-- Every byte of a part is one of the sequence. -/
theorem InPart.within (h : InPart members encodings start position index) (inside : position < members.length) :
    start ≤ index ∧ index < start + (headBytesSum members + tailsBefore members encodings members.length) := by
  have heads := Value.headBytesSum_take_le members (position + 1)
  have tails := Value.tailsBefore_mono members encodings (show position + 1 ≤ members.length from inside)
  rcases h with covered | covered <;> omega

/-- A part still stands after changes elsewhere. -/
theorem partStands_changes {region : Nat → Prop} (each : EncodesEach members values encodings)
    (changed : before.ChangesOnly region after)
    (apart : ∀ index, InPart members encodings start position index → ¬ region index)
    (inside : position < members.length) (inside' : position < encodings.length)
    (h : PartStands before.memory members[position].isDynamicallyEncoded
      (start + headBytesSum (members.take position))
      (headBytesSum members + tailsBefore members encodings position)
      (start + headBytesSum members + tailsBefore members encodings position) encodings[position]) :
    PartStands after.memory members[position].isDynamicallyEncoded (start + headBytesSum (members.take position))
      (headBytesSum members + tailsBefore members encodings position)
      (start + headBytesSum members + tailsBefore members encodings position) encodings[position] := by
  have head := Value.headBytesSum_take_succ inside
  have tail := Value.tailsBefore_succ inside inside'
  have size := each.sized position inside inside'
  unfold PartStands at *
  cases dynamic : members[position].isDynamicallyEncoded with
  | true =>
    have width : members[position].headBytes = 32 := Shape.headBytes_dynamic dynamic
    rw [dynamic, if_pos rfl] at h
    rw [if_pos rfl]
    rw [Value.tailBytes, dynamic, if_pos rfl] at tail
    refine ⟨changed.holds h.1 fun index below => apart _ (.inl ⟨by omega, ?_⟩),
      changed.holds h.2 fun index below => apart _ (.inr ⟨by omega, by omega⟩)⟩
    rw [Word.toBytes_length] at below
    omega
  | false =>
    rw [dynamic, if_neg Bool.false_ne_true] at h
    rw [if_neg Bool.false_ne_true]
    have own := size dynamic
    exact changed.holds h fun index below => apart _ (.inl ⟨by omega, by omega⟩)

/-- Nothing has been written yet. -/
theorem PartsWritten.none (machine : Machine) (members : List Shape) (encodings : List (List UInt8)) (start : Nat) :
    PartsWritten machine machine members encodings start fun _ => False :=
  ⟨.refl _ _, fun _ _ _ none => none.elim⟩

/-- One more part is written. -/
theorem PartsWritten.write (h : PartsWritten before middle members encodings start done)
    (each : EncodesEach members values encodings) (inside : position < members.length)
    (inside' : position < encodings.length) (changed : middle.ChangesOnly (InPart members encodings start position) after)
    (stands : PartStands after.memory members[position].isDynamicallyEncoded
      (start + headBytesSum (members.take position))
      (headBytesSum members + tailsBefore members encodings position)
      (start + headBytesSum members + tailsBefore members encodings position) encodings[position]) :
    PartsWritten before after members encodings start fun other => done other ∨ other = position := by
  refine ⟨h.changes.trans (changed.mono fun index covered => covered.within inside), ?_⟩
  intro other below below' written
  by_cases same : other = position
  · subst same
    exact stands
  · refine partStands_changes each changed (fun index covered => covered.apart same) below below' ?_
    exact h.stands other below below' (written.resolve_right same)

/-- A static part is put in its place. -/
theorem PartsWritten.writeStatic (h : PartsWritten before middle members encodings start done)
    (each : EncodesEach members values encodings) (inside : position < members.length)
    (inside' : position < encodings.length) (static : members[position].isDynamicallyEncoded = false)
    (puts : middle.Puts after (start + headBytesSum (members.take position)) encodings[position]) :
    PartsWritten before after members encodings start fun other => done other ∨ other = position := by
  have head := Value.headBytesSum_take_succ inside
  have size := each.sized position inside inside' static
  refine h.write each inside inside' (puts.changes fun index lower upper => .inl ⟨lower, by omega⟩) ?_
  rw [PartStands, static, if_neg Bool.false_ne_true]
  exact puts.inside

/-- The offset of a dynamic part is put into its head, and the part behind those before it. -/
theorem PartsWritten.writeDynamic {linked : Machine} (h : PartsWritten before middle members encodings start done)
    (each : EncodesEach members values encodings) (inside : position < members.length)
    (inside' : position < encodings.length) (dynamic : members[position].isDynamicallyEncoded = true)
    (head : middle.Puts linked (start + headBytesSum (members.take position))
      (Word.toBytes (Word.ofNat (headBytesSum members + tailsBefore members encodings position))))
    (tail : linked.Puts after (start + headBytesSum members + tailsBefore members encodings position)
      encodings[position]) :
    PartsWritten before after members encodings start fun other => done other ∨ other = position := by
  have heads := Value.headBytesSum_take_succ inside
  have width : members[position].headBytes = 32 := Shape.headBytes_dynamic dynamic
  have tails := Value.tailsBefore_succ inside inside'
  have below := Value.headBytesSum_take_le members (position + 1)
  rw [Value.tailBytes, dynamic, if_pos rfl] at tails
  have wide := Word.toBytes_length (Word.ofNat (headBytesSum members + tailsBefore members encodings position))
  refine h.write each inside inside' ((head.changes fun index lower upper => .inl ⟨lower, by omega⟩).trans
    (tail.changes fun index lower upper => .inr ⟨lower, by omega⟩)) ?_
  rw [PartStands, dynamic, if_pos rfl]
  exact ⟨tail.outside.holds head.inside fun index inside covered => by omega, tail.inside⟩

/-- Once all parts have been written the sequence is there, and nothing else has changed. -/
theorem PartsWritten.puts (h : PartsWritten before after members encodings start done)
    (each : EncodesEach members values encodings) (all : ∀ position < members.length, done position) :
    before.Puts after start (sequenceBytes members encodings) := by
  refine ⟨each.holds_iff.mpr fun position inside inside' => h.stands position inside inside' (all position inside), ?_⟩
  rw [each.length_sequenceBytes]
  exact h.changes

/-- Of the parts that count as written some may be forgotten. -/
theorem PartsWritten.weaken {fewer : Nat → Prop} (h : PartsWritten before after members encodings start done)
    (counts : ∀ position < members.length, fewer position → done position) :
    PartsWritten before after members encodings start fewer :=
  ⟨h.changes, fun position inside inside' written => h.stands position inside inside' (counts position inside written)⟩

/-- What stands below a sequence still stands once parts of it have been written. -/
theorem PartsWritten.keeps (h : PartsWritten before after members encodings start done) {high : Nat}
    {value : Value} (stands : Stands before 0 high shape word value) (below : high ≤ start) :
    Stands after 0 high shape word value :=
  stands.changes h.changes fun index _ upper covered => by omega

/-- A word below a sequence stays. -/
theorem PartsWritten.wordAt (h : PartsWritten before after members encodings start done)
    (below : offset + wordBytes ≤ start) : after.wordAt offset = before.wordAt offset := by
  simp only [wordBytes] at below
  exact h.changes.wordAt fun index inside covered => by omega

end

/-! ### What is read -/

/-- What stands below an address where an array does. -/
structure ArrayBelow (machine : Machine) (high : Nat) (base : Shape) (length : Option Nat) (pointer : Word)
    (elements : List Value) : Prop where
  /-- The pointer is within the limit. -/
  near : pointer.toNat ≤ memoryLimit
  /-- The number of elements is there, or else in the shape. -/
  counted : storedCount machine.memory length pointer.toNat = elements.length
  /-- It is within the limit. -/
  few : elements.length ≤ memoryLimit
  /-- The words of elements are below the address, if there are any. -/
  words : ∀ position < elements.length,
    pointer.toNat + lengthSize length + wordBytes * (position + 1) ≤ high
  /-- The length word is. -/
  lead : pointer.toNat + lengthSize length ≤ high ∨ lengthSize length = 0
  /-- The elements stand below it. -/
  each : ∀ position (inside : position < elements.length), Stands machine 0 high base
    (machine.wordAt (pointer.toNat + lengthSize length + wordBytes * position)) elements[position]

/-- What stands below an address where a struct or tuple does. -/
structure MembersBelow (machine : Machine) (high : Nat) (members : List Shape) (pointer : Word)
    (values : List Value) : Prop where
  /-- The pointer is within the limit. -/
  near : pointer.toNat ≤ memoryLimit
  /-- There is a value for each member. -/
  counted : values.length = members.length
  /-- The words of members are below the address, if there are any. -/
  words : ∀ position < members.length, pointer.toNat + wordBytes * (position + 1) ≤ high
  /-- The members stand below it. -/
  each : ∀ position (inside : position < members.length) (inside' : position < values.length),
    Stands machine 0 high members[position] (machine.wordAt (pointer.toNat + wordBytes * position)) values[position]

section

variable {before middle after machine : Machine} {shape base : Shape} {length : Option Nat} {members : List Shape}
  {value : Value} {values elements : List Value} {encoding : List UInt8} {pointer target word : Word} {high : Nat}

/-- An array that stands below an address. -/
theorem arrayBelow_of_stands (h : Stands machine 0 high (.array base length) pointer value) :
    ∃ elements, value = .array elements ∧ ArrayBelow machine high base length pointer elements := by
  obtain ⟨elements, rfl, near, counted, few, read⟩ := Value.readAs_array.mp h.read
  have own : ∀ index, pointer.toNat ≤ index →
      index < pointer.toNat + lengthSize length + wordBytes * elements.length → index < high := by
    intro index lower upper
    exact (h.within index (.inl ⟨lower, by rw [counted]; exact upper⟩)).2
  have wide : 0 < wordBytes := by decide
  refine ⟨elements, rfl, near, counted, few, fun position inside => ?_, ?_, fun position inside => ?_⟩
  · have room := Nat.mul_le_mul_left wordBytes (show position + 1 ≤ elements.length from inside)
    have last := own (pointer.toNat + lengthSize length + wordBytes * (position + 1) - 1) (by rw [Nat.mul_succ]; omega)
      (by rw [Nat.mul_succ] at *; omega)
    rw [Nat.mul_succ] at *
    omega
  · rcases Nat.eq_zero_or_pos (lengthSize length) with none | some
    · exact .inr none
    · have last := own (pointer.toNat + lengthSize length - 1) (by omega) (by omega)
      exact .inl (by omega)
  · exact ⟨read position inside, fun index reads => h.within index (.inr ⟨position, by rw [counted]; exact inside, reads⟩)⟩

/-- A struct or tuple that stands below an address. -/
theorem membersBelow_of_stands (composite : shape.IsComposite members) (h : Stands machine 0 high shape pointer value) :
    ∃ values, value = .tuple values ∧ MembersBelow machine high members pointer values := by
  obtain ⟨values, rfl, near, counted, read⟩ := (Value.readAs_composite composite).mp h.read
  have reads := fun index => (Value.reads_composite composite : Value.Reads machine shape pointer index ↔ _).mpr
  have wide : 0 < wordBytes := by decide
  refine ⟨values, rfl, near, counted, fun position inside => ?_, fun position inside inside' => ?_⟩
  · have room := Nat.mul_le_mul_left wordBytes (show position + 1 ≤ members.length from inside)
    have last := (h.within _ (reads (pointer.toNat + wordBytes * (position + 1) - 1) (.inl
      ⟨by rw [Nat.mul_succ]; omega, by rw [Nat.mul_succ] at *; omega⟩))).2
    rw [Nat.mul_succ] at *
    omega
  · exact ⟨read position inside inside', fun index own => h.within index (reads index (.inr ⟨position, inside, own⟩))⟩

/-- A word that stands below an address is there after changes from the address on. -/
theorem wordAt_of_below {region : Nat → Prop} (changed : before.ChangesOnly region after) {offset : Nat}
    (apart : ∀ index < high, ¬ region index) (below : offset + wordBytes ≤ high) :
    after.wordAt offset = before.wordAt offset := by
  simp only [wordBytes] at below
  exact changed.wordAt fun index inside => apart _ (by omega)

/-- The number of elements is written in front of them if it varies. -/
theorem encodeCount_writes (array : ArrayBelow machine target.toNat base length pointer elements)
    (fixed : ∀ expected ∈ length, elements.length = expected)
    (room : target.toNat + lengthSize length ≤ memoryLimit) :
    ∃ after, (encodeCount length pointer target).run machine = .ok (Word.ofNat elements.length) after ∧
      machine.Puts after target.toNat (lengthWord length elements.length) := by
  have limit : memoryLimit < 2 ^ 64 := by decide
  cases length with
  | none =>
    have few := array.few
    have own : machine.wordAt pointer.toNat = Word.ofNat elements.length := by
      rw [← Word.ofNat_toNat (machine.wordAt pointer.toNat)]
      exact congrArg Word.ofNat array.counted
    obtain ⟨after, stored⟩ := Machine.mstore_ok machine target (Word.ofNat elements.length) room
    refine ⟨after, ?_, (Machine.puts_of_mstore stored).2⟩
    rw [encodeCount, Step.bind_of_ok (Machine.run_mload array.near machine), own, Step.bind_of_ok stored]
    rfl
  | some expected =>
    refine ⟨machine, ?_, puts_nil _ _⟩
    rw [fixed expected rfl]
    rfl

/-- The address of the word of an element. -/
theorem toNat_elementSlot (array : ArrayBelow machine target.toNat base length pointer elements)
    (near : target.toNat ≤ memoryLimit) {position : Nat} (inside : position < elements.length) :
    (wordSlot (pointer + leadSize length) (Word.ofNat position)).toNat =
      pointer.toNat + lengthSize length + wordBytes * position := by
  have limit : memoryLimit < 2 ^ 64 := by decide
  have below := array.words position inside
  have head : (pointer + leadSize length).toNat = pointer.toNat + lengthSize length := by
    rw [Word.toNat_add] <;> rw [toNat_leadSize]
    omega
  rw [Nat.mul_succ] at below
  rw [toNat_wordSlot _ _ (by rw [head]; omega), head]

/-- The word of an element is read while anything is written from the address on. -/
theorem run_mload_element (array : ArrayBelow before target.toNat base length pointer elements)
    (near : target.toNat ≤ memoryLimit) {region : Nat → Prop} (changed : before.ChangesOnly region after)
    (apart : ∀ index < target.toNat, ¬ region index) {position : Nat} (inside : position < elements.length) :
    (Machine.mload (wordSlot (pointer + leadSize length) (Word.ofNat position))).run after =
      .ok (before.wordAt (pointer.toNat + lengthSize length + wordBytes * position)) after := by
  have below := array.words position inside
  rw [Nat.mul_succ] at below
  have slot := toNat_elementSlot array near inside
  rw [Machine.run_mload (by omega), slot, wordAt_of_below changed apart (by omega)]

end

end YulAbi.Codec
