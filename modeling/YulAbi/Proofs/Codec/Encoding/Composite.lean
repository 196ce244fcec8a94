import YulAbi.Proofs.Codec.Decoding.Composite
import YulAbi.Proofs.Codec.Decoding.Parts
import YulAbi.Proofs.Codec.Encoding.Array

/-!
# Writing structs and tuples

The words of members are copied to their heads segment by segment. A segment puts each of
its words where the head of the member belongs, so once all segments have been copied the
values among the members have been written. Then each reference is encoded in its head or
behind everything written so far, with its offset in its head, and takes the place of
whatever a segment has left there. The running size is where the next tail begins.
-/

namespace YulAbi.Codec

open Shape (headBytesSum)
open Value (EncodesEach PartStands)

/-- Whether the heads of some members hold the words of the members. -/
structure HeadsCopied (before after : Machine) (members : List Shape) (pointer target : Nat)
    (copied : Nat → Prop) : Prop where
  /-- Only heads change. -/
  changes : before.ChangesOnly (fun index => target ≤ index ∧ index < target + headBytesSum members) after
  /-- They are one word each. -/
  widths : ∀ position, copied position →
    headBytesSum (members.take (position + 1)) = headBytesSum (members.take position) + wordBytes
  /-- They are the words in memory. -/
  words : ∀ position, copied position →
    after.wordAt (target + headBytesSum (members.take position)) = before.wordAt (pointer + wordBytes * position)

section

variable {before middle after : Machine} {members : List Shape} {values : List Value}
  {encodings : List (List UInt8)} {pointer target : Word} {segment : Segment} {segments : List Segment}
  {copied : Nat → Prop}

/-- The heads of a segment lie among all heads. -/
theorem heads_le_of_fits (fits : segment.Fits members) :
    headBytesSum (members.take segment.start) + wordBytes * (segment.stop - segment.start) ≤ headBytesSum members := by
  rw [← fits.aligned segment.stop (Nat.le_of_lt fits.starts) (Nat.le_refl _)]
  exact Value.headBytesSum_take_le members segment.stop

/-- A segment is copied, and its words are put where its heads belong. -/
theorem encodeSegment_puts (fits : segment.Fits members) (few : members.length < 2 ^ 64)
    (near : pointer.toNat ≤ memoryLimit)
    (words : ∀ position < members.length, pointer.toNat + wordBytes * (position + 1) ≤ memoryLimit)
    (room : target.toNat + headBytesSum members ≤ memoryLimit) (machine : Machine) :
    ∃ after, (encodeSegment members pointer target segment).run machine = .ok () after ∧
      machine.Puts after (target.toNat + headBytesSum (members.take segment.start))
        (Memory.bytesAt machine.memory (pointer.toNat + wordBytes * segment.start)
          (wordBytes * (segment.stop - segment.start))) := by
  have limit : memoryLimit < 2 ^ 64 := by decide
  have starts := fits.starts
  have stops := fits.stops
  have heads := heads_le_of_fits fits
  have last := words segment.start (by omega)
  rw [Nat.mul_succ] at last
  have source := toNat_memberSlot pointer few near (show segment.start ≤ members.length by omega)
  have place : (target + Word.ofNat (headBytesSum (members.take segment.start))).toNat =
      target.toNat + headBytesSum (members.take segment.start) := by
    rw [Word.toNat_add] <;> rw [Word.toNat_ofNat (by omega)]
    omega
  unfold encodeSegment
  dsimp only
  split
  · rename_i single
    rw [Segment.length] at single
    rw [single, Nat.mul_one] at heads
    obtain ⟨after, stored⟩ := Machine.mstore_ok machine
      (target + Word.ofNat (headBytesSum (members.take segment.start)))
      (machine.wordAt (pointer.toNat + wordBytes * segment.start))
      (by rw [place]; rw [wordBytes] at *; omega)
    have puts := (Machine.puts_of_mstore stored).2
    have bytes := Memory.holds_toBytes.mpr
      (rfl : Memory.wordAt machine.memory (pointer.toNat + wordBytes * segment.start) = _)
    rw [Memory.Holds, Word.toBytes_length] at bytes
    rw [place] at puts
    refine ⟨after, ?_, ?_⟩
    · rw [Step.bind_of_ok (Machine.run_mload (by rw [source]; omega) machine), source]
      exact stored
    · rw [single, Nat.mul_one, show wordBytes = 32 from rfl]
      exact bytes ▸ puts
  · have size := toNat_byteLength fits few
    have inside : (Word.ofNat segment.byteLength).toNat = 0 ∨
        (pointer + Word.ofNat (segment.start * wordBytes)).toNat ≤ memoryLimit ∧
          (target + Word.ofNat (headBytesSum (members.take segment.start))).toNat +
            (Word.ofNat segment.byteLength).toNat ≤ memoryLimit := by
      rw [source, place, size]
      exact .inr ⟨by omega, by omega⟩
    obtain ⟨after, copying⟩ := Machine.mcopy_ok machine inside
    have puts := Machine.puts_of_mcopy copying
    rw [source, place, size] at puts
    exact ⟨after, copying, puts⟩

/-- One more segment is copied. -/
theorem HeadsCopied.copySegment (h : HeadsCopied before middle members pointer.toNat target.toNat copied)
    (fits : segment.Fits members)
    (below : ∀ position < members.length, pointer.toNat + wordBytes * (position + 1) ≤ target.toNat)
    (puts : middle.Puts after (target.toNat + headBytesSum (members.take segment.start))
      (Memory.bytesAt middle.memory (pointer.toNat + wordBytes * segment.start)
        (wordBytes * (segment.stop - segment.start)))) :
    HeadsCopied before after members pointer.toNat target.toNat
      fun position => copied position ∨ (segment.start ≤ position ∧ position < segment.stop) := by
  have heads := heads_le_of_fits fits
  have stops := fits.stops
  have aligned := fits.aligned
  have size := Memory.length_bytesAt middle.memory (pointer.toNat + wordBytes * segment.start)
    (wordBytes * (segment.stop - segment.start))
  have width : ∀ position, segment.start ≤ position → position < segment.stop →
      headBytesSum (members.take (position + 1)) = headBytesSum (members.take position) + wordBytes := by
    intro position lower upper
    rw [aligned _ lower (Nat.le_of_lt upper), aligned (position + 1) (by omega) upper,
      show position + 1 - segment.start = (position - segment.start) + 1 by omega, Nat.mul_succ]
    omega
  refine ⟨h.changes.trans (puts.changes fun index lower upper => by omega), ?_, ?_⟩
  · rintro position (earlier | ⟨lower, upper⟩)
    · exact h.widths position earlier
    · exact width position lower upper
  · intro position written
    by_cases inside : segment.start ≤ position ∧ position < segment.stop
    · have reach := Nat.mul_le_mul_left wordBytes (show position - segment.start + 1 ≤ segment.stop - segment.start by omega)
      have own : wordBytes * segment.start + wordBytes * (position - segment.start) = wordBytes * position := by
        rw [← Nat.mul_add, Nat.add_sub_cancel' inside.1]
      have source := below position (by omega)
      rw [Nat.mul_succ] at reach source
      have bytes := Memory.holds_bytesAt_iff.mp puts.inside
      rw [aligned position inside.1 (Nat.le_of_lt inside.2)]
      refine Memory.wordAt_congr fun index small => ?_
      have byte := bytes (wordBytes * (position - segment.start) + index) (by simp only [wordBytes] at *; omega)
      rw [← Nat.add_assoc, ← Nat.add_assoc, Nat.add_assoc target.toNat, Nat.add_assoc pointer.toNat, own] at byte
      rw [byte]
      exact h.changes.memory _ fun covered => by simp only [wordBytes] at *; omega
    · have earlier := written.resolve_right inside
      have own := h.widths position earlier
      rw [← h.words position earlier]
      -- The head is in front of the segment or behind it.
      rcases Nat.lt_or_ge position segment.start with first | last
      · have front := headBytesSum_take_mono members (show position + 1 ≤ segment.start from first)
        exact puts.outside.wordAt fun index small covered => by simp only [wordBytes] at *; omega
      · have behind := headBytesSum_take_mono members (show segment.stop ≤ position by omega)
        rw [aligned segment.stop (Nat.le_of_lt fits.starts) (Nat.le_refl _)] at behind
        exact puts.outside.wordAt fun index small covered => by omega

/-- Segments are copied one after the other. -/
theorem HeadsCopied.copySegments (h : HeadsCopied before middle members pointer.toNat target.toNat copied)
    (fits : ∀ segment ∈ segments, segment.Fits members) (few : members.length < 2 ^ 64)
    (near : pointer.toNat ≤ memoryLimit)
    (below : ∀ position < members.length, pointer.toNat + wordBytes * (position + 1) ≤ target.toNat)
    (room : target.toNat + headBytesSum members ≤ memoryLimit) :
    ∃ after, (encodeSegments members pointer target segments).run middle = .ok () after ∧
      HeadsCopied before after members pointer.toNat target.toNat fun position => copied position ∨
        ∃ segment ∈ segments, segment.start ≤ position ∧ position < segment.stop := by
  induction segments generalizing middle copied with
  | nil => exact ⟨middle, rfl, by simpa using h⟩
  | cons segment rest ih =>
    have own := fits segment List.mem_cons_self
    obtain ⟨next, first, puts⟩ := encodeSegment_puts own few near
      (fun position inside => Nat.le_trans (below position inside) (by omega)) room middle
    have one := h.copySegment own below puts
    obtain ⟨after, others, all⟩ := ih one fun other listed => fits other (List.mem_cons_of_mem _ listed)
    refine ⟨after, ?_, by simpa only [List.mem_cons, exists_eq_or_imp, or_assoc] using all⟩
    rw [encodeSegments, Step.bind_of_ok first]
    exact others

/-- Once all segments have been copied the values among the members have been written. -/
theorem HeadsCopied.written (h : HeadsCopied before after members pointer.toNat target.toNat copied)
    (each : EncodesEach members values encodings) (source : MembersBelow before target.toNat members pointer values)
    (all : ∀ position (inside : position < members.length), members[position].isValueType = true → copied position) :
    PartsWritten before after members encodings target.toNat
      fun position => ∃ inside : position < members.length, members[position].isValueType = true := by
  refine ⟨h.changes.mono fun index covered => by omega, ?_⟩
  rintro position inside inside' ⟨_, valueType⟩
  have counted : position < values.length := by rw [each.counted]; exact inside
  have read := (source.each position inside counted).read
  obtain ⟨word, same, written⟩ := (Value.encodeAs_word valueType).mp (each.each position inside counted inside')
  rw [Value.readAs_word valueType, same] at read
  rw [PartStands, Shape.isDynamicallyEncoded_of_isValueType valueType, if_neg Bool.false_ne_true, written]
  refine Memory.holds_toBytes.mpr ((h.words position (all position inside valueType)).trans ?_)
  exact Value.word.inj (Except.ok.inj read)

end

/-! ### References -/

open Value (Stands encodeAs sequenceBytes tailsBefore)

/-- What is done for one member behind the segments: a reference is encoded, a value is there. -/
def encodeMember (cap : Nat) (pointer target : Word) (index callOffset : Nat) (size : Word) (member : Shape) :
    MachineStep Word :=
  if member.isReferenceType then
    encodePart member.isDynamicallyEncoded (encodeAt cap member)
      (Machine.mload (pointer + Word.ofNat (index * wordBytes))) (target + Word.ofNat callOffset) target size
  else pure size

/-- The encodings of members, with room for them behind an address that they stand below. -/
structure MembersEncoded (machine : Machine) (members : List Shape) (pointer target : Word) (values : List Value)
    (encodings : List (List UInt8)) : Prop where
  /-- The members stand below the address. -/
  source : MembersBelow machine target.toNat members pointer values
  /-- Each is encoded. -/
  each : EncodesEach members values encodings
  /-- There is room for the encodings. -/
  room : target.toNat + (sequenceBytes members encodings).length ≤ memoryLimit

section

variable {before machine : Machine} {cap : Nat} {shape : Shape} {members : List Shape} {values : List Value}
  {encodings : List (List UInt8)} {pointer target : Word} {position : Nat}

/-- References are encoded member by member. -/
theorem encodeParts_cons (cap : Nat) (pointer target : Word) (index callOffset : Nat) (size : Word) (member : Shape)
    (rest : List Shape) : encodeParts cap pointer target index callOffset size (member :: rest) = (do
      let reached ← encodeMember cap pointer target index callOffset size member
      encodeParts cap pointer target (index + 1) (callOffset + member.headBytes) reached rest) := by
  rw [encodeParts, encodeMember]
  split <;> rfl

/-- The word of a member is read while anything is written from the address on. -/
theorem run_mload_member (source : MembersBelow before target.toNat members pointer values)
    (few : members.length < 2 ^ 64) (near : target.toNat ≤ memoryLimit) {region : Nat → Prop}
    (changed : before.ChangesOnly region machine) (apart : ∀ index < target.toNat, ¬ region index)
    (inside : position < members.length) :
    (Machine.mload (pointer + Word.ofNat (position * wordBytes))).run machine =
      .ok (before.wordAt (pointer.toNat + wordBytes * position)) machine := by
  have below := source.words position inside
  rw [Nat.mul_succ] at below
  have slot := toNat_memberSlot pointer few source.near (Nat.le_of_lt inside)
  rw [Machine.run_mload (by omega), slot, wordAt_of_below changed apart (by omega)]

/-- The next part is encoded, wherever its word comes from. -/
theorem PartsWritten.encodePart {done : Nat → Prop} {word : Word} {effect : MachineStep Word}
    {step : Word → Word → MachineStep Word} (each : EncodesEach members values encodings)
    (room : target.toNat + (sequenceBytes members encodings).length ≤ memoryLimit)
    (h : PartsWritten before machine members encodings target.toNat done) (inside : position < members.length)
    (counted : position < values.length)
    (stands : Stands before 0 target.toNat members[position] word values[position])
    (loads : ∀ reached, before.ChangesOnly (fun index => target.toNat ≤ index) reached →
      effect.run reached = .ok word reached)
    (writes : Writes step members[position]) :
    ∃ after, (Codec.encodePart members[position].isDynamicallyEncoded step effect
        (target + Word.ofNat (headBytesSum (members.take position))) target
        (Word.ofNat (headBytesSum members + tailsBefore members encodings position))).run machine =
          .ok (Word.ofNat (headBytesSum members + tailsBefore members encodings (position + 1))) after ∧
      PartsWritten before after members encodings target.toNat fun other => done other ∨ other = position := by
  have limit : memoryLimit < 2 ^ 64 := by decide
  have total := each.length_sequenceBytes
  have inside' : position < encodings.length := by rw [each.covered]; exact inside
  have heads := Value.headBytesSum_take_le members (position + 1)
  have head := Value.headBytesSum_take_succ inside
  have tails := Value.tailsBefore_mono members encodings (show position + 1 ≤ members.length from inside)
  have tail := Value.tailsBefore_succ inside inside'
  have encoded := each.each position inside counted inside'
  have behind : before.ChangesOnly (fun index => target.toNat ≤ index) machine :=
    h.changes.mono fun index covered => covered.1
  have place : (target + Word.ofNat (headBytesSum (members.take position))).toNat =
      target.toNat + headBytesSum (members.take position) := by
    rw [Word.toNat_add] <;> rw [Word.toNat_ofNat (by omega)]
    omega
  unfold Codec.encodePart
  cases dynamic : members[position].isDynamicallyEncoded with
  | false =>
    have kept := stands.changes behind fun index _ upper covered => by omega
    have own := each.sized position inside inside' dynamic
    obtain ⟨after, written, puts⟩ := writes machine _ (target + Word.ofNat (headBytesSum (members.take position))) _ _
      (kept.mono (Nat.le_refl 0) (by omega)) encoded (by omega)
    rw [place] at puts
    rw [Value.tailBytes, dynamic, if_neg Bool.false_ne_true, Nat.add_zero] at tail
    refine ⟨after, ?_, h.writeStatic each inside inside' dynamic puts⟩
    rw [if_neg Bool.false_ne_true, Step.bind_of_ok (loads machine behind), Step.bind_of_ok written, tail]
    rfl
  | true =>
    rw [Value.tailBytes, dynamic, if_pos rfl] at tail
    have width : members[position].headBytes = 32 := Shape.headBytes_dynamic dynamic
    have last : (target + Word.ofNat (headBytesSum members + tailsBefore members encodings position)).toNat =
        target.toNat + headBytesSum members + tailsBefore members encodings position := by
      rw [Word.toNat_add] <;> rw [Word.toNat_ofNat (by omega)] <;> omega
    obtain ⟨linked, stored⟩ := Machine.mstore_ok machine (target + Word.ofNat (headBytesSum (members.take position)))
      (Word.ofNat (headBytesSum members + tailsBefore members encodings position)) (by omega)
    have offset := (Machine.puts_of_mstore stored).2
    rw [place] at offset
    have changed : before.ChangesOnly (fun index => target.toNat ≤ index) linked :=
      behind.trans (offset.changes fun index lower upper => by omega)
    have kept := stands.changes changed fun index _ upper covered => by omega
    obtain ⟨after, written, puts⟩ := writes linked _
      (target + Word.ofNat (headBytesSum members + tailsBefore members encodings position)) _ _
      (kept.mono (Nat.le_refl 0) (by omega)) encoded (by omega)
    rw [last] at puts
    refine ⟨after, ?_, h.writeDynamic each inside inside' dynamic offset puts⟩
    rw [if_pos rfl, Step.bind_of_ok stored, Step.bind_of_ok (loads linked changed), Step.bind_of_ok written,
      Word.ofNat_add, tail, Nat.add_assoc]
    rfl

/-- The next reference is encoded. -/
theorem MembersEncoded.reference (context : MembersEncoded before members pointer target values encodings)
    (few : members.length < 2 ^ 64) {done : Nat → Prop}
    (h : PartsWritten before machine members encodings target.toNat done) (inside : position < members.length)
    (writes : Writes (encodeAt cap members[position]) members[position]) :
    ∃ after, (encodePart members[position].isDynamicallyEncoded (encodeAt cap members[position])
        (Machine.mload (pointer + Word.ofNat (position * wordBytes)))
        (target + Word.ofNat (headBytesSum (members.take position))) target
        (Word.ofNat (headBytesSum members + tailsBefore members encodings position))).run machine =
          .ok (Word.ofNat (headBytesSum members + tailsBefore members encodings (position + 1))) after ∧
      PartsWritten before after members encodings target.toNat fun other => done other ∨ other = position := by
  have room := context.room
  have counted : position < values.length := by rw [context.each.counted]; exact inside
  refine h.encodePart context.each context.room inside counted (context.source.each position inside counted)
    (fun reached changed => ?_) writes
  exact run_mload_member context.source few (by omega) changed (fun index low covered => by omega) inside

/-- One more member is written, if it was not a value. -/
theorem MembersEncoded.member (context : MembersEncoded before members pointer target values encodings)
    (few : members.length < 2 ^ 64)
    (sorts : ∀ member ∈ members, member.isValueType = true ∨ member.isReferenceType = true)
    (writes : ∀ member ∈ members, member.isReferenceType = true → Writes (encodeAt cap member) member)
    (inside : position < members.length)
    (h : PartsWritten before machine members encodings target.toNat fun other =>
      other < position ∨ ∃ inside : other < members.length, members[other].isValueType = true) :
    ∃ after, (encodeMember cap pointer target position (headBytesSum (members.take position))
        (Word.ofNat (headBytesSum members + tailsBefore members encodings position)) members[position]).run machine =
          .ok (Word.ofNat (headBytesSum members + tailsBefore members encodings (position + 1))) after ∧
      PartsWritten before after members encodings target.toNat fun other =>
        other < position + 1 ∨ ∃ inside : other < members.length, members[other].isValueType = true := by
  have listed : members[position] ∈ members := List.getElem_mem inside
  have inside' : position < encodings.length := by rw [context.each.covered]; exact inside
  rcases sorts _ listed with value | reference
  · have static := Shape.isDynamicallyEncoded_of_isValueType value
    have tail := Value.tailsBefore_succ inside inside'
    rw [Value.tailBytes, static, if_neg Bool.false_ne_true, Nat.add_zero] at tail
    refine ⟨machine, ?_, h.weaken fun other _ written => ?_⟩
    · rw [encodeMember, Shape.isReferenceType_of_isValueType value, if_neg Bool.false_ne_true, tail]
      rfl
    · rcases written with earlier | isValue
      · by_cases same : other = position
        · exact .inr ⟨same ▸ inside, by simpa only [same] using value⟩
        · exact .inl (by omega)
      · exact .inr isValue
  · obtain ⟨after, run, written⟩ := context.reference few h inside (writes _ listed reference)
    refine ⟨after, ?_, written.weaken fun other _ counts => ?_⟩
    · rw [encodeMember, if_pos reference]
      exact run
    · rcases counts with earlier | isValue
      · by_cases same : other = position
        · exact .inr same
        · exact .inl (.inl (by omega))
      · exact .inl (.inr isValue)

/-- All references are encoded. The induction is on the members that are left. -/
theorem MembersEncoded.references (context : MembersEncoded before members pointer target values encodings)
    (few : members.length < 2 ^ 64)
    (sorts : ∀ member ∈ members, member.isValueType = true ∨ member.isReferenceType = true)
    (writes : ∀ member ∈ members, member.isReferenceType = true → Writes (encodeAt cap member) member)
    (first rest : List Shape) (all : members = first ++ rest)
    (h : PartsWritten before machine members encodings target.toNat fun other =>
      other < first.length ∨ ∃ inside : other < members.length, members[other].isValueType = true) :
    ∃ after, (encodeParts cap pointer target first.length (headBytesSum first)
        (Word.ofNat (headBytesSum members + tailsBefore members encodings first.length)) rest).run machine =
          .ok (Word.ofNat (sequenceBytes members encodings).length) after ∧
      before.Puts after target.toNat (sequenceBytes members encodings) := by
  induction rest generalizing first machine with
  | nil =>
    rw [List.append_nil] at all
    subst all
    refine ⟨machine, ?_, h.puts context.each fun position inside => .inl inside⟩
    rw [context.each.length_sequenceBytes]
    rfl
  | cons member rest ih =>
    have inside : first.length < members.length := by
      rw [all, List.length_append, List.length_cons]
      omega
    have own : members[first.length] = member := by simp [all]
    have taken : members.take first.length = first := by rw [all, List.take_left']; rfl
    have size : (first ++ [member]).length = first.length + 1 := by simp
    have heads : headBytesSum (first ++ [member]) = headBytesSum first + member.headBytes := by
      rw [Shape.headBytesSum_append, headBytesSum, headBytesSum, Nat.add_zero]
    obtain ⟨middle, run, written⟩ := context.member few sorts writes inside h
    rw [← size] at written
    obtain ⟨after, others, puts⟩ := ih (first ++ [member]) (by rw [all, List.append_assoc, List.singleton_append]) written
    rw [taken, own] at run
    rw [size, heads] at others
    refine ⟨after, ?_, puts⟩
    rw [encodeParts_cons, Step.bind_of_ok run]
    exact others

/-- How structs and tuples are encoded. -/
theorem encodeAt_composite (composite : shape.IsComposite members) :
    encodeAt cap shape = encodeComposite (segmentsOf cap shape) members
      fun pointer target size => encodeParts cap pointer target 0 0 size members := by
  rcases composite with ⟨name, rfl⟩ | rfl <;> rfl

/-- Structs and tuples are written. -/
theorem encodeComposite_writes (composite : shape.IsComposite members) (few : members.length < 2 ^ 64)
    (sorts : ∀ member ∈ members, member.isValueType = true ∨ member.isReferenceType = true)
    (writes : ∀ member ∈ members, member.isReferenceType = true → Writes (encodeAt cap member) member) :
    Writes (encodeAt cap shape) shape := by
  intro machine pointer target value encoding stands encoded room
  obtain ⟨values, rfl, source⟩ := membersBelow_of_stands composite stands
  obtain ⟨others, encodings, same, sized, each, rfl⟩ := (Value.encodeAs_composite composite).mp encoded
  cases same
  obtain ⟨segmentation, found⟩ := Shape.segmentation_ok composite (Shape.headSizeSum_ok_iff.mp sized) cap
  have split : segmentsOf cap shape = .ok segmentation.segments := by rw [segmentsOf, found]
  have cover := segmentsOf_cover composite split
  have total := each.length_sequenceBytes
  have nothing : HeadsCopied machine machine members pointer.toNat target.toNat fun _ => False :=
    ⟨.refl _ _, fun _ none => none.elim, fun _ none => none.elim⟩
  obtain ⟨copied, copying, heads⟩ := nothing.copySegments cover.fits few source.near source.words (by omega)
  have values := heads.written each source fun position inside value =>
    .inr (cover.covers position inside (Nat.zero_le _) value)
  have context : MembersEncoded machine members pointer target _ encodings := ⟨source, each, room⟩
  obtain ⟨after, references, puts⟩ := context.references few sorts writes [] members rfl
    (values.weaken fun position _ counts => counts.resolve_left (Nat.not_lt_zero _))
  rw [List.length_nil, headBytesSum, Value.tailsBefore_zero, Nat.add_zero] at references
  refine ⟨after, ?_, puts⟩
  rw [encodeAt_composite composite, split, encodeComposite]
  rw [Step.bind_of_ok (show (Machine.check (.ok segmentation.segments)).run machine = .ok segmentation.segments machine
    from rfl), Step.bind_of_ok copying]
  exact references

end

end YulAbi.Codec
