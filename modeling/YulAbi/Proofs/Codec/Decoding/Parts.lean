import YulAbi.Proofs.Codec.Decoding.Array
import YulAbi.Proofs.Shape.Coverage

/-!
# Decoding part by part

Elements and members that are decoded one by one: each takes memory behind what is there,
and its word is stored among the words of all. What one such step keeps is stated for any
sequence of parts, so that the loop over elements and the recursion over members only have
to repeat it.

The heads of members are copied segment by segment. A segment puts the words of its members
where they belong, so once all segments have been copied every value is in its word,
whichever order they are copied in. The words of references that a segment bridges hold
offsets of call data until they are overwritten.
-/

namespace YulAbi.Codec

open Machine (Fresh Roomy)
open Shape (headBytesSum)
open Value (EncodesEach Matches PartsStand Placed allocated allocatedEach encodeAs sequenceBytes)

/-- Decodes one part and stores its word. -/
def storePart (decodePart : Word → MachineStep Word) (part : Shape) (source : Word) (offset : Nat) (slot : Word) :
    MachineStep Unit := do
  let address ← partAt part.isDynamicallyEncoded source (source + Word.ofNat offset)
  let word ← decodePart address
  Machine.mstore slot word

/-- Whether the first parts of a sequence have been decoded since its memory was allocated: they stand from `low` on,
and their words among those of all parts from `head` on. -/
structure PartsDecoded (start machine : Machine) (low head : Nat) (members : List Shape) (source : Word)
    (done : Nat) : Prop where
  /-- Only fresh bytes and the words of parts change. -/
  changes : start.ChangesOnly
    (fun index => Fresh low index ∨ (head ≤ index ∧ index < head + wordBytes * members.length)) machine
  /-- The free memory pointer moves up. -/
  up : low ≤ machine.free
  /-- It stays within the limit. -/
  fits : machine.free ≤ memoryLimit
  /-- The words of later parts are still those at the start. -/
  later : ∀ position, done ≤ position → position < members.length →
    machine.wordAt (head + wordBytes * position) = start.wordAt (head + wordBytes * position)
  /-- If their lengths fit, the first parts are the only values that may be encoded there. -/
  parts : (∀ position (inside : position < members.length), position < done →
      LengthsFit start.calldata members[position]
        (sourceOf start.calldata source members[position] (headBytesSum (members.take position)))) →
    ∃ values, values.length = done ∧ PartsStand machine low head members values ∧
      ∀ position (inside : position < members.length) (inside' : position < values.length),
        source.toNat + headBytesSum members < 2 ^ 256 → Matches start.calldata members[position]
          (sourceOf start.calldata source members[position] (headBytesSum (members.take position))).toNat
          values[position]

/-- Whether values are encoded part by part in call data. -/
structure PartsEncoded (calldata : ByteArray) (members : List Shape) (source : Word) (values : List Value)
    (encodings : List (List UInt8)) : Prop where
  /-- Each of them is encoded. -/
  each : EncodesEach members values encodings
  /-- The encodings are there. -/
  holds : Memory.Holds calldata source.toNat (sequenceBytes members encodings)
  /-- They do not reach beyond the call data. -/
  inside : source.toNat + (sequenceBytes members encodings).length ≤ calldata.size
  /-- All their lengths fit. -/
  lengths : ∀ position (inside : position < members.length), LengthsFit calldata members[position]
    (sourceOf calldata source members[position] (headBytesSum (members.take position)))

section

variable {before after start machine : Machine} {part : Shape} {decodePart : Word → MachineStep Word}
  {members : List Shape} {values : List Value} {encodings : List (List UInt8)} {source slot : Word}
  {low head offset done : Nat}

/-- What decoding one part does. -/
theorem storePart_settles (settles : Settles decodePart part) (roomy : before.Roomy)
    (short : before.calldata.size < 2 ^ 64)
    (h : (storePart decodePart part source offset slot).run before = .ok () after) :
    ∃ word middle, before.Advances middle ∧ slot.toNat + 32 ≤ memoryLimit ∧
      middle.Puts after slot.toNat (Word.toBytes word) ∧
      (LengthsFit before.calldata part (sourceOf before.calldata source part offset) →
        ∃ value, Placed before middle part word value ∧
          Matches before.calldata part (sourceOf before.calldata source part offset).toNat value) := by
  rw [storePart, Step.bind_of_ok (run_partAt before part source offset)] at h
  obtain ⟨word, middle, decoded, stored⟩ := Step.bind_eq_ok.mp h
  obtain ⟨advances, placed⟩ := settles _ before word middle roomy short decoded
  obtain ⟨fits, puts⟩ := Machine.puts_of_mstore stored
  exact ⟨word, middle, advances, fits, puts, placed⟩

/-- Before any part has been decoded. -/
theorem PartsDecoded.none (pointer : start.free = low) (fits : low ≤ memoryLimit) (head : Nat)
    (members : List Shape) (source : Word) : PartsDecoded start start low head members source 0 := by
  refine ⟨.refl _ _, Nat.le_of_eq pointer.symm, by rw [pointer]; exact fits, fun _ _ _ => rfl, fun _ => ?_⟩
  exact ⟨[], rfl, .nil pointer head members, fun position _ inside => absurd inside (Nat.not_lt_zero _)⟩

/-- The next part is a word that is there already. -/
theorem PartsDecoded.keep (h : PartsDecoded start machine low head members source done) (inside : done < members.length)
    (value : members[done].isValueType = true)
    (word : source.toNat + headBytesSum members < 2 ^ 256 → start.wordAt (head + wordBytes * done) =
      Memory.wordAt start.calldata (source.toNat + headBytesSum (members.take done))) :
    PartsDecoded start machine low head members source (done + 1) := by
  refine ⟨h.changes, h.up, h.fits, fun position behind => h.later position (by omega), fun lengths => ?_⟩
  obtain ⟨values, size, stand, only⟩ := h.parts fun position inside earlier => lengths position inside (by omega)
  subst size
  refine ⟨values ++ [.word (machine.wordAt (head + wordBytes * values.length))], by simp,
    stand.snoc inside (Value.allocated_word value _) (.ofWord value _ _ _), fun position inside' inside'' near => ?_⟩
  by_cases last : position = values.length
  · subst last
    have static := Shape.isDynamicallyEncoded_of_isValueType value
    have heads := Value.headBytesSum_take_le members (values.length + 1)
    rw [Value.headBytesSum_take_succ inside] at heads
    simp only [List.getElem_append_right (Nat.le_refl _), Nat.sub_self, List.getElem_cons_zero]
    rw [toNat_sourceOf_static static (by omega), h.later _ (Nat.le_refl _) inside, word near]
    exact Matches.ofWord value _ _
  · rw [List.length_append, List.length_singleton] at inside''
    rw [List.getElem_append_left (by omega)]
    exact only position inside' (by omega) near

/-- There is room for the next part. -/
theorem PartsDecoded.roomy (h : PartsDecoded start machine low head members source done)
    (above : Machine.freePointerSlot + wordBytes ≤ head) (below : head + wordBytes * members.length ≤ low) :
    machine.Roomy := by
  have up := h.up
  exact ⟨by omega, h.fits⟩

/-- The next part is decoded and its word is stored. -/
theorem PartsDecoded.store (slot : Word) (h : PartsDecoded start machine low head members source done)
    (inside : done < members.length)
    (above : Machine.freePointerSlot + wordBytes ≤ head) (below : head + wordBytes * members.length ≤ low)
    (short : start.calldata.size < 2 ^ 64) (settles : Settles decodePart members[done])
    (place : slot.toNat = head + wordBytes * done)
    (run : (storePart decodePart members[done] source (headBytesSum (members.take done)) slot).run machine =
      .ok () after) :
    PartsDecoded start after low head members source (done + 1) := by
  have same := h.changes.calldata
  obtain ⟨word, middle, advances, -, puts, placed⟩ :=
    storePart_settles settles (h.roomy above below) (by rw [same]; exact short) run
  rw [place] at puts
  rw [same] at placed
  have up := h.up
  have later := advances.up
  have last := Nat.mul_le_mul_left wordBytes (show done + 1 ≤ members.length from inside)
  rw [Nat.mul_succ] at last
  have pointer : after.free = middle.free := puts.free (by omega)
  have size : (Word.toBytes word).length = wordBytes := Word.toBytes_length word
  refine ⟨?_, by omega, by rw [pointer]; exact advances.fits, fun position behind inside' => ?_, fun lengths => ?_⟩
  · refine (h.changes.trans (advances.changes.mono fun index fresh => .inl (fresh.mono up))).trans
      (puts.changes fun index lower upper => .inr ?_)
    omega
  · rw [← h.later position (by omega) inside']
    have words := Nat.mul_le_mul_left wordBytes (show position + 1 ≤ members.length from inside')
    have next := Nat.mul_le_mul_left wordBytes behind
    rw [Nat.mul_succ] at words next
    refine (puts.outside.wordAt fun index within covered => ?_).trans
      (advances.changes.wordAt fun index within covered => ?_)
    · omega
    · simp only [Fresh, wordBytes, Machine.freePointerSlot] at *
      omega
  · obtain ⟨values, count, stand, only⟩ := h.parts fun position inside earlier => lengths position inside (by omega)
    subst count
    obtain ⟨value, put, matched⟩ := placed (lengths _ inside (Nat.lt_succ_self _))
    refine ⟨values ++ [value], by simp, stand.store inside advances put puts above below,
      fun position inside' inside'' near => ?_⟩
    by_cases final : position = values.length
    · subst final
      simp only [List.getElem_append_right (Nat.le_refl _), Nat.sub_self, List.getElem_cons_zero]
      exact matched
    · rw [List.length_append, List.length_singleton] at inside''
      rw [List.getElem_append_left (by omega)]
      exact only position inside' (by omega) near

/-- The parts that have been decoded are the first of those that are encoded. -/
theorem PartsDecoded.moved (h : PartsDecoded start machine low head members source done)
    (parts : PartsEncoded start.calldata members source values encodings) (short : start.calldata.size < 2 ^ 64)
    (room : low + allocatedEach members values ≤ memoryLimit) :
    machine.free = low + allocatedEach members (values.take done) := by
  have limit : memoryLimit < 2 ^ 64 := by decide
  obtain ⟨firsts, count, stand, only⟩ := h.parts fun position inside _ => parts.lengths position inside
  have size := parts.inside
  have total := parts.each.length_sequenceBytes
  have same : firsts = values.take done := by
    refine List.ext_getElem ?_ fun position inside inside' => ?_
    · rw [List.length_take, parts.each.counted, count, Nat.min_eq_left (count ▸ stand.few)]
    · have few := stand.few
      have covered := parts.each.counted
      have covered' := parts.each.covered
      obtain ⟨within, found⟩ := holds_sourceOf parts.each parts.holds (by omega)
        (show position < members.length by omega) (by omega)
      have takes := Value.allocated_le_each members values (show position < members.length by omega) (by omega)
      rw [List.getElem_take]
      exact only position (by omega) inside (by omega) _ _
        (parts.each.each position (by omega) (by omega) (by omega)) found (by omega) (by omega)
  rw [← same]
  exact stand.moved

/-- The next part is decoded if there is memory for all parts. -/
theorem PartsDecoded.store_ok (slot : Word) (h : PartsDecoded start machine low head members source done)
    (inside : done < members.length) (above : Machine.freePointerSlot + wordBytes ≤ head)
    (below : head + wordBytes * members.length ≤ low) (short : start.calldata.size < 2 ^ 64)
    (succeeds : Succeeds decodePart members[done]) (place : slot.toNat = head + wordBytes * done)
    (parts : PartsEncoded start.calldata members source values encodings)
    (room : low + allocatedEach members values ≤ memoryLimit) :
    ∃ after, (storePart decodePart members[done] source (headBytesSum (members.take done)) slot).run machine =
      .ok () after := by
  have limit : memoryLimit < 2 ^ 64 := by decide
  have same := h.changes.calldata
  have size := parts.inside
  have counted := parts.each.counted
  have covered := parts.each.covered
  have last := Nat.mul_le_mul_left wordBytes (show done + 1 ≤ members.length from inside)
  rw [Nat.mul_succ, wordBytes] at last
  rw [wordBytes] at below place
  obtain ⟨within, found⟩ := holds_sourceOf parts.each parts.holds (by omega) inside (by omega)
  have takes := Value.allocatedEach_take_next values inside (by omega)
  obtain ⟨word, middle, run⟩ := succeeds
    (sourceOf machine.calldata source members[done] (headBytesSum (members.take done))) machine values[done]
    encodings[done] (h.roomy above below) (by rw [same]; exact short)
    (parts.each.each done inside (by omega) (by omega)) (by rw [same]; exact found) (by rw [same]; omega)
    (by rw [h.moved parts short room]; omega)
  obtain ⟨after, stored⟩ := Machine.mstore_ok middle slot word (by omega)
  refine ⟨after, ?_⟩
  rw [storePart, Step.bind_of_ok (run_partAt machine _ source _), Step.bind_of_ok run]
  exact stored

end

/-! ### Segments -/

/-- Whether the words of some members have been copied from their heads. -/
structure WordsCopied (before after : Machine) (members : List Shape) (source : Word) (head : Nat)
    (copied : Nat → Prop) : Prop where
  /-- Only the words of members change. -/
  changes : before.ChangesOnly (fun index => head ≤ index ∧ index < head + wordBytes * members.length) after
  /-- The words that are copied lie within the limit. -/
  fits : ∀ position, copied position → head + wordBytes * (position + 1) ≤ memoryLimit
  /-- They are the heads in call data, unless these wrap. -/
  words : source.toNat + headBytesSum members < 2 ^ 256 → ∀ position, copied position →
    after.wordAt (head + wordBytes * position) =
      Memory.wordAt before.calldata (source.toNat + headBytesSum (members.take position))

section

variable {before middle after : Machine} {members : List Shape} {source target : Word} {segment : Segment}
  {segments : List Segment} {head position : Nat} {copied : Nat → Prop}

/-- The address of the word of a member. -/
theorem toNat_memberSlot (target : Word) (few : members.length < 2 ^ 64) (near : target.toNat ≤ memoryLimit)
    (inside : position ≤ members.length) :
    (target + Word.ofNat (position * wordBytes)).toNat = target.toNat + wordBytes * position := by
  have limit : memoryLimit < 2 ^ 255 := by decide
  have offset : (Word.ofNat (position * wordBytes)).toNat = wordBytes * position := by
    rw [Word.toNat_ofNat (by rw [wordBytes]; omega), Nat.mul_comm]
  rw [Word.toNat_add] <;> rw [offset]
  rw [wordBytes]
  omega

/-- The members of a segment take one word each. -/
theorem wordBytes_mul_stop (fits : segment.Fits members) :
    wordBytes * segment.start + wordBytes * (segment.stop - segment.start) = wordBytes * segment.stop := by
  rw [← Nat.mul_add, Nat.add_sub_cancel' (Nat.le_of_lt fits.starts)]

/-- The size of a segment in bytes. -/
theorem toNat_byteLength (fits : segment.Fits members) (few : members.length < 2 ^ 64) :
    (Word.ofNat segment.byteLength).toNat = wordBytes * (segment.stop - segment.start) := by
  have stops := fits.stops
  rw [Segment.byteLength, Segment.length, Nat.mul_comm, Word.toNat_ofNat]
  rw [wordBytes]
  omega

/-- A segment that is copied fits, and its heads are put where its words belong. -/
theorem decodeSegment_puts (fits : segment.Fits members) (few : members.length < 2 ^ 64)
    (near : target.toNat ≤ memoryLimit)
    (h : (decodeSegment members target source segment).run before = .ok () after) :
    target.toNat + wordBytes * segment.stop ≤ memoryLimit ∧
      before.Puts after (target.toNat + wordBytes * segment.start) (Memory.bytesAt before.calldata
        (source + Word.ofNat (headBytesSum (members.take segment.start))).toNat
        (wordBytes * (segment.stop - segment.start))) := by
  have starts := fits.starts
  have stops := fits.stops
  have slot := toNat_memberSlot target few near (show segment.start ≤ members.length by omega)
  have words := wordBytes_mul_stop fits
  unfold decodeSegment at h
  dsimp only at h
  split at h
  · rename_i single
    rw [Segment.length] at single
    rw [Step.bind_of_ok (Machine.run_calldataload _ before)] at h
    obtain ⟨room, puts⟩ := Machine.puts_of_mstore h
    rw [slot] at room puts
    have bytes := Memory.holds_toBytes.mpr (rfl : Memory.wordAt before.calldata
      (source + Word.ofNat (headBytesSum (members.take segment.start))).toNat = _)
    rw [Memory.Holds, Word.toBytes_length] at bytes
    rw [single, Nat.mul_one] at words
    rw [single, Nat.mul_one, show wordBytes = 32 from rfl, bytes]
    exact ⟨by simp only [wordBytes] at *; omega, puts⟩
  · obtain ⟨room, puts⟩ := Machine.puts_of_calldatacopy h
    rw [slot, toNat_byteLength fits few] at room puts
    refine ⟨?_, puts⟩
    rw [wordBytes] at *
    omega

/-- A segment is copied if there is memory for all members. -/
theorem decodeSegment_ok (fits : segment.Fits members) (few : members.length < 2 ^ 64) (machine : Machine)
    (source : Word) (room : target.toNat + wordBytes * members.length ≤ memoryLimit) :
    ∃ after, (decodeSegment members target source segment).run machine = .ok () after := by
  have starts := fits.starts
  have stops := fits.stops
  have slot := toNat_memberSlot target few (by omega) (show segment.start ≤ members.length by omega)
  have words := wordBytes_mul_stop fits
  have last := Nat.mul_le_mul_left wordBytes stops
  unfold decodeSegment
  dsimp only
  split
  · rw [Step.bind_of_ok (Machine.run_calldataload _ machine)]
    refine Machine.mstore_ok machine _ _ ?_
    rw [slot]
    rw [wordBytes] at *
    omega
  · refine Machine.calldatacopy_ok machine _ (.inr ?_)
    rw [slot, toNat_byteLength fits few]
    omega

/-- One more segment is copied. -/
theorem WordsCopied.copySegment (h : WordsCopied before middle members source target.toNat copied)
    (fits : segment.Fits members) (few : members.length < 2 ^ 64) (near : target.toNat ≤ memoryLimit)
    (run : (decodeSegment members target source segment).run middle = .ok () after) :
    WordsCopied before after members source target.toNat
      fun position => copied position ∨ (segment.start ≤ position ∧ position < segment.stop) := by
  have starts := fits.starts
  have stops := fits.stops
  have words := wordBytes_mul_stop fits
  have last := Nat.mul_le_mul_left wordBytes stops
  obtain ⟨room, puts⟩ := decodeSegment_puts fits few near run
  have size := Memory.length_bytesAt middle.calldata
    (source + Word.ofNat (headBytesSum (members.take segment.start))).toNat
    (wordBytes * (segment.stop - segment.start))
  refine ⟨h.changes.trans (puts.changes fun index lower upper => by omega), ?_, ?_⟩
  · rintro position (earlier | ⟨lower, upper⟩)
    · exact h.fits position earlier
    · have reach := Nat.mul_le_mul_left wordBytes (show position + 1 ≤ segment.stop from upper)
      omega
  · intro unwrapped position held
    by_cases inside : segment.start ≤ position ∧ position < segment.stop
    · have heads := Value.headBytesSum_take_le members segment.start
      have origin : (source + Word.ofNat (headBytesSum (members.take segment.start))).toNat =
          source.toNat + headBytesSum (members.take segment.start) := by
        rw [Word.toNat_add] <;> rw [Word.toNat_ofNat] <;> omega
      have bytes := Memory.holds_bytesAt_iff.mp puts.inside
      have within : position - segment.start + 1 ≤ segment.stop - segment.start := by omega
      have reach := Nat.mul_le_mul_left wordBytes within
      have own : wordBytes * segment.start + wordBytes * (position - segment.start) = wordBytes * position := by
        rw [← Nat.mul_add, Nat.add_sub_cancel' inside.1]
      rw [origin, h.changes.calldata] at bytes
      rw [fits.aligned position inside.1 (Nat.le_of_lt inside.2)]
      refine Memory.wordAt_congr fun index below => ?_
      have byte := bytes (wordBytes * (position - segment.start) + index) (by
        rw [Nat.mul_succ] at reach
        simp only [wordBytes] at reach ⊢
        omega)
      rw [← Nat.add_assoc, ← Nat.add_assoc, Nat.add_assoc target.toNat, own] at byte
      rwa [← Nat.add_assoc]
    · rw [← h.words unwrapped position (held.resolve_right inside)]
      refine puts.outside.wordAt fun index below covered => inside ?_
      rw [size] at covered
      rw [wordBytes] at *
      omega

/-- Segments are copied one after the other. -/
theorem WordsCopied.copySegments (h : WordsCopied before middle members source target.toNat copied)
    (fits : ∀ segment ∈ segments, segment.Fits members) (few : members.length < 2 ^ 64)
    (near : target.toNat ≤ memoryLimit)
    (run : (decodeSegments members target source segments).run middle = .ok () after) :
    WordsCopied before after members source target.toNat fun position => copied position ∨
      ∃ segment ∈ segments, segment.start ≤ position ∧ position < segment.stop := by
  induction segments generalizing middle copied with
  | nil =>
    cases run
    simpa using h
  | cons segment rest ih =>
    obtain ⟨_, next, first, others⟩ := Step.bind_eq_ok.mp run
    have one := h.copySegment (fits segment List.mem_cons_self) few near first
    have all := ih one (fun other listed => fits other (List.mem_cons_of_mem _ listed)) others
    simpa only [List.mem_cons, exists_eq_or_imp, or_assoc] using all

/-- Segments are copied if there is memory for all members. -/
theorem decodeSegments_ok (fits : ∀ segment ∈ segments, segment.Fits members) (few : members.length < 2 ^ 64)
    (machine : Machine) (source : Word) (room : target.toNat + wordBytes * members.length ≤ memoryLimit) :
    ∃ after, (decodeSegments members target source segments).run machine = .ok () after := by
  induction segments generalizing machine with
  | nil => exact ⟨machine, rfl⟩
  | cons segment rest ih =>
    obtain ⟨next, first⟩ := decodeSegment_ok (fits segment List.mem_cons_self) few machine source room
    obtain ⟨after, others⟩ := ih (fun other listed => fits other (List.mem_cons_of_mem _ listed)) next
    refine ⟨after, ?_⟩
    rw [decodeSegments, Step.bind_of_ok first]
    exact others

end

end YulAbi.Codec
