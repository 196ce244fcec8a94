import YulAbi.Proofs.Codec.Decoding.Parts

/-!
# Decoding structs and tuples

The words of all members are allocated first, the values among them are copied in segments,
and then each reference is decoded behind those before it and its pointer takes the place of
whatever a segment has left in its word.
-/

namespace YulAbi.Codec

open Machine (Fresh)
open Shape (headBytesSum)
open Value (EncodesEach Matches Placed allocated allocatedEach encodeAs sequenceBytes)

/-- What is done for one member behind the segments: a reference is decoded and stored, a value is there. -/
def storeMember (cap : Nat) (target source : Word) (index callOffset : Nat) (member : Shape) : MachineStep Unit :=
  if member.isReferenceType then
    storePart (decodeAt cap member) member source callOffset (target + Word.ofNat (index * wordBytes))
  else pure ()

/-- Whether the words of members have been allocated and the values among them copied. -/
structure ValuesDecoded (before start : Machine) (members : List Shape) (source target : Word) : Prop where
  /-- The words are placed at the free memory pointer. -/
  placed : target.toNat = before.free
  /-- The pointer is behind them. -/
  moved : start.free = before.free + wordBytes * members.length
  /-- Only the words and the pointer change. -/
  changes : before.ChangesOnly (Fresh before.free) start
  /-- The words of values lie within the limit. -/
  fits : ∀ position (inside : position < members.length), members[position].isValueType = true →
    before.free + wordBytes * (position + 1) ≤ memoryLimit
  /-- They are the heads in call data, unless these wrap. -/
  words : source.toNat + headBytesSum members < 2 ^ 256 → ∀ position (inside : position < members.length),
    members[position].isValueType = true → start.wordAt (before.free + wordBytes * position) =
      Memory.wordAt start.calldata (source.toNat + headBytesSum (members.take position))

section

variable {before start machine after : Machine} {cap : Nat} {shape : Shape} {members : List Shape}
  {values : List Value} {encodings : List (List UInt8)} {segments : List Segment} {source target : Word} {low : Nat}

/-- A reference is decoded and its word stored. -/
theorem storeMember_reference {member : Shape} (reference : member.isReferenceType = true) (index callOffset : Nat) :
    storeMember cap target source index callOffset member =
      storePart (decodeAt cap member) member source callOffset (target + Word.ofNat (index * wordBytes)) :=
  if_pos reference

/-- Nothing is left to do for a value. -/
theorem storeMember_value {member : Shape} (value : member.isReferenceType = false) (index callOffset : Nat) :
    storeMember cap target source index callOffset member = pure () := by
  rw [storeMember, value, if_neg Bool.false_ne_true]

/-- References are decoded member by member. -/
theorem decodeParts_cons (cap : Nat) (target source : Word) (index callOffset : Nat) (member : Shape)
    (rest : List Shape) : decodeParts cap target source index callOffset (member :: rest) = (do
      storeMember cap target source index callOffset member
      decodeParts cap target source (index + 1) (callOffset + member.headBytes) rest) := by
  rw [decodeParts, storeMember]
  split <;> simp [storePart]

/-- The values of members are decoded. -/
theorem valuesDecoded_of_ok (roomy : before.Roomy) (few : members.length < 2 ^ 64)
    (cover : Segment.Cover members 0 segments) {reached moved : Machine}
    (loaded : (Machine.mload freeSlot).run before = .ok target reached)
    (moving : (Machine.mstore freeSlot (target + Word.ofNat (members.length * wordBytes))).run reached = .ok () moved)
    (copying : (decodeSegments members target source segments).run moved = .ok () start) :
    ValuesDecoded before start members source target := by
  obtain ⟨isFree, rfl⟩ := Machine.eq_of_mload_free loaded
  obtain ⟨pointer, changed⟩ := Machine.free_of_mstore moving
  have above := roomy.above
  have room := roomy.fits
  have nothing : WordsCopied moved moved members source target.toNat fun _ => False :=
    ⟨.refl _ _, fun _ none => none.elim, fun _ _ none => none.elim⟩
  have copied := nothing.copySegments cover.fits few (by omega) copying
  have covered : ∀ position (inside : position < members.length), members[position].isValueType = true →
      False ∨ ∃ segment ∈ segments, segment.start ≤ position ∧ position < segment.stop :=
    fun position inside value => .inr (cover.covers position inside (Nat.zero_le _) value)
  rw [toNat_memberSlot target few (by omega) (Nat.le_refl _), isFree] at pointer
  rw [isFree] at copied
  refine ⟨isFree, ?_, ?_, fun position inside value => copied.fits position (covered position inside value),
    fun near position inside value => ?_⟩
  · rw [← pointer]
    exact copied.changes.free fun index _ below outside => by omega
  · exact (changed.mono fun index inside => .inl inside).trans (copied.changes.mono fun index inside => .inr inside.1)
  · rw [copied.changes.calldata]
    exact copied.words near position (covered position inside value)

/-- References that are decoded lie within the limit. -/
theorem decodeParts_slots {index callOffset : Nat}
    (h : (decodeParts cap target source index callOffset members).run before = .ok () after) :
    ∀ position (inside : position < members.length), members[position].isReferenceType = true →
      (target + Word.ofNat ((index + position) * wordBytes)).toNat + 32 ≤ memoryLimit := by
  induction members generalizing index callOffset before with
  | nil => exact fun position inside => absurd inside (Nat.not_lt_zero _)
  | cons member rest ih =>
    rw [decodeParts_cons] at h
    obtain ⟨_, middle, stored, others⟩ := Step.bind_eq_ok.mp h
    intro position inside reference
    cases position with
    | zero =>
      have reference : member.isReferenceType = true := reference
      rw [storeMember_reference reference] at stored
      obtain ⟨_, _, _, decoding⟩ := Step.bind_eq_ok.mp stored
      obtain ⟨_, _, _, storing⟩ := Step.bind_eq_ok.mp decoding
      exact (Machine.puts_of_mstore storing).1
    | succ position =>
      have later := ih others position (by simpa using inside) reference
      rwa [Nat.add_assoc, Nat.add_comm 1] at later

/-- The words of all members lie within the limit. -/
theorem ValuesDecoded.slots (decoded : ValuesDecoded before start members source target) (roomy : before.Roomy)
    (few : members.length < 2 ^ 64)
    (sorts : ∀ member ∈ members, member.isValueType = true ∨ member.isReferenceType = true)
    (h : (decodeParts cap target source 0 0 members).run start = .ok () after) :
    before.free + wordBytes * members.length ≤ memoryLimit := by
  have room := roomy.fits
  have place := decoded.placed
  rcases Nat.eq_zero_or_pos members.length with none | some
  · rw [none, Nat.mul_zero, Nat.add_zero]
    exact room
  · have inside : members.length - 1 < members.length := by omega
    have last : members.length - 1 + 1 = members.length := by omega
    rcases sorts _ (List.getElem_mem inside) with value | reference
    · rw [← last]
      exact decoded.fits _ inside value
    · have slot := decodeParts_slots h _ inside reference
      rw [Nat.zero_add, toNat_memberSlot target few (by omega) (Nat.le_of_lt inside), place] at slot
      rw [← last, Nat.mul_succ, wordBytes]
      rw [wordBytes] at slot
      omega

/-- Before the first reference has been decoded. -/
theorem ValuesDecoded.none (decoded : ValuesDecoded before start members source target)
    (slots : before.free + wordBytes * members.length ≤ memoryLimit) :
    PartsDecoded start start (before.free + wordBytes * members.length) before.free members source 0 :=
  .none decoded.moved slots _ _ _

/-- One more member is decoded. -/
theorem ValuesDecoded.member (decoded : ValuesDecoded before start members source target) (roomy : before.Roomy)
    (few : members.length < 2 ^ 64) (short : before.calldata.size < 2 ^ 64) {done : Nat}
    (inside : done < members.length)
    (sorts : members[done].isValueType = true ∨ members[done].isReferenceType = true)
    (settles : members[done].isReferenceType = true → Settles (decodeAt cap members[done]) members[done])
    (parts : PartsDecoded start machine (before.free + wordBytes * members.length) before.free members source done)
    (run : (storeMember cap target source done (headBytesSum (members.take done)) members[done]).run machine =
      .ok () after) :
    PartsDecoded start after (before.free + wordBytes * members.length) before.free members source (done + 1) := by
  have same := decoded.changes.calldata
  have place := decoded.placed
  have room := roomy.fits
  rcases sorts with value | reference
  · rw [storeMember_value (Shape.isReferenceType_of_isValueType value)] at run
    cases run
    exact parts.keep inside value fun near => decoded.words near done inside value
  · rw [storeMember_reference reference] at run
    have slot := toNat_memberSlot target few (by omega) (Nat.le_of_lt inside)
    rw [place] at slot
    exact parts.store _ inside roomy.above (Nat.le_refl _) (same ▸ short) (settles reference) slot run

/-- Members that are decoded one after the other. The induction is on the members that are left. -/
theorem ValuesDecoded.allMembers (decoded : ValuesDecoded before start members source target) (roomy : before.Roomy)
    (few : members.length < 2 ^ 64) (short : before.calldata.size < 2 ^ 64)
    (sorts : ∀ member ∈ members, member.isValueType = true ∨ member.isReferenceType = true)
    (settles : ∀ member ∈ members, member.isReferenceType = true → Settles (decodeAt cap member) member)
    (first rest : List Shape) (all : members = first ++ rest)
    (parts : PartsDecoded start machine (before.free + wordBytes * members.length) before.free members source
      first.length)
    (run : (decodeParts cap target source first.length (headBytesSum first) rest).run machine = .ok () after) :
    PartsDecoded start after (before.free + wordBytes * members.length) before.free members source
      members.length := by
  induction rest generalizing first machine with
  | nil =>
    cases run
    rw [List.append_nil] at all
    rwa [← all] at parts
  | cons member rest ih =>
    rw [decodeParts_cons] at run
    obtain ⟨_, middle, stored, others⟩ := Step.bind_eq_ok.mp run
    have inside : first.length < members.length := by
      rw [all, List.length_append, List.length_cons]
      omega
    have own : members[first.length] = member := by simp [all]
    have taken : members.take first.length = first := by rw [all, List.take_left']; rfl
    have listed : members[first.length] ∈ members := List.getElem_mem inside
    have next := decoded.member roomy few short inside (sorts _ listed) (settles _ listed) parts
      (by rw [taken, own]; exact stored)
    have size : (first ++ [member]).length = first.length + 1 := by simp
    have heads : headBytesSum (first ++ [member]) = headBytesSum first + member.headBytes := by
      rw [Shape.headBytesSum_append, headBytesSum, headBytesSum, Nat.add_zero]
    rw [← size] at next
    rw [← size, ← heads] at others
    exact ih (first ++ [member]) (by rw [all, List.append_assoc, List.singleton_append]) next others

/-- Members that have all been decoded are a struct or tuple. -/
theorem ValuesDecoded.settled {word : Word} (decoded : ValuesDecoded before start members source word)
    (composite : shape.IsComposite members)
    (parts : PartsDecoded start after (before.free + wordBytes * members.length) before.free members source
      members.length) :
    before.Advances after ∧ (LengthsFit before.calldata shape source →
      ∃ value, Placed before after shape word value ∧ Matches before.calldata shape source.toNat value) := by
  have same := decoded.changes.calldata
  have place := decoded.placed
  have up := parts.up
  have whole : before.ChangesOnly (Fresh before.free) after :=
    decoded.changes.trans (parts.changes.mono fun index covered =>
      covered.elim (fun fresh => fresh.mono (by omega)) fun word => .inr word.1)
  refine ⟨⟨whole, by omega, parts.fits⟩, fun lengths => ?_⟩
  rw [lengthsFit_composite composite, ← same] at lengths
  obtain ⟨values, size, stand, only⟩ := parts.parts fun position inside _ => lengths position inside
  refine ⟨.tuple values, ⟨?_, .ofComposite composite size ?_ ?_ parts.fits fun position inside inside' => ?_⟩, ?_⟩
  · rw [stand.moved, Value.allocated_composite composite, Nat.add_assoc]
  · exact Nat.le_of_eq place.symm
  · rw [place]
    exact up
  · rw [place]
    exact (stand.each position inside inside').mono (Nat.le_add_right _ _) (Nat.le_refl _)
  · rw [← same]
    exact matches_composite composite size fun near position inside inside' => only position inside inside' near

/-- The decoder of a struct or tuple. -/
theorem decodeAt_composite (composite : shape.IsComposite members) (source : Word) :
    decodeAt cap shape source = decodeComposite (segmentsOf cap shape) members
      (fun source target => decodeParts cap target source 0 0 members) source := by
  rcases composite with ⟨name, rfl⟩ | rfl <;> rw [decodeAt]

/-- The segments of a struct or tuple hold all values among its members. -/
theorem segmentsOf_cover (composite : shape.IsComposite members) (split : segmentsOf cap shape = .ok segments) :
    Segment.Cover members 0 segments := by
  unfold segmentsOf at split
  split at split
  · rename_i segmentation found
    cases split
    exact Shape.segmentation_cover composite found
  · cases split

/-- Structs and tuples are placed. -/
theorem decodeComposite_settles (composite : shape.IsComposite members) (few : members.length < 2 ^ 64)
    (sorts : ∀ member ∈ members, member.isValueType = true ∨ member.isReferenceType = true)
    (settles : ∀ member ∈ members, member.isReferenceType = true → Settles (decodeAt cap member) member) :
    Settles (decodeAt cap shape) shape := by
  intro source before word after roomy short h
  rw [decodeAt_composite composite] at h
  cases split : segmentsOf cap shape with
  | error fault =>
    rw [split] at h
    cases h
  | ok segments =>
    rw [split, decodeComposite_ok] at h
    obtain ⟨target, reached, loaded, moving⟩ := Step.bind_eq_ok.mp h
    obtain ⟨_, moved, stored, copying⟩ := Step.bind_eq_ok.mp moving
    obtain ⟨_, start, copied, decoding⟩ := Step.bind_eq_ok.mp copying
    obtain ⟨_, ended, references, last⟩ := Step.bind_eq_ok.mp decoding
    cases last
    have decoded := valuesDecoded_of_ok roomy few (segmentsOf_cover composite split) loaded stored copied
    have slots := decoded.slots roomy few sorts references
    exact decoded.settled composite
      (decoded.allMembers roomy few short sorts settles [] members rfl (decoded.none slots) references)

/-- Members are decoded if they are encoded and there is memory for all of them. The induction is on the members
that are left. -/
theorem ValuesDecoded.exists_references (decoded : ValuesDecoded before start members source target)
    (roomy : before.Roomy) (few : members.length < 2 ^ 64) (short : before.calldata.size < 2 ^ 64)
    (sorts : ∀ member ∈ members, member.isValueType = true ∨ member.isReferenceType = true)
    (settles : ∀ member ∈ members, member.isReferenceType = true → Settles (decodeAt cap member) member)
    (succeeds : ∀ member ∈ members, member.isReferenceType = true → Succeeds (decodeAt cap member) member)
    (encoded : PartsEncoded start.calldata members source values encodings)
    (room : before.free + wordBytes * members.length + allocatedEach members values ≤ memoryLimit)
    (first rest : List Shape) (all : members = first ++ rest)
    (parts : PartsDecoded start machine (before.free + wordBytes * members.length) before.free members source
      first.length) :
    ∃ after, (decodeParts cap target source first.length (headBytesSum first) rest).run machine = .ok () after := by
  have same := decoded.changes.calldata
  have place := decoded.placed
  have fits := roomy.fits
  induction rest generalizing first machine with
  | nil => exact ⟨machine, rfl⟩
  | cons member rest ih =>
    have inside : first.length < members.length := by
      rw [all, List.length_append, List.length_cons]
      omega
    have own : members[first.length] = member := by simp [all]
    have taken : members.take first.length = first := by rw [all, List.take_left']; rfl
    have listed : members[first.length] ∈ members := List.getElem_mem inside
    have stored : ∃ middle, (storeMember cap target source first.length
        (headBytesSum (members.take first.length)) members[first.length]).run machine = .ok () middle := by
      rcases sorts _ listed with value | reference
      · rw [storeMember_value (Shape.isReferenceType_of_isValueType value)]
        exact ⟨machine, rfl⟩
      · rw [storeMember_reference reference]
        have slot := toNat_memberSlot target few (by omega) (Nat.le_of_lt inside)
        rw [place] at slot
        exact parts.store_ok _ inside roomy.above (Nat.le_refl _) (same ▸ short) (succeeds _ listed reference) slot
          encoded room
    obtain ⟨middle, run⟩ := stored
    have next := decoded.member roomy few short inside (sorts _ listed) (settles _ listed) parts run
    have size : (first ++ [member]).length = first.length + 1 := by simp
    have heads : headBytesSum (first ++ [member]) = headBytesSum first + member.headBytes := by
      rw [Shape.headBytesSum_append, headBytesSum, headBytesSum, Nat.add_zero]
    rw [← size] at next
    obtain ⟨after, others⟩ := ih (first ++ [member]) (by rw [all, List.append_assoc, List.singleton_append]) next
    rw [taken, own] at run
    rw [size, heads] at others
    refine ⟨after, ?_⟩
    rw [decodeParts_cons, Step.bind_of_ok run]
    exact others

/-- Structs and tuples are decoded. -/
theorem decodeComposite_succeeds (composite : shape.IsComposite members) (few : members.length < 2 ^ 64)
    (sorts : ∀ member ∈ members, member.isValueType = true ∨ member.isReferenceType = true)
    (settles : ∀ member ∈ members, member.isReferenceType = true → Settles (decodeAt cap member) member)
    (succeeds : ∀ member ∈ members, member.isReferenceType = true → Succeeds (decodeAt cap member) member) :
    Succeeds (decodeAt cap shape) shape := by
  have limit : memoryLimit < 2 ^ 64 := by decide
  intro source before value encoding roomy short encoded holds inside room
  have lengths := lengthsFit_of_encoded encoded holds (by omega) (by omega)
  obtain ⟨values, encodings, rfl, sized, each, rfl⟩ := (Value.encodeAs_composite composite).mp encoded
  rw [Value.allocated_composite composite] at room
  obtain ⟨segmentation, found⟩ := Shape.segmentation_ok composite (Shape.headSizeSum_ok_iff.mp sized) cap
  have split : segmentsOf cap shape = .ok segmentation.segments := by rw [segmentsOf, found]
  have cover := segmentsOf_cover composite split
  have loaded := Machine.run_mload_free before
  obtain ⟨moved, stored⟩ := Machine.mstore_free_ok before
    (before.wordAt Machine.freePointerSlot + Word.ofNat (members.length * wordBytes))
  obtain ⟨start, copied⟩ := decodeSegments_ok cover.fits few moved source
    (show (before.wordAt Machine.freePointerSlot).toNat + wordBytes * members.length ≤ memoryLimit by
      rw [← Machine.free]; omega)
  have decoded := valuesDecoded_of_ok roomy few cover loaded stored copied
  have same := decoded.changes.calldata
  have parts : PartsEncoded start.calldata members source values encodings := by
    rw [same]
    exact ⟨each, holds, inside, (lengthsFit_composite composite).mp lengths⟩
  obtain ⟨after, references⟩ := decoded.exists_references roomy few short sorts settles succeeds parts (by omega)
    [] members rfl (decoded.none (by omega))
  refine ⟨before.wordAt Machine.freePointerSlot, after, ?_⟩
  rw [decodeAt_composite composite, split, decodeComposite_ok, Step.bind_of_ok loaded, Step.bind_of_ok stored,
    Step.bind_of_ok copied]
  exact Step.bind_of_ok references

end

end YulAbi.Codec
