import YulAbi.Proofs.Codec.Decoding.Decoded
import YulAbi.Proofs.Machine.Free

/-!
# What segments bridge is not observed

How many references a segment may bridge decides what is left in their words until pointers
take their place: offsets of call data, or what was there before. Nothing looks at these words
in between, so decoders with different caps return the same word and leave the same memory. The
exception are heads that run past the last address, as a copy does not wrap but the addresses
of single words do.
-/

namespace YulAbi.Codec

open Machine (HasAllocated Repeats)
open Shape (headBytesSum)
open Value (allocated encodeAs lengthSize storedCount)

/-- Whether the decoder of a shape at an address is led to that of a part at another one, given call data. -/
inductive LeadsTo (calldata : ByteArray) : Shape → Word → Shape → Word → Prop
  /-- To the shape itself. -/
  | here (shape : Shape) (source : Word) : LeadsTo calldata shape source shape source
  /-- To the elements of an array that are decoded one by one. -/
  | element {base part : Shape} {length : Option Nat} {source address : Word} {index : Nat}
    (strategy : base.elementStrategy = .separateTail) (inside : index < storedCount calldata length source.toNat)
    (onward : LeadsTo calldata base
      (sourceOf calldata (source + leadSize length) base (index * base.headBytes)) part address) :
    LeadsTo calldata (.array base length) source part address
  /-- To the members of a struct or tuple. -/
  | member {shape part : Shape} {members : List Shape} {source address : Word} {position : Nat}
    (composite : shape.IsComposite members) (inside : position < members.length)
    (onward : LeadsTo calldata members[position]
      (sourceOf calldata source members[position] (headBytesSum (members.take position))) part address) :
    LeadsTo calldata shape source part address

/-- Whether the heads of all structs and tuples that a decoder is led to have sizes, and none of them run past the last
address. -/
def HeadsFit (calldata : ByteArray) (shape : Shape) (source : Word) : Prop :=
  ∀ part members address, LeadsTo calldata shape source part address → part.IsComposite members →
    Shape.Sized members ∧ address.toNat + headBytesSum members < 2 ^ 256

/-- Whether a decoder does what another one does, on machines that differ in memory that has been allocated. -/
def Agrees (step other : Word → MachineStep Word) (shape : Shape) : Prop :=
  ∀ source before region, before.Roomy → before.calldata.size < 2 ^ 64 → before.HasAllocated region →
    HeadsFit before.calldata shape source → Repeats region region before (step source) (other source)

section

variable {region : Nat → Prop} {before start machine : Machine} {shape base part : Shape} {members : List Shape}
  {length : Option Nat} {step other : Word → MachineStep Word} {source target slot : Word} {head offset done : Nat}

/-- The heads of elements fit if those of their array do. -/
theorem HeadsFit.element {calldata : ByteArray} (h : HeadsFit calldata (.array base length) source)
    (strategy : base.elementStrategy = .separateTail) {index : Nat}
    (inside : index < storedCount calldata length source.toNat) : HeadsFit calldata base
      (sourceOf calldata (source + leadSize length) base (index * base.headBytes)) :=
  fun part members address onward => h part members address (.element strategy inside onward)

/-- The heads of members fit if those of their struct or tuple do. -/
theorem HeadsFit.member {calldata : ByteArray} (h : HeadsFit calldata shape source)
    (composite : shape.IsComposite members) {position : Nat} (inside : position < members.length) :
    HeadsFit calldata members[position]
      (sourceOf calldata source members[position] (headBytesSum (members.take position))) :=
  fun part others address onward => h part others address (.member composite inside onward)

/-- In an encoding a decoder is led to the encodings of parts only. -/
theorem LeadsTo.encoded {calldata : ByteArray} {address : Word} {value : Value} {encoding : List UInt8}
    (h : LeadsTo calldata shape source part address) (encoded : encodeAs shape value = .ok encoding)
    (holds : Memory.Holds calldata source.toNat encoding) (small : source.toNat + encoding.length < 2 ^ 256)
    (few : allocated shape value < 2 ^ 256) : ∃ own content, encodeAs part own = .ok content ∧
      Memory.Holds calldata address.toNat content ∧ address.toNat + content.length < 2 ^ 256 := by
  induction h generalizing value encoding with
  | here shape source => exact ⟨value, encoding, encoded, holds, small⟩
  | @element base part length source address index strategy inside onward ih =>
    obtain ⟨elements, encodings, rfl, array⟩ := encodedArray encoded holds small few
    have total := array.total
    have head := array.head
    rw [Value.allocated_array] at few
    rw [← array.counted] at inside
    have inside' : index < encodings.length := by
      rw [array.each.covered, List.length_replicate]
      exact inside
    obtain ⟨within, found⟩ := holds_elementSource array.each array.holds (by omega) inside inside'
    have fits := Value.allocated_le_each (List.replicate elements.length base) elements (by simpa using inside) inside
    have encodes := array.each.each index (by simpa using inside) inside inside'
    simp only [List.getElem_replicate] at fits encodes
    exact ih encodes found (by omega) (by omega)
  | member composite inside onward ih =>
    obtain ⟨values, encodings, rfl, -, each, rfl⟩ := (Value.encodeAs_composite composite).mp encoded
    rw [Value.allocated_composite composite] at few
    have inside' := each.counted.symm ▸ inside
    have inside'' := each.covered.symm ▸ inside
    obtain ⟨within, found⟩ := holds_sourceOf each holds small inside inside''
    have fits := Value.allocated_le_each _ _ inside inside'
    exact ih (each.each _ inside inside' inside'') found (by omega) (by omega)

/-- Wherever a value is encoded, the heads of structs and tuples fit. -/
theorem headsFit_of_encoded {calldata : ByteArray} {value : Value} {encoding : List UInt8}
    (encoded : encodeAs shape value = .ok encoding) (holds : Memory.Holds calldata source.toNat encoding)
    (small : source.toNat + encoding.length < 2 ^ 256) (few : allocated shape value < 2 ^ 256) :
    HeadsFit calldata shape source := by
  intro part members address leads composite
  obtain ⟨own, content, encoded', -, inside⟩ := leads.encoded encoded holds small few
  obtain ⟨values, encodings, rfl, sized, each, rfl⟩ := (Value.encodeAs_composite composite).mp encoded'
  rw [each.length_sequenceBytes] at inside
  exact ⟨Shape.headSizeSum_ok_iff.mp sized, by omega⟩

/-- The number of elements is looked up again. -/
theorem countAt_repeats (length : Option Nat) (source : Word) :
    Repeats region region before (countAt length source) (countAt length source) := by
  cases length with
  | none => exact .calldataload source
  | some count => exact .pure _

/-- The number of elements is stored again. -/
theorem storeCount_repeats (length : Option Nat) (target count : Word) :
    Repeats region region before (storeCount length target count) (storeCount length target count) := by
  cases length with
  | none => exact .mstore_again target count
  | some _ => exact .pure ()

/-- A copy to fresh memory is made again. -/
theorem decodeCopy_agrees {extent : Word → MachineStep Word}
    (again : ∀ region before source, Repeats region region before (extent source) (extent source)) :
    Agrees (decodeCopy extent) (decodeCopy extent) shape := by
  intro source before region _ _ allocated _
  exact .bind (.mload_free allocated) fun target _ _ => .bind (again _ _ source) fun size _ _ =>
    .bind (.calldatacopy target source size) fun _ _ _ => .bind (.mstore_again _ _) fun _ _ _ => .pure target

/-- Static elements are copied and linked again. -/
theorem decodeStaticTail_agrees (element : Word) :
    Agrees (decodeStaticTail length element) (decodeStaticTail length element) shape := by
  intro source before region _ _ allocated _
  exact .bind (.mload_free allocated) fun target _ _ => .bind (countAt_repeats length source) fun count _ _ =>
    .bind (storeCount_repeats length target count) fun _ _ _ => .bind (.calldatacopy _ _ _) fun _ _ _ =>
      .bind (.mstore_again _ _) fun _ _ _ =>
        .bind (.rounds_each fun _ _ _ _ => .mstore_again _ _) fun _ _ _ => .pure target

/-- Tails are checked again. -/
theorem checkTail_repeats (extent : Word → Word) (callHead index tailOffset : Word) :
    Repeats region region before (checkTail extent callHead index tailOffset)
      (checkTail extent callHead index tailOffset) :=
  .bind (.calldataload _) fun _ _ _ => .bind (.refuseIf _) fun _ _ _ => .bind (.calldataload _) fun _ _ _ =>
    .bind (.refuseIf _) fun _ _ _ => .pure _

/-- The number of elements is checked again. -/
theorem checkCount_repeats (length : Option Nat) (count : Word) :
    Repeats region region before (checkCount length count) (checkCount length count) := by
  cases length with
  | none => exact .refuseIf _
  | some _ => exact .pure ()

/-- Elements of one dynamic level are checked, copied and linked again. The words that are linked have been copied to
fresh memory, so the machines do not differ there. -/
theorem decodeDynamicTail_agrees (few : ∀ expected ∈ length, expected < 2 ^ 64) (extent : Word → Word) :
    Agrees (decodeDynamicTail length extent) (decodeDynamicTail length extent) shape := by
  have limit : memoryLimit < 2 ^ 64 := by decide
  intro source before region roomy short allocated _
  refine .bind (.mload_free allocated) fun target reached loaded => ?_
  obtain ⟨isFree, rfl⟩ := Machine.eq_of_mload_free loaded
  refine .bind (countAt_repeats length source) fun count counting counted => ?_
  refine .bind (checkCount_repeats length count) fun _ bounding bounded => ?_
  have small : count.toNat < 2 ^ 64 := by
    obtain ⟨number, found, same⟩ := run_countAt few source reached
    rw [found] at counted
    cases counted
    refine ((checkCount_eq_ok fun expected listed => ?_).mp bounded).1
    have fits := few expected listed
    cases listed
    rwa [same]
  have link : ∀ index < count.toNat, ∀ middle : Machine,
      Repeats region region middle (linkTail (target + leadSize length) (Word.ofNat index))
        (linkTail (target + leadSize length) (Word.ofNat index)) := by
    intro index inside middle
    have room := roomy.fits
    have lead := lengthSize_le length
    have first : (target + leadSize length).toNat = reached.free + lengthSize length := by
      rw [Word.toNat_add] <;> rw [toNat_leadSize, isFree]
      omega
    have place := toNat_wordSlot (target + leadSize length) index (by rw [first, wordBytes]; omega)
    refine .bind (.mload fun byte _ covered => ?_) fun _ _ _ => .mstore_again _ _
    have below := (allocated _ covered).2
    omega
  exact .bind (.rounds_each fun _ _ _ _ => checkTail_repeats _ _ _ _) fun tail _ _ =>
    .bind (.ofAnswer (fun calldata => Word.ofNat calldata.size) run_calldatasize) fun total _ _ =>
      .bind (.refuseIf _) fun _ _ _ => .bind (.calldatacopy _ _ _) fun _ _ _ =>
        .bind (.mstore_again _ _) fun _ _ _ =>
          .bind (.rounds_each fun index inside _ middle => link index inside middle) fun _ _ _ => .pure target

/-- The address of a part is looked up again. -/
theorem partAt_repeats (part : Shape) (source : Word) (offset : Nat) : Repeats region region machine
    (partAt part.isDynamicallyEncoded source (source + Word.ofNat offset))
    (partAt part.isDynamicallyEncoded source (source + Word.ofNat offset)) :=
  .ofAnswer (fun calldata => sourceOf calldata source part offset) fun machine => run_partAt machine part source offset

/-- One part is decoded again, and its word is stored. -/
theorem storePart_repeats (agrees : Agrees step other part) (roomy : machine.Roomy)
    (short : machine.calldata.size < 2 ^ 64) (allocated : machine.HasAllocated region)
    (fit : HeadsFit machine.calldata part (sourceOf machine.calldata source part offset)) : Repeats region
      (fun index => region index ∧ ¬ (slot.toNat ≤ index ∧ index < slot.toNat + wordBytes)) machine
      (storePart step part source offset slot) (storePart other part source offset slot) := by
  refine .bind (partAt_repeats part source offset) fun address reached found => ?_
  rw [run_partAt] at found
  cases found
  exact .bind (agrees _ _ _ roomy short allocated fit) fun word _ _ => .mstore slot word

/-- Elements are decoded one by one again. -/
theorem decodeSeparate_agrees (strategy : base.elementStrategy = .separateTail)
    (few : ∀ expected ∈ length, expected < 2 ^ 64) (settles : Settles step base) (agrees : Agrees step other base) :
    Agrees (decodeSeparate length base step) (decodeSeparate length base other) (.array base length) := by
  intro source before region roomy short allocated fit
  rw [decodeSeparate_eq, decodeSeparate_eq]
  refine .bind (.mload_free allocated) fun target reached loaded => .bind (countAt_repeats length source)
    fun count reached' counted => .bind (storeCount_repeats length target count) fun _ opened stored =>
      .bind (.mstore_again _ _) fun _ start moved => .bind ?_ fun _ _ _ => .pure target
  intro start' _ ended alike looped
  have opening := opened_of_ok few roomy loaded counted stored
  have widened := widened_of_ok opening (opening.slots looped) moved
  have above := roomy.above
  have same : start.calldata = before.calldata := widened.changes.calldata.trans opening.changes.calldata
  have decoded : ∀ index < count.toNat, ∀ machine, PartsDecoded start machine
      (before.free + lengthSize length + wordBytes * count.toNat) (before.free + lengthSize length)
      (List.replicate count.toNat base) (source + leadSize length) index → machine.Roomy ∧
        machine.calldata = before.calldata ∧ before.free ≤ machine.free := by
    intro index inside machine done
    have up := done.up
    exact ⟨done.roomy (by omega) (by simp), done.changes.calldata.trans same, by omega⟩
  refine Repeats.rounds (fun index _ machine => PartsDecoded start machine
      (before.free + lengthSize length + wordBytes * count.toNat) (before.free + lengthSize length)
      (List.replicate count.toNat base) (source + leadSize length) index) (widened.none base)
    (fun index inside _ machine _ next done run => ?_) (fun index inside _ machine done => ?_) start' () ended alike
    looped
  · rw [storeElement_eq_storePart] at run
    exact widened.round roomy short settles inside done run
  · obtain ⟨room, calldata, up⟩ := decoded index inside machine done
    rw [storeElement_eq_storePart, storeElement_eq_storePart]
    refine (storePart_repeats agrees room (calldata ▸ short) (allocated.mono up) ?_).weaken fun _ covered => covered.1
    rw [calldata]
    exact fit.element strategy (opening.counted ▸ inside)

/-- The bytes of words that references have from a position on, which segments may have bridged. -/
def Bridged (head : Nat) (members : List Shape) (done index : Nat) : Prop :=
  ∃ position, ∃ inside : position < members.length, done ≤ position ∧ members[position].isReferenceType = true ∧
    head + wordBytes * position ≤ index ∧ index < head + wordBytes * position + wordBytes

/-- Once the word of a value is passed, the same words are left. -/
theorem Bridged.next_of_value {index : Nat} (h : Bridged head members done index) {inside : done < members.length}
    (value : members[done].isReferenceType = false) : Bridged head members (done + 1) index := by
  obtain ⟨position, inside', behind, reference, place⟩ := h
  refine ⟨position, inside', Nat.lt_of_le_of_ne behind fun same => ?_, reference, place⟩
  subst same
  rw [value] at reference
  cases reference

/-- Once the word of a reference is stored, those behind it are left. -/
theorem Bridged.next_of_stored {index : Nat} (h : Bridged head members done index)
    (apart : ¬ (head + wordBytes * done ≤ index ∧ index < head + wordBytes * done + wordBytes)) :
    Bridged head members (done + 1) index := by
  obtain ⟨position, inside, behind, reference, place⟩ := h
  refine ⟨position, inside, Nat.lt_of_le_of_ne behind fun same => ?_, reference, place⟩
  subst same
  exact apart place

/-- Segments that split the same members differently leave machines that differ in words of references only. -/
theorem decodeSegments_alike {moved moved' start' : Machine} {segments segments' : List Segment}
    (cover : Segment.Cover members 0 segments) (cover' : Segment.Cover members 0 segments')
    (few : members.length < 2 ^ 64) (near : target.toNat ≤ memoryLimit)
    (sorts : ∀ member ∈ members, member.isValueType = true ∨ member.isReferenceType = true)
    (unwrapped : source.toNat + headBytesSum members < 2 ^ 256) (alike : moved.ChangesOnly region moved')
    (copying : (decodeSegments members target source segments).run moved = .ok () start)
    (copying' : (decodeSegments members target source segments').run moved' = .ok () start') :
    start.ChangesOnly (fun index => region index ∨ Bridged target.toNat members 0 index) start' := by
  have nothing : ∀ machine, WordsCopied machine machine members source target.toNat fun _ => False :=
    fun _ => ⟨.refl _ _, fun _ none => none.elim, fun _ _ none => none.elim⟩
  have copied := (nothing moved).copySegments cover.fits few near copying
  have copied' := (nothing moved').copySegments cover'.fits few near copying'
  refine ⟨copied'.changes.calldata.trans (alike.calldata.trans copied.changes.calldata.symm),
    copied'.changes.storage.trans (alike.storage.trans copied.changes.storage.symm), fun index apart => ?_⟩
  by_cases inside : target.toNat ≤ index ∧ index < target.toNat + wordBytes * members.length
  · obtain ⟨position, byte, within, small, rfl⟩ : ∃ position byte,
        position < members.length ∧ byte < wordBytes ∧ index = target.toNat + wordBytes * position + byte := by
      simp only [wordBytes] at inside ⊢
      exact ⟨(index - target.toNat) / 32, (index - target.toNat) % 32, by omega, by omega, by omega⟩
    have value : members[position].isValueType = true := (sorts _ (List.getElem_mem within)).resolve_right
      fun reference => apart (.inr ⟨position, within, Nat.zero_le _, reference, by omega, by omega⟩)
    have word := copied.words unwrapped position (.inr (cover.covers position within (Nat.zero_le _) value))
    have word' := copied'.words unwrapped position (.inr (cover'.covers position within (Nat.zero_le _) value))
    rw [alike.calldata, ← word] at word'
    exact Memory.byteAt_eq_of_wordAt_eq word' small
  · rw [copied'.changes.memory index inside, copied.changes.memory index inside]
    exact alike.memory index fun covered => apart (.inl covered)

section

variable {cap cap' : Nat}

/-- One more member is decoded again; the pointer to a reference takes the place of what a segment has left. -/
theorem ValuesDecoded.member_repeats (decoded : ValuesDecoded before start members source target)
    (roomy : before.Roomy) (few : members.length < 2 ^ 64) (short : before.calldata.size < 2 ^ 64)
    (allocated : before.HasAllocated region) (inside : done < members.length)
    (sorts : members[done].isValueType = true ∨ members[done].isReferenceType = true)
    (agrees : members[done].isReferenceType = true →
      Agrees (decodeAt cap members[done]) (decodeAt cap' members[done]) members[done])
    (fit : HeadsFit before.calldata members[done]
      (sourceOf before.calldata source members[done] (headBytesSum (members.take done))))
    (parts : PartsDecoded start machine (before.free + wordBytes * members.length) before.free members source done) :
    Repeats (fun index => region index ∨ Bridged before.free members done index)
      (fun index => region index ∨ Bridged before.free members (done + 1) index) machine
      (storeMember cap target source done (headBytesSum (members.take done)) members[done])
      (storeMember cap' target source done (headBytesSum (members.take done)) members[done]) := by
  have above := roomy.above
  have room := roomy.fits
  have place := decoded.placed
  have up := parts.up
  have same : machine.calldata = before.calldata := parts.changes.calldata.trans decoded.changes.calldata
  have slot := toNat_memberSlot target few (by omega) (Nat.le_of_lt inside)
  have reaches : machine.HasAllocated fun index => region index ∨ Bridged before.free members done index := by
    rintro index (covered | ⟨position, within, -, -, lower, upper⟩)
    · have := allocated index covered
      omega
    · have word := Nat.mul_le_mul_left wordBytes (Nat.succ_le_of_lt within)
      rw [Nat.mul_succ] at word
      omega
  rcases sorts with value | reference
  · have reference := Shape.isReferenceType_of_isValueType value
    rw [storeMember_value reference, storeMember_value reference]
    exact (Repeats.pure ()).weaken fun index left => left.imp id fun word => word.next_of_value reference
  · rw [← same] at short fit
    rw [storeMember_reference reference, storeMember_reference reference]
    refine (storePart_repeats (agrees reference) (parts.roomy above (Nat.le_refl _)) short reaches fit).weaken
      fun index left => ?_
    rw [slot, place] at left
    exact left.1.imp id fun word => word.next_of_stored left.2

/-- References are decoded again member by member. The induction is on the members that are left. -/
theorem ValuesDecoded.references_repeat (decoded : ValuesDecoded before start members source target)
    (roomy : before.Roomy) (few : members.length < 2 ^ 64) (short : before.calldata.size < 2 ^ 64)
    (composite : shape.IsComposite members)
    (sorts : ∀ member ∈ members, member.isValueType = true ∨ member.isReferenceType = true)
    (settles : ∀ member ∈ members, member.isReferenceType = true → Settles (decodeAt cap member) member)
    (agrees : ∀ member ∈ members, member.isReferenceType = true →
      Agrees (decodeAt cap member) (decodeAt cap' member) member)
    (allocated : before.HasAllocated region) (fit : HeadsFit before.calldata shape source)
    (first rest : List Shape) (all : members = first ++ rest)
    (parts : PartsDecoded start machine (before.free + wordBytes * members.length) before.free members source
      first.length) :
    Repeats (fun index => region index ∨ Bridged before.free members first.length index) region machine
      (decodeParts cap target source first.length (headBytesSum first) rest)
      (decodeParts cap' target source first.length (headBytesSum first) rest) := by
  induction rest generalizing first machine with
  | nil =>
    refine (Repeats.pure ()).weaken fun index left => left.resolve_right fun ⟨position, inside, behind, _⟩ => ?_
    rw [all, List.append_nil] at inside
    omega
  | cons member rest ih =>
    have inside : first.length < members.length := by
      rw [all, List.length_append, List.length_cons]
      omega
    have own : members[first.length] = member := by simp [all]
    have taken : members.take first.length = first := by rw [all, List.take_left']; rfl
    have listed : members[first.length] ∈ members := List.getElem_mem inside
    have size : (first ++ [member]).length = first.length + 1 := by simp
    have heads : headBytesSum (first ++ [member]) = headBytesSum first + member.headBytes := by
      rw [Shape.headBytesSum_append, headBytesSum, headBytesSum, Nat.add_zero]
    have step := decoded.member_repeats roomy few short allocated inside (sorts _ listed) (agrees _ listed)
      (fit.member composite inside) parts
    rw [taken, own] at step
    rw [decodeParts_cons, decodeParts_cons]
    refine .bind step fun _ middle stored => ?_
    have next := decoded.member roomy few short inside (sorts _ listed) (settles _ listed) parts
      (by rw [taken, own]; exact stored)
    rw [← size] at next ⊢
    rw [← heads]
    exact ih (first ++ [member]) (by rw [all, List.append_assoc, List.singleton_append]) next

/-- Structs and tuples are decoded alike whatever their segments bridge. -/
theorem decodeComposite_agrees (composite : shape.IsComposite members) (few : members.length < 2 ^ 64)
    (sorts : ∀ member ∈ members, member.isValueType = true ∨ member.isReferenceType = true)
    (settles : ∀ member ∈ members, member.isReferenceType = true → Settles (decodeAt cap member) member)
    (agrees : ∀ member ∈ members, member.isReferenceType = true →
      Agrees (decodeAt cap member) (decodeAt cap' member) member) :
    Agrees (decodeAt cap shape) (decodeAt cap' shape) shape := by
  intro source before region roomy short allocated fit before' word after alike h
  obtain ⟨sized, unwrapped⟩ := fit shape members source (.here shape source) composite
  have splits : ∀ cap, ∃ segments, segmentsOf cap shape = .ok segments := fun cap => by
    obtain ⟨segmentation, found⟩ := Shape.segmentation_ok composite sized cap
    exact ⟨segmentation.segments, by rw [segmentsOf, found]⟩
  obtain ⟨segments, split⟩ := splits cap
  obtain ⟨segments', split'⟩ := splits cap'
  have cover := segmentsOf_cover composite split
  have cover' := segmentsOf_cover composite split'
  rw [decodeAt_composite composite, split, decodeComposite_ok] at h
  rw [decodeAt_composite composite, split', decodeComposite_ok]
  obtain ⟨target, reached, loaded, moving⟩ := Step.bind_eq_ok.mp h
  obtain ⟨_, moved, stored, copying⟩ := Step.bind_eq_ok.mp moving
  obtain ⟨_, start, copied, decoding⟩ := Step.bind_eq_ok.mp copying
  obtain ⟨_, ended, references, last⟩ := Step.bind_eq_ok.mp decoding
  obtain ⟨rfl, rfl⟩ := Step.pure_eq_ok.mp last
  have decoded := valuesDecoded_of_ok roomy few cover loaded stored copied
  have slots := decoded.slots roomy few sorts references
  have place := decoded.placed
  obtain ⟨reached', loaded', alike'⟩ := Repeats.mload_free allocated before' target reached alike loaded
  obtain ⟨moved', stored', alike''⟩ := Repeats.mstore_again _ _ reached' () moved alike' stored
  have room : target.toNat + wordBytes * members.length ≤ memoryLimit := by rw [place]; exact slots
  obtain ⟨start', copied'⟩ := decodeSegments_ok cover'.fits few moved' source room
  have bridged := decodeSegments_alike cover cover' few (by omega) sorts unwrapped alike'' copied copied'
  rw [place] at bridged
  obtain ⟨after', references', done⟩ := decoded.references_repeat roomy few short composite sorts settles agrees
    allocated fit [] members rfl (decoded.none slots) start' () ended bridged references
  refine ⟨after', ?_, done⟩
  rw [Step.bind_of_ok loaded', Step.bind_of_ok stored', Step.bind_of_ok copied']
  exact Step.bind_of_ok references'

/-- Data are decoded alike whatever segments bridge, unless heads run past the last address. -/
theorem decodeAt_agrees (data : shape.isData = true) : Agrees (decodeAt cap shape) (decodeAt cap' shape) shape := by
  induction shape using Shape.induction with
  | word shape valueType =>
    intro source before region _ _ _ _
    rw [decodeAt_of_isValueType valueType, decodeAt_of_isValueType valueType]
    exact .calldataload source
  | bytes shape bytesLike =>
    rw [decodeAt_bytes bytesLike, decodeAt_bytes bytesLike]
    exact decodeCopy_agrees fun _ _ source => .bind (.calldataload source) fun _ _ _ => .pure _
  | array base length ih =>
    obtain ⟨elements, few⟩ := Shape.isData_array data
    rw [decodeAt_array, decodeAt_array]
    cases strategy : base.elementStrategy with
    | valueInline =>
      refine decodeCopy_agrees fun _ _ source => ?_
      cases length with
      | none => exact .bind (.calldataload source) fun _ _ _ => .pure _
      | some _ => exact .pure _
    | combinedStaticTail => exact decodeStaticTail_agrees _
    | combinedDynamicTail => exact decodeDynamicTail_agrees few _
    | separateTail =>
      have reference := (Shape.isValueType_or_isReferenceType elements).resolve_left
        (by simp [Shape.not_isValueType_of_separateTail strategy])
      exact decodeSeparate_agrees strategy few (decodeAt_settles elements reference) (ih elements)
  | composite shape members composite ih =>
    obtain ⟨parts, few⟩ := composite.isData data
    exact decodeComposite_agrees composite few
      (fun member listed => Shape.isValueType_or_isReferenceType (parts member listed))
      (fun member listed => decodeAt_settles (parts member listed))
      fun member listed _ => ih member listed (parts member listed)
  | signature shape isSignature =>
    cases shape with
    | error _ _ | event _ _ _ _ => cases data
    | _ => cases isSignature

end

end

end YulAbi.Codec
