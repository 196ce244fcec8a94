import YulAbi.Proofs.Arena.Composites
import YulAbi.Proofs.Arena.Made
import YulAbi.Proofs.Value.Encodable
import YulAbi.Proofs.Value.Encoded

/-!
# Encodings follow the geometry

What the geometry of an array, struct or tuple says about its encodings: their size, where the
head of each element or member is, and where the heads end and the tails begin. An encoding is
made in one pass over its parts, without these offsets.
-/

namespace YulAbi

/-- The elements or members of a value. -/
def Value.parts : Value → List Value
  | .array elements => elements
  | .tuple members => members
  | _ => []

/-- The offset of an element in the call data of an array. -/
theorem Shape.memberOffset_element {base : Shape} {length : Option Nat} {index size : Nat}
    (within : ∀ count ∈ length, index < count) (measured : base.headSize = .ok size) (small : index * size < 2 ^ 64) :
    (Shape.array base length).memberOffset index .calldata = .ok (index * size) := by
  have inside : length.any (· ≤ index) = false := by
    cases length with
    | none => rfl
    | some count => exact decide_eq_false (Nat.not_le_of_lt (within count rfl))
  rw [memberOffset, elementOffset, inside, if_neg Bool.false_ne_true, measured]
  exact if_pos small

namespace Arena

/-- Whether a node is an array, a struct or a tuple. -/
def isComposite (arena : Arena) (id : NodeId) : Bool :=
  match arena.kind id with
  | .array .. | .struct .. | .tuple _ => true
  | _ => false

/-- The bytes in front of the heads: the length word of an array that varies in size. -/
def leadBytes (arena : Arena) (id : NodeId) : Nat :=
  match arena.kind id with
  | .array _ none => wordBytes
  | _ => 0

/-- The nodes of the parts of a value, one for each element or member. -/
def partNodes (arena : Arena) (id : NodeId) (value : Value) : List NodeId :=
  match arena.kind id with
  | .array base _ => List.replicate value.parts.length base
  | .struct _ members | .tuple members => members
  | _ => []

/-- Encoded parts with their marks. -/
def marked (arena : Arena) (parts : List NodeId) (encodings : List (List UInt8)) : List (Bool × List UInt8) :=
  (parts.map arena.isDynamicallyEncoded).zip encodings

/-- Whether an encoding is laid out as the geometry of its node says, when its parts have the given encodings. -/
structure LaysOut (arena : Arena) (id : NodeId) (value : Value) (heads : Nat) (encodings : List (List UInt8))
    (encoding : List UInt8) : Prop where
  /-- The encoding is whole words. -/
  whole : wordBytes ∣ encoding.length
  /-- A static encoding has the size of its node. -/
  sized : arena.isDynamicallyEncoded id = false → arena.encodedSize id = .ok encoding.length
  /-- There is a value for each part. -/
  counted : value.parts.length = (arena.partNodes id value).length
  /-- There is an encoding for each part. -/
  covered : encodings.length = (arena.partNodes id value).length
  /-- Each part has an encoding of its own. -/
  each : ∀ index (inside : index < (arena.partNodes id value).length) (inside' : index < value.parts.length)
    (inside'' : index < encodings.length),
    arena.encodeAs (arena.partNodes id value)[index] value.parts[index] = .ok encodings[index]
  /-- A static part stands at its offset. -/
  static : ∀ index (inside : index < (arena.partNodes id value).length) (inside' : index < encodings.length),
    arena.isDynamicallyEncoded (arena.partNodes id value)[index] = false →
    ∃ offset, arena.memberOffset id index .calldata = .ok offset ∧
      encodings[index] <+: encoding.drop (arena.leadBytes id + offset)
  /-- At the offset of a dynamic part there is a word that tells where it stands: behind the heads and the dynamic
  parts in front of it. -/
  dynamic : ∀ index (inside : index < (arena.partNodes id value).length) (inside' : index < encodings.length),
    arena.isDynamicallyEncoded (arena.partNodes id value)[index] = true →
    ∃ offset word, arena.memberOffset id index .calldata = .ok offset ∧
      Word.toBytes word <+: encoding.drop (arena.leadBytes id + offset) ∧
      encodings[index] <+: encoding.drop (arena.leadBytes id + word.toNat) ∧
      word.toNat = heads + (Value.tails ((arena.marked (arena.partNodes id value) encodings).take index)).length
  /-- The heads have their sizes. -/
  headed : total arena.headSize (arena.partNodes id value) = .ok heads
  /-- Behind the heads there are the dynamic parts in order, and nothing else. -/
  tailed : encoding.drop (arena.leadBytes id + heads) =
    Value.tails (arena.marked (arena.partNodes id value) encodings)

section

variable {arena : Arena} {id : NodeId} {value : Value} {encodings : List (List UInt8)} {encoding lead : List UInt8}

open Shape (headBytesSum Sized)
open Value (EncodesEach sequenceBytes allocated)

/-- Parts of nodes are marked like those of their shapes. -/
theorem Sound.marked_eq (sound : arena.Sound) {parts : List NodeId} (there : ∀ part ∈ parts, part < arena.size)
    (encodings : List (List UInt8)) :
    arena.marked parts encodings = Value.markedParts (parts.map arena.shape) encodings := by
  induction parts generalizing encodings with
  | nil => rfl
  | cons part rest ih =>
    obtain ⟨own, others⟩ := List.forall_mem_cons.mp there
    cases encodings with
    | nil => rfl
    | cons encoding more =>
      have next := ih others more
      rw [marked] at next
      rw [marked, List.map_cons, List.zip_cons_cons, next, sound.isDynamicallyEncoded_eq own]
      rfl

/-- The rest of a list behind its front. -/
theorem drop_lead (leading : lead.length = arena.leadBytes id) (rest : List UInt8) (offset : Nat) :
    (lead ++ rest).drop (arena.leadBytes id + offset) = rest.drop offset := by
  rw [← leading, ← List.drop_drop, List.drop_left]

/-- A sequence behind the length word of its node is laid out as the geometry says, if offsets and sizes are those of
the heads. -/
theorem Sound.laysOut (sound : arena.Sound) (inside : id < arena.size)
    (there : ∀ part ∈ arena.partNodes id value, part < arena.size)
    (each : EncodesEach ((arena.partNodes id value).map arena.shape) value.parts encodings)
    (offsets : ∀ index < (arena.partNodes id value).length, (arena.shape id).memberOffset index .calldata =
      .ok (headBytesSum (((arena.partNodes id value).map arena.shape).take index)))
    (heads : Sized ((arena.partNodes id value).map arena.shape)) (leading : lead.length = arena.leadBytes id)
    (encoded : Value.encodeAs (arena.shape id) value =
      .ok (lead ++ sequenceBytes ((arena.partNodes id value).map arena.shape) encodings))
    (sized : (arena.shape id).isDynamicallyEncoded = false → ∃ size, (arena.shape id).encodedSize = .ok size)
    (small : (sequenceBytes ((arena.partNodes id value).map arena.shape) encodings).length < 2 ^ 256) :
    arena.LaysOut id value (headBytesSum ((arena.partNodes id value).map arena.shape)) encodings
      (lead ++ sequenceBytes ((arena.partNodes id value).map arena.shape) encodings) := by
  have part : ∀ index (inside : index < (arena.partNodes id value).length),
      index < ((arena.partNodes id value).map arena.shape).length ∧
      (arena.partNodes id value)[index] < arena.size := fun index inside =>
    ⟨by rwa [List.length_map], there _ (List.getElem_mem inside)⟩
  constructor
  case whole => exact Value.dvd_length_encodeAs encoded
  case sized =>
    intro static
    rw [sound.isDynamicallyEncoded_eq inside] at static
    obtain ⟨size, measured⟩ := sized static
    rw [sound.encodedSize_eq inside, measured, Value.length_encodeAs_static static encoded,
      (Shape.encodedSize_eq measured).1]
  case counted => rw [each.counted, List.length_map]
  case covered => rw [each.covered, List.length_map]
  case each =>
    intro index within within' within''
    have own := each.each index (part index within).1 within' within''
    rw [List.getElem_map] at own
    rw [sound.encodeAs_eq (part index within).2, own]
  case static =>
    intro index within within' static
    rw [sound.isDynamicallyEncoded_eq (part index within).2] at static
    have stands := each.static_part (part index within).1 within' (by rw [List.getElem_map]; exact static)
    rw [sound.memberOffset_eq inside]
    exact ⟨_, offsets index within, by rw [drop_lead leading]; exact stands⟩
  case dynamic =>
    intro index within within' dynamic
    rw [sound.isDynamicallyEncoded_eq (part index within).2] at dynamic
    obtain ⟨points, stands⟩ := each.dynamic_part (part index within).1 within' (by rw [List.getElem_map]; exact dynamic)
    have bound := (each.within (part index within).1 within').2
    rw [sound.memberOffset_eq inside, sound.marked_eq there, Value.length_tails_take]
    refine ⟨_, _, offsets index within, ?_, ?_, Word.toNat_ofNat (by omega)⟩
    · rw [drop_lead leading]
      exact points
    · rw [drop_lead leading, Word.toNat_ofNat (by omega)]
      exact stands
  case headed =>
    obtain ⟨size, summed⟩ := Shape.headSizeSum_ok_iff.mpr heads
    rw [total_eq fun part listed => sound.headSize_eq (there part listed), ← Shape.headSizeSum_eq_total, summed,
      Shape.headSizeSum_eq summed]
  case tailed => rw [drop_lead leading, sound.marked_eq there, each.drop_heads]

/-- The encoding of an array is laid out as the geometry says. -/
theorem Sound.array_laysOut (sound : arena.Sound) (inside : id < arena.size) {base : NodeId} {length : Option Nat}
    (own : arena.kind id = .array base length) (first : base < id)
    (shaped : arena.shape id = .array (arena.shape base) length) (fit : (arena.shape id).admits value = true)
    (small : allocated (arena.shape id) value < 2 ^ 64) : ∃ encoding heads encodings,
      Value.encodeAs (arena.shape id) value = .ok encoding ∧ arena.LaysOut id value heads encodings encoding := by
  have legal := sound.legal id inside
  have sized := fun static => Value.exists_encodedSize legal static fit small
  obtain ⟨encoding, encoded⟩ := Value.exists_encodeAs legal fit small
  have bound := Nat.lt_of_le_of_lt (Value.length_encodeAs_le (by rw [shaped]; rfl) fit encoded) small
  have written := encoded
  rw [shaped] at fit small legal written
  obtain ⟨elements, rfl, counted, fits⟩ := Shape.admits_array.mp fit
  obtain ⟨_, encodings, same, -, -, each, rfl⟩ := Value.encodeAs_array.mp written
  cases same
  have nodes : arena.partNodes id (.array elements) = List.replicate elements.length base := by
    rw [partNodes, own]
    rfl
  have shapes : (arena.partNodes id (.array elements)).map arena.shape =
      List.replicate elements.length (arena.shape base) := by
    rw [nodes, List.map_replicate]
  have leading : (Value.lengthWord length elements.length).length = arena.leadBytes id := by
    rw [Value.length_lengthWord_eq, leadBytes, own]
    cases length <;> rfl
  rw [Value.allocated_array] at small
  have few : Value.allocatedEach (List.replicate elements.length (arena.shape base)) elements < 2 ^ 64 := by omega
  have heads := Value.sized_of_areLegal (Shape.areLegal_elements legal elements.length) fits few
  have extent := Value.headBytesSum_le fits fun _ _ {_} => Value.headBytes_le
  rw [List.length_append] at bound
  rw [← shapes] at each encoded heads bound
  refine ⟨_, _, encodings, encoded, sound.laysOut inside ?_ each ?_ heads leading encoded sized (by omega)⟩
  · rw [nodes]
    exact fun part listed => List.eq_of_mem_replicate listed ▸ Nat.lt_trans first inside
  · intro index within
    rw [nodes, List.length_replicate] at within
    obtain ⟨size, measured⟩ := heads (arena.shape base) (by rw [shapes]; exact List.mem_replicate.mpr ⟨by omega, rfl⟩)
    have same := Shape.headSize_eq measured
    rw [Value.headBytesSum_replicate, List.length_replicate, ← same] at extent
    have reach := Nat.mul_le_mul_right size (Nat.le_of_lt within)
    rw [shapes, Value.headBytesSum_take_replicate (Nat.le_of_lt within), shaped, ← same]
    exact Shape.memberOffset_element (fun count listed => counted count listed ▸ within) measured (by omega)

/-- The encoding of a struct or tuple is laid out as the geometry says. -/
theorem Sound.composite_laysOut (sound : arena.Sound) (inside : id < arena.size) {members : List NodeId}
    (own : ∃ name, arena.kind id = .struct name members ∨ arena.kind id = .tuple members)
    (first : ∀ member ∈ members, member < id) (composite : (arena.shape id).IsComposite (members.map arena.shape))
    (fit : (arena.shape id).admits value = true) (small : allocated (arena.shape id) value < 2 ^ 64) :
    ∃ encoding heads encodings,
      Value.encodeAs (arena.shape id) value = .ok encoding ∧ arena.LaysOut id value heads encodings encoding := by
  have legal := sound.legal id inside
  have sized := fun static => Value.exists_encodedSize legal static fit small
  obtain ⟨encoding, encoded⟩ := Value.exists_encodeAs legal fit small
  have reference : (arena.shape id).isReferenceType = true := by
    rcases composite with ⟨name, shaped⟩ | shaped <;> rw [shaped] <;> rfl
  have bound := Nat.lt_of_le_of_lt (Value.length_encodeAs_le reference fit encoded) small
  obtain ⟨values, rfl, fits⟩ := (Shape.admits_composite composite).mp fit
  obtain ⟨_, encodings, same, -, each, rfl⟩ := (Value.encodeAs_composite composite).mp encoded
  cases same
  have nodes : arena.partNodes id (.tuple values) = members := by
    obtain ⟨name, own | own⟩ := own <;> rw [partNodes, own]
  have leading : ([] : List UInt8).length = arena.leadBytes id := by
    obtain ⟨name, own | own⟩ := own <;> rw [leadBytes, own] <;> rfl
  rw [Value.allocated_composite composite] at small
  have heads := Value.sized_of_areLegal (composite.areLegal legal) fits (by omega)
  rw [← nodes] at each encoded heads bound composite first
  refine ⟨_, _, encodings, encoded, sound.laysOut inside ?_ each ?_ heads leading encoded sized (by omega)⟩
  · exact fun part listed => Nat.lt_trans (first part listed) inside
  · exact fun index within => (Shape.memberOffset_ok composite heads index (by rwa [List.length_map])).1

/-- The encoding of a value that fits an array, struct or tuple is laid out as the geometry says. Sizes and offsets are
numbers of 64 bits, and a value that takes less memory than these can count has all of them. -/
theorem encoding_follows_geometry (made : arena.Made) (inside : id < arena.size)
    (composite : arena.isComposite id = true) (fit : (arena.shape id).admits value = true)
    (small : allocated (arena.shape id) value < 2 ^ 64) : ∃ encoding heads encodings,
      arena.encodeAs id value = .ok encoding ∧ arena.LaysOut id value heads encodings encoding := by
  have sound := made.sound
  rw [sound.encodeAs_eq inside]
  obtain ⟨kind, shape, own, shaped, stands⟩ := sound.stands inside
  rw [isComposite, own] at composite
  cases stands with
  | array length first => exact sound.array_laysOut inside own first shaped fit small
  | struct name first => exact sound.composite_laysOut inside ⟨name, .inl own⟩ first (.inl ⟨name, shaped⟩) fit small
  | tuple first => exact sound.composite_laysOut inside ⟨"", .inr own⟩ first (.inr shaped) fit small
  | _ => cases composite

/-- An arena with an array of structs that have a flag and a text. -/
def notesArena : Arena :=
  ((Addition.described (.array (.struct "Note" [⟨"frozen", .bool⟩, ⟨"text", .string⟩]) none)).run.runOn .empty).2

/-- A note with three bytes, and one without. -/
def notes : Value := .array [.tuple [.word 1#256, .bytes [1, 2, 3]], .tuple [.word 0#256, .bytes []]]

/-- The heads of two notes are the offsets of their encodings. -/
theorem notes_follow_geometry : ∃ encoding encodings, notesArena.encodeAs 3 notes = .ok encoding ∧
    encoding.length = 320 ∧ notesArena.LaysOut 3 notes 64 encodings encoding := by
  have made : notesArena.Made := .extended _ .empty fun _ named => nomatch named
  have inside : 3 < notesArena.size := by decide +kernel
  have composite : notesArena.isComposite 3 = true := by decide +kernel
  have fit : (notesArena.shape 3).admits notes = true := by decide +kernel
  have small : allocated (notesArena.shape 3) notes < 2 ^ 64 := by decide +kernel
  obtain ⟨encoding, heads, encodings, encoded, laid⟩ := encoding_follows_geometry made inside composite fit small
  have headed : total notesArena.headSize (notesArena.partNodes 3 notes) = .ok 64 := by decide +kernel
  have size : (Value.encodeAs (notesArena.shape 3) notes).toOption.map List.length = some 320 := by decide +kernel
  rw [← made.sound.encodeAs_eq inside, encoded] at size
  cases laid.headed.symm.trans headed
  exact ⟨encoding, encodings, encoded, Option.some.inj size, laid⟩

end

end Arena

end YulAbi
