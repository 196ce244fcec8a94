import YulAbi.Proofs.Value.Layout

/-!
# What encodings are made of

The cases of `encodeAs`, each as an equivalence: words and bytes are what they are, an
array is its length word and the sequence of its elements, and a struct or tuple is the
sequence of its members. Static encodings have the size of their shape, so the heads of a
sequence take what the shapes of its parts say. With this a sequence stands exactly where
its parts do, and every part lies within the sequence. In the list of its bytes the head of
each part is behind the heads of those before, and the tails are behind all heads, one after
the other in the order of the parts.
-/

namespace YulAbi

open Shape (headBytesSum staticBytesSum)

namespace Value

section

variable {shape base : Shape} {length : Option Nat} {members : List Shape} {value : Value}
  {values : List Value} {encoding : List UInt8} {encodings : List (List UInt8)}

/-- Words are encoded as they are. -/
theorem encodeAs_word (valueType : shape.isValueType = true) :
    encodeAs shape value = .ok encoding ↔ ∃ word, value = .word word ∧ encoding = Word.toBytes word := by
  have unfolded : encodeAs shape value = (do return Word.toBytes (← requireWord shape value)) := by
    cases shape with
    | bytes | string | array _ _ | struct _ _ | tuple _ | error _ _ | event _ _ _ _ => cases valueType
    | _ => cases value <;> rfl
  rw [unfolded]
  cases value with
  | word word =>
    constructor
    · intro h
      cases h
      exact ⟨word, rfl, rfl⟩
    · rintro ⟨other, same, rfl⟩
      cases same
      rfl
  | _ =>
    constructor
    · intro h
      cases h
    · rintro ⟨other, same, -⟩
      cases same

/-- Bytes and text are encoded with their length and padding. -/
theorem encodeAs_bytes (bytesLike : shape.isBytesLike = true) :
    encodeAs shape value = .ok encoding ↔ ∃ content, value = .bytes content ∧ encoding = encodeBytes content := by
  cases value with
  | bytes content =>
    have unfolded : encodeAs shape (.bytes content) = .ok (encodeBytes content) := by
      cases shape with
      | bytes => rfl
      | string => rfl
      | _ => cases bytesLike
    rw [unfolded]
    constructor
    · intro h
      cases h
      exact ⟨content, rfl, rfl⟩
    · rintro ⟨other, same, rfl⟩
      cases same
      rfl
  | _ =>
    constructor
    · intro h
      cases shape with
      | bytes => cases h
      | string => cases h
      | _ => cases bytesLike
    · rintro ⟨other, same, -⟩
      cases same

/-- Parts are encoded one by one, each with its mark. -/
theorem encodeEach_eq_ok {parts : List (Bool × List UInt8)} (counted : values.length = members.length) :
    encodeEach members values = .ok parts ↔
      ∃ encodings, EncodesEach members values encodings ∧ parts = markedParts members encodings := by
  induction members generalizing values parts with
  | nil =>
    have unfolded : encodeEach [] values = .ok [] := by cases values <;> rfl
    rw [unfolded]
    constructor
    · intro h
      cases h
      exact ⟨[], ⟨counted, rfl, fun position inside => absurd inside (by simp)⟩, rfl⟩
    · rintro ⟨encodings, -, rfl⟩
      rfl
  | cons member rest ih =>
    cases values with
    | nil => simp at counted
    | cons first others =>
      have next := fun parts => @ih others parts (by simpa using counted)
      rw [encodeEach]
      constructor
      · intro h
        obtain ⟨encoding, encoded, h⟩ := Attempt.bind_eq_ok.mp h
        obtain ⟨more, continued, h⟩ := Attempt.bind_eq_ok.mp h
        cases h
        obtain ⟨encodings, each, rfl⟩ := (next more).mp continued
        refine ⟨encoding :: encodings, ⟨counted, by simp [each.covered], ?_⟩, rfl⟩
        intro position inside inside' inside''
        cases position with
        | zero => exact encoded
        | succ position =>
          exact each.each position (by simpa using inside) (by simpa using inside') (by simpa using inside'')
      · rintro ⟨encodings, each, rfl⟩
        cases encodings with
        | nil => simpa using each.covered
        | cons encoding encodings =>
          have encoded := each.each 0 (by simp) (by simp) (by simp)
          have rest : EncodesEach rest others encodings := by
            refine ⟨by simpa using counted, by simpa using each.covered, fun position inside inside' inside'' => ?_⟩
            exact each.each (position + 1) (by simpa using inside) (by simpa using inside')
              (by simpa using inside'')
          refine Attempt.bind_eq_ok.mpr ⟨encoding, encoded, ?_⟩
          exact Attempt.bind_eq_ok.mpr ⟨_, (next _).mpr ⟨encodings, rest, rfl⟩, rfl⟩

/-- Elements are encoded like as many members. -/
theorem mapM_encodeAs (base : Shape) (elements : List Value) :
    (elements.mapM fun element => do return (base.isDynamicallyEncoded, ← encodeAs base element)) =
      encodeEach (List.replicate elements.length base) elements := by
  induction elements with
  | nil => rfl
  | cons element rest ih =>
    rw [List.mapM_cons, ih]
    simp only [bind_assoc, pure_bind, List.length_cons, List.replicate_succ, encodeEach]

/-- The heads of elements. -/
theorem headBytesSum_replicate (base : Shape) (count : Nat) :
    headBytesSum (List.replicate count base) = count * base.headBytes := by
  induction count with
  | zero => simp [headBytesSum]
  | succ count ih =>
    rw [List.replicate_succ, headBytesSum, ih, Nat.succ_mul]
    omega

/-- The heads of the first elements. -/
theorem headBytesSum_take_replicate {position count : Nat} (inside : position ≤ count) :
    headBytesSum ((List.replicate count base).take position) = position * base.headBytes := by
  rw [List.take_replicate, Nat.min_eq_left inside, headBytesSum_replicate]

/-- The heads of elements have a size if there are none or one head has. -/
theorem elementHeads_eq_ok {count size : Nat} : elementHeads base count = .ok size ↔
    (count = 0 ∨ ∃ head, base.headSize = .ok head) ∧ size = count * base.headBytes := by
  unfold elementHeads
  split
  · rename_i empty
    subst empty
    constructor
    · intro h
      cases h
      exact ⟨.inl rfl, (Nat.zero_mul _).symm⟩
    · rintro ⟨-, rfl⟩
      rw [Nat.zero_mul]
  · rename_i some
    cases measured : base.headSize with
    | error cause =>
      constructor
      · intro h
        cases h
      · rintro ⟨empty | ⟨head, same⟩, -⟩
        · exact absurd empty some
        · cases same
    | ok head =>
      rw [← Shape.headSize_eq measured]
      constructor
      · intro h
        cases h
        exact ⟨.inr ⟨head, rfl⟩, rfl⟩
      · rintro ⟨-, rfl⟩
        rfl

/-- An array is encoded as its length word and the sequence of its elements. -/
theorem encodeAs_array : encodeAs (.array base length) value = .ok encoding ↔ ∃ elements encodings,
    value = .array elements ∧ (∀ expected ∈ length, elements.length = expected) ∧
    (elements.length = 0 ∨ ∃ head, base.headSize = .ok head) ∧
    EncodesEach (List.replicate elements.length base) elements encodings ∧
    encoding = lengthWord length elements.length ++
      sequenceBytes (List.replicate elements.length base) encodings := by
  cases value with
  | array elements =>
    have required : requireElements (.array base length) length elements = .ok () ↔
        ∀ expected ∈ length, elements.length = expected := by
      cases length with
      | none => simp [requireElements]
      | some expected =>
        unfold requireElements
        dsimp only
        split
        · rename_i same
          simp [same]
        · rename_i different
          simp [mismatch, different]
    rw [encodeAs, mapM_encodeAs]
    constructor
    · intro h
      obtain ⟨_, counted, h⟩ := Attempt.bind_eq_ok.mp h
      obtain ⟨headSize, measured, h⟩ := Attempt.bind_eq_ok.mp h
      obtain ⟨parts, encoded, h⟩ := Attempt.bind_eq_ok.mp h
      cases h
      obtain ⟨encodings, each, rfl⟩ := (encodeEach_eq_ok (by simp)).mp encoded
      obtain ⟨sized, rfl⟩ := elementHeads_eq_ok.mp measured
      refine ⟨elements, encodings, rfl, required.mp counted, sized, each, ?_⟩
      rw [sequenceBytes, headBytesSum_replicate]
    · rintro ⟨others, encodings, same, counted, sized, each, rfl⟩
      cases same
      refine Attempt.bind_eq_ok.mpr ⟨(), required.mpr counted, ?_⟩
      refine Attempt.bind_eq_ok.mpr ⟨_, elementHeads_eq_ok.mpr ⟨sized, rfl⟩, ?_⟩
      refine Attempt.bind_eq_ok.mpr ⟨_, (encodeEach_eq_ok (by simp)).mpr ⟨encodings, each, rfl⟩, ?_⟩
      rw [sequenceBytes, headBytesSum_replicate]
      rfl
  | _ =>
    constructor
    · intro h
      cases h
    · rintro ⟨others, encodings, same, -⟩
      cases same

/-- A struct or tuple is encoded as the sequence of its members. -/
theorem encodeAs_composite (composite : shape.IsComposite members) :
    encodeAs shape value = .ok encoding ↔ ∃ values encodings, value = .tuple values ∧
      (∃ heads, Shape.headSizeSum members = .ok heads) ∧ EncodesEach members values encodings ∧
      encoding = sequenceBytes members encodings := by
  cases value with
  | tuple values =>
    have unfolded : encodeAs shape (.tuple values) = (do
        requireMembers shape members.length values
        let headSize ← requireSize (Shape.headSizeSum members)
        return assemble headSize (← encodeEach members values)) := by
      rcases composite with ⟨name, rfl⟩ | rfl <;> rfl
    rw [unfolded]
    constructor
    · intro h
      obtain ⟨_, required, h⟩ := Attempt.bind_eq_ok.mp h
      obtain ⟨headSize, measured, h⟩ := Attempt.bind_eq_ok.mp h
      obtain ⟨parts, encoded, h⟩ := Attempt.bind_eq_ok.mp h
      cases h
      have counted : values.length = members.length := by
        unfold requireMembers at required
        split at required
        · assumption
        · cases required
      obtain ⟨encodings, each, rfl⟩ := (encodeEach_eq_ok counted).mp encoded
      cases heads : Shape.headSizeSum members with
      | error cause =>
        rw [heads] at measured
        cases measured
      | ok size =>
        rw [heads] at measured
        cases measured
        refine ⟨values, encodings, rfl, ⟨_, rfl⟩, each, ?_⟩
        rw [sequenceBytes, ← Shape.headSizeSum_eq heads]
    · rintro ⟨others, encodings, same, ⟨heads, measured⟩, each, rfl⟩
      cases same
      refine Attempt.bind_eq_ok.mpr ⟨(), by rw [requireMembers, if_pos each.counted], ?_⟩
      refine Attempt.bind_eq_ok.mpr ⟨heads, by rw [measured]; rfl, ?_⟩
      refine Attempt.bind_eq_ok.mpr ⟨_, (encodeEach_eq_ok each.counted).mpr ⟨encodings, each, rfl⟩, ?_⟩
      rw [sequenceBytes, ← Shape.headSizeSum_eq measured]
      rfl
  | _ =>
    constructor
    · intro h
      rcases composite with ⟨name, rfl⟩ | rfl <;> cases h
    · rintro ⟨others, encodings, same, -⟩
      cases same

end

end Value

/-! ### Parts of sequences -/

namespace Value

section

variable {shape base : Shape} {length : Option Nat} {members : List Shape} {value : Value}
  {values : List Value} {encoding : List UInt8} {encodings : List (List UInt8)}

/-- Signatures have no encoding. -/
theorem not_encodeAs_signature (signature : shape.isSignature = true) : encodeAs shape value ≠ .ok encoding := by
  cases shape with
  | error name parameters => cases value <;> exact nofun
  | event name parameters indexed anonymous => cases value <;> exact nofun
  | _ => cases signature

/-- The parts of structs and tuples without dynamic encoding have none. -/
theorem static_of_anyDynamicallyEncoded (static : Shape.anyDynamicallyEncoded members = false) :
    ∀ member ∈ members, member.isDynamicallyEncoded = false := by
  rw [Shape.anyDynamicallyEncoded_eq_any, List.any_eq_false] at static
  exact fun member listed => Bool.eq_false_iff.mpr (static member listed)

/-- Static parts put nothing into the tails. -/
theorem tailsBefore_static (static : ∀ member ∈ members, member.isDynamicallyEncoded = false)
    (encodings : List (List UInt8)) (count : Nat) : tailsBefore members encodings count = 0 := by
  induction members generalizing encodings count with
  | nil => rfl
  | cons member rest ih =>
    cases encodings with
    | nil => rfl
    | cons encoding others =>
      cases count with
      | zero => rfl
      | succ count =>
        rw [tailsBefore, tailBytes, static member List.mem_cons_self,
          ih fun other listed => static other (List.mem_cons_of_mem _ listed)]
        rfl

/-- The size of a sequence whose static parts have their sizes. -/
theorem length_sequenceBytes_of_sized (covered : encodings.length = members.length)
    (sized : ∀ position (inside : position < members.length) (inside' : position < encodings.length),
      members[position].isDynamicallyEncoded = false →
      encodings[position].length = members[position].headBytes) :
    (sequenceBytes members encodings).length =
      headBytesSum members + tailsBefore members encodings members.length := by
  obtain ⟨heads, tails⟩ := length_headsAndTails covered sized (headBytesSum members)
  rw [sequenceBytes, assemble, List.length_append, heads, tails]

/-- Static encodings have the size of their shape. -/
theorem length_encodeAs_static (static : shape.isDynamicallyEncoded = false)
    (encoded : encodeAs shape value = .ok encoding) : encoding.length = shape.staticBytes := by
  have sizedBy : ∀ {members : List Shape} {values : List Value} {encodings : List (List UInt8)},
      EncodesEach members values encodings →
      (∀ member ∈ members, ∀ {value encoding}, member.isDynamicallyEncoded = false →
        encodeAs member value = .ok encoding → encoding.length = member.staticBytes) →
      (∀ member ∈ members, member.isDynamicallyEncoded = false) →
      (sequenceBytes members encodings).length = headBytesSum members := by
    intro members values encodings each known static
    rw [length_sequenceBytes_of_sized each.covered, tailsBefore_static static, Nat.add_zero]
    intro position inside inside' part
    rw [known _ (List.getElem_mem inside) part (each.each position inside (each.counted ▸ inside) inside'),
      Shape.headBytes, part]
    rfl
  induction shape using Shape.induction generalizing value encoding with
  | word shape valueType =>
    obtain ⟨word, -, rfl⟩ := (encodeAs_word valueType).mp encoded
    rw [Word.toBytes_length, Shape.staticBytes_word valueType]
    rfl
  | bytes shape bytesLike =>
    cases shape with
    | bytes => cases static
    | string => cases static
    | _ => cases bytesLike
  | array base length ih =>
    cases length with
    | none => cases static
    | some count =>
      have element : base.isDynamicallyEncoded = false := static
      obtain ⟨elements, encodings, -, counted, -, each, rfl⟩ := encodeAs_array.mp encoded
      have counted := counted count rfl
      have replicated : ∀ member ∈ List.replicate elements.length base, member = base :=
        fun member listed => (List.mem_replicate.mp listed).2
      rw [List.length_append, sizedBy each, headBytesSum_replicate, counted, Shape.headBytes, element,
        Shape.staticBytes]
      · exact Nat.zero_add _
      · exact fun member listed {value encoding} => by
          rw [replicated member listed]
          exact ih
      · exact fun member listed => (replicated member listed) ▸ element
  | composite shape members composite ih =>
    obtain ⟨values, encodings, -, -, each, rfl⟩ := (encodeAs_composite composite).mp encoded
    have none : Shape.anyDynamicallyEncoded members = false := by
      rcases composite with ⟨name, rfl⟩ | rfl <;> exact static
    have total : shape.staticBytes = staticBytesSum members := by
      rcases composite with ⟨name, rfl⟩ | rfl <;> rw [Shape.staticBytes]
    rw [sizedBy each (fun member listed {value encoding} => ih member listed)
      (static_of_anyDynamicallyEncoded none), Shape.headBytesSum_of_static none, total]
  | signature shape signature => exact absurd encoded (not_encodeAs_signature signature)

/-- The static parts among encoded ones have the sizes of their heads. -/
theorem EncodesEach.sized (each : EncodesEach members values encodings) :
    ∀ position (inside : position < members.length) (inside' : position < encodings.length),
      members[position].isDynamicallyEncoded = false →
      encodings[position].length = members[position].headBytes := by
  intro position inside inside' static
  rw [length_encodeAs_static static (each.each position inside (each.counted ▸ inside) inside'),
    Shape.headBytes, static]
  rfl

/-- The size of a sequence. -/
theorem EncodesEach.length_sequenceBytes (each : EncodesEach members values encodings) :
    (sequenceBytes members encodings).length =
      headBytesSum members + tailsBefore members encodings members.length :=
  length_sequenceBytes_of_sized each.covered each.sized

/-- A sequence stands exactly where its parts do. -/
theorem EncodesEach.holds_iff (each : EncodesEach members values encodings) {bytes : ByteArray} {start : Nat} :
    Memory.Holds bytes start (sequenceBytes members encodings) ↔
      ∀ position (inside : position < members.length) (inside' : position < encodings.length),
        PartStands bytes members[position].isDynamicallyEncoded (start + headBytesSum (members.take position))
          (headBytesSum members + tailsBefore members encodings position)
          (start + headBytesSum members + tailsBefore members encodings position) encodings[position] := by
  obtain ⟨heads, -⟩ := length_headsAndTails each.covered each.sized (headBytesSum members)
  rw [sequenceBytes, assemble, Memory.holds_append, heads]
  exact holds_headsAndTails each.covered each.sized _ _ _

/-- The heads of the first parts are among all heads. -/
theorem headBytesSum_take_le (members : List Shape) (count : Nat) :
    headBytesSum (members.take count) ≤ headBytesSum members := by
  have all := Shape.headBytesSum_append (members.take count) (members.drop count)
  rw [List.take_append_drop] at all
  omega

/-- The tails of the first parts are among those of more. -/
theorem tailsBefore_mono (members : List Shape) (encodings : List (List UInt8)) {count more : Nat}
    (fewer : count ≤ more) : tailsBefore members encodings count ≤ tailsBefore members encodings more := by
  induction members generalizing encodings count more with
  | nil => exact Nat.le_refl _
  | cons member rest ih =>
    cases encodings with
    | nil => exact Nat.le_refl _
    | cons encoding others =>
      cases count with
      | zero => exact Nat.zero_le _
      | succ count =>
        cases more with
        | zero => omega
        | succ more =>
          have := ih others (show count ≤ more by omega)
          simp only [tailsBefore]
          omega

/-- Every part lies within its sequence, its head among the heads and its tail among the tails. -/
theorem EncodesEach.within (each : EncodesEach members values encodings) {position : Nat}
    (inside : position < members.length) (inside' : position < encodings.length) :
    headBytesSum (members.take position) + members[position].headBytes ≤ headBytesSum members ∧
      headBytesSum members + tailsBefore members encodings position +
        tailBytes members[position] encodings[position] ≤ (sequenceBytes members encodings).length := by
  have heads := headBytesSum_take_le members (position + 1)
  rw [headBytesSum_take_succ inside] at heads
  have tails := tailsBefore_mono members encodings (show position + 1 ≤ members.length by omega)
  rw [tailsBefore_succ inside inside'] at tails
  rw [each.length_sequenceBytes]
  omega

/-- The size of the encoding of bytes. -/
theorem length_encodeBytes (content : List UInt8) :
    (encodeBytes content).length = 32 + (content.length + 31) / 32 * 32 := by
  simp only [encodeBytes, List.length_append, Word.toBytes_length, List.length_replicate, padding]
  omega

end

end Value

/-! ### Sequences as lists -/

/-- The bytes of a list from an offset on. -/
theorem Memory.bytesAt_toArray {content : List UInt8} {offset count : Nat} (fits : offset + count ≤ content.length) :
    bytesAt ⟨content.toArray⟩ offset count = (content.drop offset).take count := by
  refine List.ext_getElem (by simp [length_bytesAt]; omega) fun index inside inside' => ?_
  rw [length_bytesAt] at inside
  have within : offset + index < content.length := by omega
  simp [bytesAt, byteAt_eq_getD, within]

/-- A list of bytes stands in itself. -/
theorem Memory.holds_toArray (content : List UInt8) : Holds ⟨content.toArray⟩ 0 content := by
  rw [Holds, bytesAt_toArray (Nat.le_of_eq (Nat.zero_add _)), List.drop_zero, List.take_length]

/-- Bytes that stand within a list begin its rest from there on. -/
theorem Memory.Holds.isPrefix {content part : List UInt8} {offset : Nat} (h : Holds ⟨content.toArray⟩ offset part)
    (fits : offset + part.length ≤ content.length) : part <+: content.drop offset := by
  rw [Holds, bytesAt_toArray fits] at h
  rw [← h]
  exact List.take_prefix _ _

namespace Value

/-- The tails of encoded parts, each with a mark for dynamic encodings. -/
def tails (parts : List (Bool × List UInt8)) : List UInt8 :=
  parts.flatMap fun part => if part.1 then part.2 else []

section

variable {members : List Shape} {values : List Value} {encodings : List (List UInt8)} {position : Nat}

/-- Tails come one after the other. -/
theorem headsAndTails_tails (offset : Nat) (parts : List (Bool × List UInt8)) :
    (headsAndTails offset parts).2 = tails parts := by
  induction parts generalizing offset with
  | nil => rfl
  | cons part rest ih =>
    obtain ⟨dynamic, encoding⟩ := part
    cases dynamic with
    | true => exact congrArg (encoding ++ ·) (ih _)
    | false => exact ih _

/-- The size of the tails of the first parts. -/
theorem length_tails_take (members : List Shape) (encodings : List (List UInt8)) (count : Nat) :
    (tails ((markedParts members encodings).take count)).length = tailsBefore members encodings count := by
  induction members generalizing encodings count with
  | nil => simp [markedParts, tails, tailsBefore]
  | cons member rest ih =>
    cases encodings with
    | nil => simp [markedParts, tails, tailsBefore]
    | cons encoding others =>
      cases count with
      | zero => rfl
      | succ count =>
        have next := ih others count
        rw [markedParts, tails] at next
        rw [markedParts, List.zipWith_cons_cons, List.take_succ_cons, tails, List.flatMap_cons, List.length_append,
          next, tailsBefore, tailBytes]
        split <;> rfl

/-- Behind its heads a sequence has its tails. -/
theorem EncodesEach.drop_heads (each : EncodesEach members values encodings) :
    (sequenceBytes members encodings).drop (headBytesSum members) = tails (markedParts members encodings) := by
  obtain ⟨heads, -⟩ := length_headsAndTails each.covered each.sized (headBytesSum members)
  rw [sequenceBytes, assemble, ← headsAndTails_tails (headBytesSum members)]
  exact List.drop_left' heads

/-- A static part stands in its head. -/
theorem EncodesEach.static_part (each : EncodesEach members values encodings) (inside : position < members.length)
    (inside' : position < encodings.length) (static : members[position].isDynamicallyEncoded = false) :
    encodings[position] <+: (sequenceBytes members encodings).drop (headBytesSum (members.take position)) := by
  have stands := each.holds_iff.mp (Memory.holds_toArray _) position inside inside'
  rw [static, PartStands, if_neg Bool.false_ne_true, Nat.zero_add] at stands
  refine stands.isPrefix ?_
  have within := each.within inside inside'
  rw [each.sized position inside inside' static]
  omega

/-- A dynamic part stands in its tail, to which its head points. -/
theorem EncodesEach.dynamic_part (each : EncodesEach members values encodings) (inside : position < members.length)
    (inside' : position < encodings.length) (dynamic : members[position].isDynamicallyEncoded = true) :
    Word.toBytes (Word.ofNat (headBytesSum members + tailsBefore members encodings position)) <+:
      (sequenceBytes members encodings).drop (headBytesSum (members.take position)) ∧
    encodings[position] <+:
      (sequenceBytes members encodings).drop (headBytesSum members + tailsBefore members encodings position) := by
  have stands := each.holds_iff.mp (Memory.holds_toArray _) position inside inside'
  have within := each.within inside inside'
  rw [dynamic, PartStands, if_pos rfl, Nat.zero_add, Nat.zero_add] at stands
  rw [Shape.headBytes_dynamic dynamic, tailBytes, dynamic, if_pos rfl] at within
  refine ⟨stands.1.isPrefix ?_, stands.2.isPrefix within.2⟩
  rw [Word.toBytes_length]
  exact Nat.le_trans within.1 (by omega)

end

end Value

end YulAbi
