import YulAbi.Proofs.Shape.Coverage
import YulAbi.Proofs.Value.Admitted

/-!
# Values that can be encoded

Every value that fits a legal shape has an encoding, as long as what it takes in memory is a
number of 64 bits: then all sizes that are asked for on the way exist. The encoding is whole
words, and no longer than the memory that the value takes.
-/

namespace YulAbi.Value

open Shape (headBytesSum admitEach areLegal Sized)

section

variable {shape base : Shape} {length : Option Nat} {members : List Shape} {value : Value} {values : List Value}
  {encoding : List UInt8} {encodings : List (List UInt8)}

/-- The elements of a legal array of fixed length: there is at least one. -/
theorem fixed_elements {count : Nat} (legal : (Shape.array base (some count)).isLegal = true)
    (admitted : (Shape.array base (some count)).admits value = true) : ∃ elements, value = .array elements ∧
      elements.length = count ∧ 0 < elements.length ∧
      admitEach (List.replicate elements.length base) elements = true := by
  obtain ⟨-, -, some⟩ := Shape.isLegal_array.mp legal
  obtain ⟨elements, rfl, counted, each⟩ := Shape.admits_array.mp admitted
  have counted := counted count rfl
  exact ⟨elements, rfl, counted, counted ▸ Nat.pos_of_ne_zero fun none => some (congrArg _ none), each⟩

/-- Each element fits and takes part of the memory of all. -/
theorem element_fits {elements : List Value} (each : admitEach (List.replicate elements.length base) elements = true)
    {position : Nat} (inside : position < elements.length) : base.admits elements[position] = true ∧
      allocated base elements[position] ≤ allocatedEach (List.replicate elements.length base) elements := by
  have inside' : position < (List.replicate elements.length base).length := by rwa [List.length_replicate]
  have own := (Shape.admitEach_iff.mp each).2 position inside' inside
  have part := allocated_le_each (List.replicate elements.length base) elements inside' inside
  rw [List.getElem_replicate] at own part
  exact ⟨own, part⟩

/-- Heads of parts that take less than 64 bits have sizes if that is so for each part. -/
theorem sized_of_admitEach (admitted : admitEach members values = true) (small : allocatedEach members values < 2 ^ 64)
    (each : ∀ member ∈ members, ∀ {value}, member.admits value = true → allocated member value < 2 ^ 64 →
      ∃ size, member.headSize = .ok size) : Sized members := by
  intro member listed
  obtain ⟨position, inside, same⟩ := List.getElem_of_mem listed
  obtain ⟨counted, fit⟩ := Shape.admitEach_iff.mp admitted
  have inside' : position < values.length := counted ▸ inside
  have part := allocated_le_each members values inside inside'
  exact each member listed (same ▸ fit position inside inside') (by rw [← same]; omega)

/-- The head of a part that is encoded statically has a size if its encoding has. -/
theorem headSize_of_static {size : Nat} (static : shape.isDynamicallyEncoded = false)
    (measured : shape.encodedSize = .ok size) : shape.headSize = .ok size := by
  rw [Shape.headSize, static, if_neg Bool.false_ne_true]
  exact measured

/-- The static encoding of a legal part has a size if a value that fits takes less than 64 bits. The length of a legal
array is not zero, so there is an element to tell the size of its base. -/
theorem exists_encodedSize (legal : shape.isLegal = true) (static : shape.isDynamicallyEncoded = false)
    (admitted : shape.admits value = true) (small : allocated shape value < 2 ^ 64) :
    ∃ size, shape.encodedSize = .ok size := by
  induction shape using Shape.induction generalizing value with
  | word shape valueType =>
    refine ⟨wordBytes, ?_⟩
    cases shape with
    | bytes | string | array _ _ | struct _ _ | tuple _ | error _ _ | event _ _ _ _ => cases valueType
    | _ => simp [Shape.encodedSize, Shape.isDynamicallyEncoded]
  | bytes shape bytesLike =>
    rw [isDynamicallyEncoded_of_isBytesLike bytesLike] at static
    cases static
  | array base length ih =>
    cases length with
    | none => cases static
    | some count =>
      have element : base.isDynamicallyEncoded = false := static
      obtain ⟨elements, rfl, counted, first, each⟩ := fixed_elements legal admitted
      obtain ⟨own, part⟩ := element_fits each first
      have bound := staticBytes_array_le element each counted headBytes_le
      rw [allocated_array] at small bound
      obtain ⟨size, measured⟩ := ih (Shape.isLegal_array.mp legal).2.1 element own (by omega)
      obtain ⟨rfl, -⟩ := Shape.encodedSize_eq measured
      refine ⟨count * base.staticBytes, ?_⟩
      rw [Shape.encodedSize, static, if_neg Bool.false_ne_true, measured]
      exact if_pos (show count * base.staticBytes < 2 ^ 64 by omega)
  | composite shape members composite ih =>
    obtain ⟨values, rfl, each⟩ := (Shape.admits_composite composite).mp admitted
    rw [allocated_composite composite] at small
    rw [composite.isDynamicallyEncoded_eq] at static
    have legal' := Shape.areLegal_iff.mp (composite.areLegal legal)
    have heads : Sized members := sized_of_admitEach each (by omega) fun member listed {value} own few => by
      have static' := static_of_anyDynamicallyEncoded static member listed
      obtain ⟨size, measured⟩ := ih member listed (legal' member listed).2 static' own few
      exact ⟨size, headSize_of_static static' measured⟩
    obtain ⟨size, measured⟩ := Shape.headSizeSum_ok_iff.mpr heads
    refine ⟨size, ?_⟩
    rw [← measured, ← Shape.encodedSizeSum_of_static static]
    rcases composite with ⟨name, rfl⟩ | rfl <;>
      exact (Shape.encodedSize.eq_def _).trans (if_neg (Bool.eq_false_iff.mp static))
  | signature shape signature =>
    rw [Shape.not_admits_signature signature] at admitted
    cases admitted

/-- The head of a legal part has a size if a value that fits takes less than 64 bits. -/
theorem exists_headSize (legal : shape.isLegal = true) (admitted : shape.admits value = true)
    (small : allocated shape value < 2 ^ 64) : ∃ size, shape.headSize = .ok size := by
  cases dynamic : shape.isDynamicallyEncoded with
  | true => exact ⟨wordBytes, by rw [Shape.headSize, dynamic, if_pos rfl]⟩
  | false =>
    obtain ⟨size, measured⟩ := exists_encodedSize legal dynamic admitted small
    exact ⟨size, headSize_of_static dynamic measured⟩

/-- Legal parts have heads with sizes if values that fit them take less than 64 bits. -/
theorem sized_of_areLegal (legal : areLegal members = true) (admitted : admitEach members values = true)
    (small : allocatedEach members values < 2 ^ 64) : Sized members :=
  sized_of_admitEach admitted small fun member listed {_} own few =>
    exists_headSize (Shape.areLegal_iff.mp legal member listed).2 own few

/-- Parts can be encoded one by one if each of them can. -/
theorem exists_encodings (admitted : admitEach members values = true) (small : allocatedEach members values < 2 ^ 64)
    (each : ∀ member ∈ members, ∀ {value}, member.admits value = true → allocated member value < 2 ^ 64 →
      ∃ encoding, encodeAs member value = .ok encoding) :
    ∃ encodings, EncodesEach members values encodings := by
  induction members generalizing values with
  | nil =>
    cases values with
    | nil => exact ⟨[], rfl, rfl, nofun⟩
    | cons _ _ => cases admitted
  | cons member rest ih =>
    cases values with
    | nil => cases admitted
    | cons value others =>
      rw [admitEach, Bool.and_eq_true] at admitted
      rw [allocatedEach] at small
      obtain ⟨encoding, own⟩ := each member List.mem_cons_self admitted.1 (by omega)
      obtain ⟨encodings, more⟩ :=
        ih admitted.2 (by omega) fun other listed => each other (List.mem_cons_of_mem _ listed)
      refine ⟨encoding :: encodings, by simp [more.counted], by simp [more.covered], fun position _ _ _ => ?_⟩
      cases position with
      | zero => exact own
      | succ position => exact more.each position _ _ _

/-- A value that fits a legal shape can be encoded if it takes less than 64 bits. -/
theorem exists_encodeAs (legal : shape.isLegal = true) (admitted : shape.admits value = true)
    (small : allocated shape value < 2 ^ 64) : ∃ encoding, encodeAs shape value = .ok encoding := by
  induction shape using Shape.induction generalizing value with
  | word shape valueType =>
    obtain ⟨word, rfl⟩ := (Shape.admits_word valueType).mp admitted
    exact ⟨_, (encodeAs_word valueType).mpr ⟨word, rfl, rfl⟩⟩
  | bytes shape bytesLike =>
    obtain ⟨content, rfl⟩ := (Shape.admits_bytes bytesLike).mp admitted
    exact ⟨_, (encodeAs_bytes bytesLike).mpr ⟨content, rfl, rfl⟩⟩
  | array base length ih =>
    obtain ⟨elements, rfl, counted, each⟩ := Shape.admits_array.mp admitted
    rw [allocated_array] at small
    have element := Shape.areLegal_elements legal elements.length
    have heads : elements.length = 0 ∨ ∃ head, base.headSize = .ok head := by
      refine (Nat.eq_zero_or_pos elements.length).imp id fun some => ?_
      exact sized_of_areLegal element each (by omega) base (List.mem_replicate.mpr ⟨Nat.ne_of_gt some, rfl⟩)
    obtain ⟨encodings, parts⟩ := exists_encodings each (by omega) fun member listed {_} => by
      rw [List.eq_of_mem_replicate listed]
      exact ih (Shape.isLegal_array.mp legal).2.1
    exact ⟨_, encodeAs_array.mpr ⟨elements, encodings, rfl, counted, heads, parts, rfl⟩⟩
  | composite shape members composite ih =>
    obtain ⟨values, rfl, each⟩ := (Shape.admits_composite composite).mp admitted
    rw [allocated_composite composite] at small
    have legal' := composite.areLegal legal
    have heads := Shape.headSizeSum_ok_iff.mpr (sized_of_areLegal legal' each (by omega))
    obtain ⟨encodings, parts⟩ := exists_encodings each (by omega) fun member listed {_} =>
      ih member listed (Shape.areLegal_iff.mp legal' member listed).2
    exact ⟨_, (encodeAs_composite composite).mpr ⟨values, encodings, rfl, heads, parts, rfl⟩⟩
  | signature shape signature =>
    rw [Shape.not_admits_signature signature] at admitted
    cases admitted

/-- A sequence is whole words if the dynamic encodings among its parts are. -/
theorem dvd_length_sequenceBytes (each : EncodesEach members values encodings)
    (parts : ∀ member ∈ members, ∀ {value encoding}, encodeAs member value = .ok encoding →
      wordBytes ∣ encoding.length) : wordBytes ∣ (sequenceBytes members encodings).length := by
  rw [each.length_sequenceBytes]
  have tails : ∀ count ≤ members.length, wordBytes ∣ tailsBefore members encodings count := by
    intro count few
    induction count with
    | zero =>
      rw [tailsBefore_zero]
      exact Nat.dvd_zero _
    | succ count ih =>
      have inside' : count < encodings.length := each.covered ▸ few
      rw [tailsBefore_succ few inside', tailBytes]
      refine Nat.dvd_add (ih (Nat.le_of_lt few)) ?_
      split
      · exact parts _ (List.getElem_mem few) (each.each count few (each.counted ▸ few) inside')
      · exact Nat.dvd_zero _
  exact Nat.dvd_add (Shape.dvd_headBytesSum members) (tails _ (Nat.le_refl _))

/-- Encodings are whole words. -/
theorem dvd_length_encodeAs (encoded : encodeAs shape value = .ok encoding) : wordBytes ∣ encoding.length := by
  induction shape using Shape.induction generalizing value encoding with
  | word shape valueType =>
    obtain ⟨word, -, rfl⟩ := (encodeAs_word valueType).mp encoded
    rw [Word.toBytes_length]
    exact Nat.dvd_refl _
  | bytes shape bytesLike =>
    obtain ⟨content, -, rfl⟩ := (encodeAs_bytes bytesLike).mp encoded
    rw [length_encodeBytes]
    exact Nat.dvd_add (Nat.dvd_refl _) (Nat.dvd_mul_left _ _)
  | array base length ih =>
    obtain ⟨elements, encodings, -, -, -, each, rfl⟩ := encodeAs_array.mp encoded
    rw [List.length_append, length_lengthWord_eq]
    refine Nat.dvd_add ?_ (dvd_length_sequenceBytes each fun member listed {_ _} => ?_)
    · cases length with
      | none => exact Nat.dvd_refl _
      | some count => exact Nat.dvd_zero _
    · rw [List.eq_of_mem_replicate listed]
      exact ih
  | composite shape members composite ih =>
    obtain ⟨values, encodings, -, -, each, rfl⟩ := (encodeAs_composite composite).mp encoded
    exact dvd_length_sequenceBytes each fun member listed {_ _} => ih member listed
  | signature shape signature => exact absurd encoded (not_encodeAs_signature signature)

/-- A sequence takes no more than the words of its parts and what these take in memory, if the dynamic encodings among
them take no more than that. The first parts are counted one after the other. -/
theorem length_sequenceBytes_le (each : EncodesEach members values encodings)
    (admitted : admitEach members values = true)
    (parts : ∀ member ∈ members, ∀ {value encoding}, member.admits value = true →
      encodeAs member value = .ok encoding → member.isDynamicallyEncoded = true →
      encoding.length ≤ allocated member value) :
    (sequenceBytes members encodings).length ≤ wordBytes * members.length + allocatedEach members values := by
  have first : ∀ count ≤ members.length,
      headBytesSum (members.take count) + tailsBefore members encodings count ≤
        wordBytes * count + allocatedEach members (values.take count) := by
    intro count few
    induction count with
    | zero => simp [tailsBefore_zero, headBytesSum]
    | succ count ih =>
      have inside' : count < values.length := each.counted ▸ few
      have inside'' : count < encodings.length := each.covered ▸ few
      have taken : (values.take count).length = count := by
        rw [List.length_take]
        exact Nat.min_eq_left (Nat.le_of_lt inside')
      have fit := (Shape.admitEach_iff.mp admitted).2 count few inside'
      have own : members[count].headBytes + tailBytes members[count] encodings[count] ≤
          wordBytes + allocated members[count] values[count] := by
        rw [tailBytes]
        split
        · rename_i dynamic
          have tail := parts _ (List.getElem_mem few) fit (each.each count few inside' inside'') dynamic
          rw [Shape.headBytes_dynamic dynamic]
          exact Nat.add_le_add_left tail _
        · exact headBytes_le fit
      have earlier := ih (Nat.le_of_lt few)
      have appended := allocatedEach_append members (values.take count) values[count] (by rw [taken]; exact few)
      simp only [taken] at appended
      rw [headBytesSum_take_succ few, tailsBefore_succ few inside'', List.take_succ_eq_append_getElem inside',
        appended, Nat.mul_succ]
      omega
  have all := first members.length (Nat.le_refl _)
  rw [List.take_length, ← each.counted, List.take_length, each.counted] at all
  rw [each.length_sequenceBytes]
  exact all

/-- A value that lies in memory takes at least as much there as its encoding. -/
theorem length_encodeAs_le (reference : shape.isReferenceType = true) (admitted : shape.admits value = true)
    (encoded : encodeAs shape value = .ok encoding) : encoding.length ≤ allocated shape value := by
  induction shape using Shape.induction generalizing value encoding with
  | word shape valueType =>
    rw [Shape.isReferenceType_of_isValueType valueType] at reference
    cases reference
  | bytes shape bytesLike =>
    obtain ⟨content, rfl, rfl⟩ := (encodeAs_bytes bytesLike).mp encoded
    rw [allocated_bytes bytesLike, length_encodeBytes]
  | array base length ih =>
    obtain ⟨elements, rfl, -, fit⟩ := Shape.admits_array.mp admitted
    obtain ⟨_, encodings, same, -, -, each, rfl⟩ := encodeAs_array.mp encoded
    cases same
    have whole := length_sequenceBytes_le each fit fun member listed {_ _} => by
      rw [List.eq_of_mem_replicate listed]
      exact fun own encoded dynamic => ih (Shape.isReferenceType_of_dynamic dynamic own) own encoded
    rw [List.length_replicate] at whole
    rw [List.length_append, length_lengthWord_eq, allocated_array]
    omega
  | composite shape members composite ih =>
    obtain ⟨values, rfl, fit⟩ := (Shape.admits_composite composite).mp admitted
    obtain ⟨_, encodings, same, -, each, rfl⟩ := (encodeAs_composite composite).mp encoded
    cases same
    rw [allocated_composite composite]
    exact length_sequenceBytes_le each fit fun member listed {_ _} own encoded dynamic =>
      ih member listed (Shape.isReferenceType_of_dynamic dynamic own) own encoded
  | signature shape signature => exact absurd encoded (not_encodeAs_signature signature)

end

end YulAbi.Value
