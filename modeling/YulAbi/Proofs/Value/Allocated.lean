import YulAbi.Proofs.Machine.Free
import YulAbi.Proofs.Value.Encoded
import YulAbi.Proofs.Value.Stands

/-!
# Memory that values take

How much memory a value takes together with all its parts, and what it means that a value
has been placed in memory of its own. The parts of arrays, structs and tuples are placed
one after the other, behind the words that point to them.
-/

namespace YulAbi.Value

mutual
/-- The bytes of memory that a value of a shape takes together with all its parts. -/
def allocated : Shape → Value → Nat
  | .bytes, .bytes content => wordBytes + content.length + padding content.length
  | .string, .bytes content => wordBytes + content.length + padding content.length
  | .array base length, .array elements =>
    lengthSize length + wordBytes * elements.length + (elements.map (allocated base)).sum
  | .struct _ shapes, .tuple members => wordBytes * shapes.length + allocatedEach shapes members
  | .tuple shapes, .tuple members => wordBytes * shapes.length + allocatedEach shapes members
  | _, _ => 0
/-- The bytes of memory that several values take. -/
def allocatedEach : List Shape → List Value → Nat
  | shape :: shapes, value :: values => allocated shape value + allocatedEach shapes values
  | _, _ => 0
end

/-- Whether a value has been placed in memory that was allocated for it. -/
structure Placed (before after : Machine) (shape : Shape) (word : Word) (value : Value) : Prop where
  /-- The memory of the value has been allocated. -/
  moved : after.free = before.free + allocated shape value
  /-- The value stands there. -/
  stands : Stands after before.free after.free shape word value

/-- Whether values of the first of several parts stand one after the other, and the words that stand for them
are in a row. -/
structure PartsStand (machine : Machine) (low head : Nat) (members : List Shape) (values : List Value) :
    Prop where
  /-- There is a part for each value. -/
  few : values.length ≤ members.length
  /-- Their memory has been allocated. -/
  moved : machine.free = low + allocatedEach members values
  /-- Each value stands there. -/
  each : ∀ position (inside : position < members.length) (inside' : position < values.length),
    Stands machine low machine.free members[position] (machine.wordAt (head + wordBytes * position))
      values[position]

section

variable {before middle after machine : Machine} {shape base : Shape} {members : List Shape}
  {value : Value} {values : List Value} {word : Word} {low head : Nat}

/-- Words take no memory of their own. -/
theorem allocated_word (valueType : shape.isValueType = true) (value : Value) : allocated shape value = 0 := by
  cases shape with
  | bytes | string | array _ _ | struct _ _ | tuple _ | error _ _ | event _ _ _ _ => cases valueType
  | _ => simp [allocated]

/-- Bytes take as much memory as their encoding. -/
theorem allocated_bytes (bytesLike : shape.isBytesLike = true) (content : List UInt8) :
    allocated shape (.bytes content) = 32 + (content.length + 31) / 32 * 32 := by
  have unfolded : allocated shape (.bytes content) = wordBytes + content.length + padding content.length := by
    cases shape with
    | bytes => rfl
    | string => rfl
    | _ => cases bytesLike
  rw [unfolded]
  simp only [wordBytes, padding]
  omega

/-- Elements of one shape take as much memory as members of that shape. -/
theorem allocatedEach_replicate (base : Shape) (elements : List Value) :
    allocatedEach (List.replicate elements.length base) elements = (elements.map (allocated base)).sum := by
  induction elements with
  | nil => rfl
  | cons element rest ih =>
    rw [List.length_cons, List.replicate_succ, allocatedEach, ih, List.map_cons, List.sum_cons]

/-- Arrays take a length word, one word for each element, and the memory of the elements. -/
theorem allocated_array (base : Shape) (length : Option Nat) (elements : List Value) :
    allocated (.array base length) (.array elements) = lengthSize length + wordBytes * elements.length +
      allocatedEach (List.replicate elements.length base) elements := by
  rw [allocated, allocatedEach_replicate]

/-- Structs and tuples take one word for each member, and the memory of the members. -/
theorem allocated_composite (composite : shape.IsComposite members) (values : List Value) :
    allocated shape (.tuple values) = wordBytes * members.length + allocatedEach members values := by
  rcases composite with ⟨name, rfl⟩ | rfl <;> rfl

/-- No value takes no memory. -/
theorem allocatedEach_nil (members : List Shape) : allocatedEach members [] = 0 := by
  cases members <;> rfl

/-- One more value takes its memory as well. -/
theorem allocatedEach_append (members : List Shape) (values : List Value) (value : Value)
    (inside : values.length < members.length) :
    allocatedEach members (values ++ [value]) =
      allocatedEach members values + allocated members[values.length] value := by
  induction members generalizing values with
  | nil => simp at inside
  | cons member rest ih =>
    cases values with
    | nil => simp [allocatedEach, allocatedEach_nil]
    | cons first others =>
      have next := ih others (by simpa using inside)
      simp only [List.cons_append, allocatedEach, List.length_cons, List.getElem_cons_succ, next]
      omega

/-- The first values take part of the memory of all. -/
theorem allocatedEach_take_le (members : List Shape) (values : List Value) (count : Nat) :
    allocatedEach members (values.take count) ≤ allocatedEach members values := by
  induction members generalizing values count with
  | nil => simp [allocatedEach]
  | cons member rest ih =>
    cases values with
    | nil => simp
    | cons value others =>
      cases count with
      | zero => simp [allocatedEach]
      | succ count =>
        rw [List.take_succ_cons, allocatedEach, allocatedEach]
        exact Nat.add_le_add_left (ih others count) _

/-- The first values and the next one take part of the memory of all. -/
theorem allocatedEach_take_next (values : List Value) {position : Nat} (inside : position < members.length)
    (inside' : position < values.length) :
    allocatedEach members (values.take position) + allocated members[position] values[position] ≤
      allocatedEach members values := by
  have taken : (values.take position).length = position := by simp [Nat.le_of_lt inside']
  have next := allocatedEach_append members (values.take position) values[position] (by rw [taken]; exact inside)
  simp only [taken] at next
  rw [← next, ← List.take_succ_eq_append_getElem inside']
  exact allocatedEach_take_le members values _

/-- Each value takes part of the memory of all. -/
theorem allocated_le_each (members : List Shape) (values : List Value) {position : Nat}
    (inside : position < members.length) (inside' : position < values.length) :
    allocated members[position] values[position] ≤ allocatedEach members values := by
  induction members generalizing values position with
  | nil => simp at inside
  | cons member rest ih =>
    cases values with
    | nil => simp at inside'
    | cons value others =>
      rw [allocatedEach]
      cases position with
      | zero => exact Nat.le_add_right _ _
      | succ position => exact Nat.le_trans (ih _ (by simpa using inside) (by simpa using inside')) (Nat.le_add_left _ _)

/-- Words take no memory of their own, however many there are. -/
theorem allocatedEach_words (words : ∀ member ∈ members, member.isValueType = true) (values : List Value) :
    allocatedEach members values = 0 := by
  induction members generalizing values with
  | nil => rfl
  | cons member rest ih =>
    cases values with
    | nil => rfl
    | cons value others =>
      rw [allocatedEach, allocated_word (words member List.mem_cons_self),
        ih fun other listed => words other (List.mem_cons_of_mem _ listed)]

/-- Before any part has been placed nothing has been allocated. -/
theorem PartsStand.nil (start : machine.free = low) (head : Nat) (members : List Shape) :
    PartsStand machine low head members [] :=
  ⟨Nat.zero_le _, by rw [allocatedEach_nil, start, Nat.add_zero], fun position _ inside => by simp at inside⟩

/-- A part that already stands in the next word counts. -/
theorem PartsStand.snoc (h : PartsStand machine low head members values) (inside : values.length < members.length)
    (takes : allocated members[values.length] value = 0)
    (stands : Stands machine low machine.free members[values.length]
      (machine.wordAt (head + wordBytes * values.length)) value) :
    PartsStand machine low head members (values ++ [value]) := by
  refine ⟨by rw [List.length_append]; exact inside, ?_, fun position inside' inside'' => ?_⟩
  · rw [allocatedEach_append _ _ _ inside, takes]
    exact h.moved
  · rw [List.length_append, List.length_singleton] at inside''
    by_cases last : position = values.length
    · subst last
      simpa using stands
    · rw [List.getElem_append_left (by omega)]
      exact h.each position inside' (by omega)

/-- Parts still stand after changes in fresh memory or among the words of other parts. -/
theorem PartsStand.changes {region : Nat → Prop} (h : PartsStand before low head members values)
    (changed : before.ChangesOnly region after) (same : after.free = before.free)
    (words : ∀ index, head ≤ index → index < head + wordBytes * values.length → ¬ region index)
    (parts : ∀ index, low ≤ index → index < before.free → ¬ region index) :
    PartsStand after low head members values := by
  refine ⟨h.few, by rw [same, h.moved], fun position inside inside' => ?_⟩
  have kept : after.wordAt (head + wordBytes * position) = before.wordAt (head + wordBytes * position) := by
    have := Nat.mul_le_mul_left wordBytes (show position + 1 ≤ values.length from inside')
    rw [Nat.mul_succ] at this
    refine changed.wordAt fun index below => words _ (by omega) ?_
    simp only [wordBytes] at this ⊢
    omega
  rw [kept, same]
  exact (h.each position inside inside').changes changed parts

/-- One more part is placed behind the others, and its word is stored. -/
theorem PartsStand.store (h : PartsStand before low head members values)
    (inside : values.length < members.length) (advances : before.Advances middle)
    (placed : Placed before middle members[values.length] word value)
    (stored : middle.Puts after (head + wordBytes * values.length) (Word.toBytes word))
    (above : Machine.freePointerSlot + wordBytes ≤ head) (below : head + wordBytes * members.length ≤ low) :
    PartsStand after low head members (values ++ [value]) := by
  have slot := Nat.mul_le_mul_left wordBytes (show values.length + 1 ≤ members.length from inside)
  rw [Nat.mul_succ] at slot
  have size : (Word.toBytes word).length = wordBytes := Word.toBytes_length word
  have start : low ≤ before.free := by rw [h.moved]; omega
  have pointer : after.free = middle.free := stored.free (by omega)
  have kept : ∀ {shape word value} low', low ≤ low' → Stands middle low' middle.free shape word value →
      Stands after low' after.free shape word value := by
    intro shape word value low' lower stands
    rw [pointer]
    exact stands.changes stored.outside fun index _ _ covered => by omega
  refine ⟨by rw [List.length_append]; exact inside, ?_, fun position inside' inside'' => ?_⟩
  · rw [pointer, placed.moved, allocatedEach_append _ _ _ inside, h.moved]
    omega
  · rw [List.length_append, List.length_singleton] at inside''
    by_cases last : position = values.length
    · subst last
      simp only [List.getElem_append_right (Nat.le_refl _), Nat.sub_self, List.getElem_cons_zero, stored.wordAt]
      exact (kept _ start placed.stands).mono start (Nat.le_refl _)
    · rw [List.getElem_append_left (by omega)]
      have earlier := Nat.mul_le_mul_left wordBytes (show position + 1 ≤ values.length by omega)
      rw [Nat.mul_succ] at earlier
      have same : after.wordAt (head + wordBytes * position) = before.wordAt (head + wordBytes * position) := by
        refine (stored.outside.wordAt fun index below covered => ?_).trans
          (advances.changes.wordAt fun index below covered => ?_)
        · simp only [wordBytes] at earlier covered
          omega
        · simp only [Machine.Fresh, wordBytes, Machine.freePointerSlot] at *
          omega
      rw [same]
      have stands := (h.each position inside' (by omega)).changes advances.changes fun index lower upper covered => by
        simp only [Machine.Fresh, wordBytes, Machine.freePointerSlot] at *
        omega
      exact kept low (Nat.le_refl _) (stands.mono (Nat.le_refl _) advances.up)

end

end YulAbi.Value
