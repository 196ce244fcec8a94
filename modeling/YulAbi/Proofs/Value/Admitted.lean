import YulAbi.Proofs.Arena.Sound
import YulAbi.Proofs.Value.Copied

/-!
# Values that fit a shape

A value fits a shape if it is a word, bytes, elements or members where the shape asks for
these, and so are its parts. Such a value takes whole words of memory, and its head in an
encoding takes no more than its word and the memory.
-/

namespace YulAbi

mutual
/-- Whether a value fits a shape. -/
def Shape.admits : Shape → Value → Bool
  | .bytes, .bytes _ => true
  | .string, .bytes _ => true
  | .array base length, .array elements => length.all (elements.length = ·) && elements.all base.admits
  | .struct _ members, .tuple values => Shape.admitEach members values
  | .tuple members, .tuple values => Shape.admitEach members values
  | shape, .word _ => shape.isValueType
  | _, _ => false
/-- Whether there is one value for each of several shapes, and each fits its shape. -/
def Shape.admitEach : List Shape → List Value → Bool
  | [], [] => true
  | shape :: shapes, value :: values => shape.admits value && Shape.admitEach shapes values
  | _, _ => false
end

namespace Shape

section

variable {shape base : Shape} {length : Option Nat} {members : List Shape} {value : Value} {values : List Value}

attribute [local simp] admits admitEach isValueType

/-- A word fits a value type, and nothing else does. -/
theorem admits_word (valueType : shape.isValueType = true) :
    shape.admits value = true ↔ ∃ word, value = .word word := by
  cases shape with
  | bytes | string | array _ _ | struct _ _ | tuple _ | error _ _ | event _ _ _ _ => cases valueType
  | _ => cases value <;> simp

/-- Bytes fit bytes and text, and nothing else does. -/
theorem admits_bytes (bytesLike : shape.isBytesLike = true) :
    shape.admits value = true ↔ ∃ content, value = .bytes content := by
  cases shape with
  | bytes | string => cases value <;> simp
  | _ => cases bytesLike

/-- As many values fit as many shapes if each fits its own. -/
theorem admitEach_iff : admitEach members values = true ↔ values.length = members.length ∧
    ∀ position (inside : position < members.length) (inside' : position < values.length),
      members[position].admits values[position] = true := by
  induction members generalizing values with
  | nil => cases values <;> simp
  | cons member rest ih =>
    cases values with
    | nil => simp
    | cons value others =>
      rw [admitEach, Bool.and_eq_true, ih]
      constructor
      · rintro ⟨own, counted, each⟩
        refine ⟨by simp [counted], fun position inside inside' => ?_⟩
        cases position with
        | zero => exact own
        | succ position => exact each position (by simpa using inside) (by simpa using inside')
      · rintro ⟨counted, each⟩
        refine ⟨each 0 (by simp) (by simp), by simpa using counted, fun position inside inside' => ?_⟩
        exact each (position + 1) (by simpa using inside) (by simpa using inside')

/-- Elements fit one by one if they fit as many copies of their shape. -/
theorem admitEach_replicate (base : Shape) (elements : List Value) :
    admitEach (List.replicate elements.length base) elements = elements.all base.admits := by
  induction elements with
  | nil => rfl
  | cons element rest ih => rw [List.length_cons, List.replicate_succ, admitEach, ih, List.all_cons]

/-- Elements fit an array if their number is that of the array and each fits its base. -/
theorem admits_array : (array base length).admits value = true ↔ ∃ elements, value = .array elements ∧
    (∀ expected ∈ length, elements.length = expected) ∧
    admitEach (List.replicate elements.length base) elements = true := by
  cases value with
  | array elements =>
    rw [admits, Bool.and_eq_true, ← admitEach_replicate, Option.all_eq_true]
    simp
  | _ => simp

/-- Members fit a struct or tuple if there is one for each of its members and it fits. -/
theorem admits_composite (composite : shape.IsComposite members) :
    shape.admits value = true ↔ ∃ values, value = .tuple values ∧ admitEach members values = true := by
  rcases composite with ⟨name, rfl⟩ | rfl <;> cases value <;> simp

/-- Nothing fits a signature. -/
theorem not_admits_signature (signature : shape.isSignature = true) : shape.admits value = false := by
  cases shape with
  | error name parameters | event name parameters indexed anonymous => cases value <;> simp
  | _ => cases signature

/-- What is encoded dynamically and has values lies in memory. -/
theorem isReferenceType_of_dynamic (dynamic : shape.isDynamicallyEncoded = true)
    (admitted : shape.admits value = true) : shape.isReferenceType = true := by
  cases shape with
  | bytes | string | array _ _ | struct _ _ | tuple _ => rfl
  | error _ _ | event _ _ _ _ =>
    rw [not_admits_signature rfl] at admitted
    cases admitted
  | _ => cases dynamic

/-- What has values and does not lie in memory is a word. -/
theorem isValueType_of_admits (admitted : shape.admits value = true) (inline : shape.isReferenceType = false) :
    shape.isValueType = true := by
  cases shape with
  | bytes | string | array _ _ | struct _ _ | tuple _ => cases inline
  | error _ _ | event _ _ _ _ =>
    rw [not_admits_signature rfl] at admitted
    cases admitted
  | _ => rfl

/-- The members of a legal struct or tuple are legal parts. -/
theorem IsComposite.areLegal (h : shape.IsComposite members) (legal : shape.isLegal = true) :
    Shape.areLegal members = true := by
  rcases h with ⟨name, rfl⟩ | rfl <;> exact legal

/-- A struct or tuple is encoded dynamically if any of its members is. -/
theorem IsComposite.isDynamicallyEncoded_eq (h : shape.IsComposite members) :
    shape.isDynamicallyEncoded = anyDynamicallyEncoded members := by
  rcases h with ⟨name, rfl⟩ | rfl <;> rfl

/-- A struct or tuple that is encoded statically takes what the heads of its members take. -/
theorem IsComposite.staticBytes_eq (h : shape.IsComposite members) (static : shape.isDynamicallyEncoded = false) :
    shape.staticBytes = headBytesSum members := by
  rw [h.isDynamicallyEncoded_eq] at static
  rw [headBytesSum_of_static static]
  rcases h with ⟨name, rfl⟩ | rfl <;> rw [staticBytes]

/-- Static parts together have the size of their heads. -/
theorem encodedSizeSum_of_static (static : anyDynamicallyEncoded members = false) :
    encodedSizeSum members = headSizeSum members := by
  induction members with
  | nil => rfl
  | cons member rest ih =>
    simp only [anyDynamicallyEncoded, Bool.or_eq_false_iff] at static
    rw [encodedSizeSum, headSizeSum, ih static.2, headSize, static.1, if_neg Bool.false_ne_true]

end

mutual
/-- Static encodings are whole words. -/
theorem dvd_staticBytes (shape : Shape) : wordBytes ∣ shape.staticBytes := by
  cases shape with
  | array base length =>
    cases length with
    | none => exact Nat.dvd_refl _
    | some count => exact Nat.dvd_mul_left_of_dvd (dvd_staticBytes base) count
  | struct name members => exact dvd_staticBytesSum members
  | tuple members => exact dvd_staticBytesSum members
  | error name parameters => exact dvd_staticBytesSum parameters
  | event name parameters indexed anonymous => exact dvd_staticBytesSum parameters
  | _ => exact Nat.dvd_refl _
/-- So are several of them. -/
theorem dvd_staticBytesSum (shapes : List Shape) : wordBytes ∣ staticBytesSum shapes := by
  cases shapes with
  | nil => exact Nat.dvd_zero _
  | cons shape rest => exact Nat.dvd_add (dvd_staticBytes shape) (dvd_staticBytesSum rest)
end

/-- Heads are whole words. -/
theorem dvd_headBytesSum (shapes : List Shape) : wordBytes ∣ headBytesSum shapes := by
  induction shapes with
  | nil => exact Nat.dvd_zero _
  | cons shape rest ih =>
    refine Nat.dvd_add ?_ ih
    rw [headBytes]
    split
    · exact Nat.dvd_refl _
    · exact dvd_staticBytes shape

end Shape

namespace Value

open Shape (headBytesSum admitEach)

section

variable {shape base : Shape} {length : Option Nat} {members : List Shape} {value : Value} {values : List Value}
  {encoding : List UInt8} {encodings : List (List UInt8)}

/-- What several parts take is whole words if that is so for each of them. -/
theorem dvd_allocatedEach (each : ∀ member ∈ members, ∀ value, wordBytes ∣ allocated member value) :
    wordBytes ∣ allocatedEach members values := by
  induction members generalizing values with
  | nil => exact Nat.dvd_zero _
  | cons member rest ih =>
    cases values with
    | nil => exact Nat.dvd_zero _
    | cons value others =>
      exact Nat.dvd_add (each member List.mem_cons_self value)
        (ih fun other listed => each other (List.mem_cons_of_mem _ listed))

/-- A value takes whole words of memory. -/
theorem dvd_allocated (shape : Shape) (value : Value) : wordBytes ∣ allocated shape value := by
  induction shape using Shape.induction generalizing value with
  | word shape valueType =>
    rw [allocated_word valueType]
    exact Nat.dvd_zero _
  | bytes shape bytesLike =>
    cases value with
    | bytes content =>
      rw [allocated_bytes bytesLike]
      exact Nat.dvd_add (Nat.dvd_refl _) (Nat.dvd_mul_left _ _)
    | _ => cases shape <;> first | exact Nat.dvd_zero _ | cases bytesLike
  | array base length ih =>
    cases value with
    | array elements =>
      rw [allocated_array]
      refine Nat.dvd_add (Nat.dvd_add ?_ (Nat.dvd_mul_right _ _)) (dvd_allocatedEach fun member listed => ?_)
      · cases length with
        | none => exact Nat.dvd_refl _
        | some count => exact Nat.dvd_zero _
      · rw [List.eq_of_mem_replicate listed]
        exact ih
    | _ => exact Nat.dvd_zero _
  | composite shape members composite ih =>
    cases value with
    | tuple values =>
      rw [allocated_composite composite]
      exact Nat.dvd_add (Nat.dvd_mul_right _ _) (dvd_allocatedEach ih)
    | _ => rcases composite with ⟨name, rfl⟩ | rfl <;> exact Nat.dvd_zero _
  | signature shape signature =>
    cases shape with
    | error name parameters | event name parameters indexed anonymous => cases value <;> exact Nat.dvd_zero _
    | _ => cases signature

/-- The heads of parts take no more than their words and what they take in memory, if each head does so. -/
theorem headBytesSum_le (admitted : admitEach members values = true)
    (each : ∀ member ∈ members, ∀ {value}, member.admits value = true →
      member.headBytes ≤ wordBytes + allocated member value) :
    headBytesSum members ≤ wordBytes * members.length + allocatedEach members values := by
  induction members generalizing values with
  | nil => exact Nat.zero_le _
  | cons member rest ih =>
    cases values with
    | nil => cases admitted
    | cons value others =>
      rw [admitEach, Bool.and_eq_true] at admitted
      have own := each member List.mem_cons_self admitted.1
      have more := ih admitted.2 fun other listed => each other (List.mem_cons_of_mem _ listed)
      rw [headBytesSum, allocatedEach, List.length_cons, Nat.mul_succ]
      omega

/-- The static encoding of an array takes no more than the array in memory, if that is so for its elements. -/
theorem staticBytes_array_le {count : Nat} {elements : List Value} (static : base.isDynamicallyEncoded = false)
    (admitted : admitEach (List.replicate elements.length base) elements = true) (counted : elements.length = count)
    (element : ∀ {value}, base.admits value = true → base.headBytes ≤ wordBytes + allocated base value) :
    count * base.staticBytes ≤ allocated (.array base (some count)) (.array elements) := by
  have heads := headBytesSum_le admitted fun member listed {value} => by
    rw [List.eq_of_mem_replicate listed]
    exact element
  rw [headBytesSum_replicate, Shape.headBytes_static static, List.length_replicate] at heads
  rw [allocated_array, ← counted]
  simp only [lengthSize]
  omega

/-- The head of a value takes no more than its word and what it takes in memory. -/
theorem headBytes_le (admitted : shape.admits value = true) : shape.headBytes ≤ wordBytes + allocated shape value := by
  induction shape using Shape.induction generalizing value with
  | word shape valueType =>
    rw [Shape.headBytes_word valueType]
    exact Nat.le_add_right _ _
  | bytes shape bytesLike =>
    rw [Shape.headBytes_dynamic (isDynamicallyEncoded_of_isBytesLike bytesLike)]
    exact Nat.le_add_right _ _
  | array base length ih =>
    cases dynamic : (Shape.array base length).isDynamicallyEncoded with
    | true =>
      rw [Shape.headBytes_dynamic dynamic]
      exact Nat.le_add_right _ _
    | false =>
      cases length with
      | none => cases dynamic
      | some count =>
        obtain ⟨elements, rfl, counted, each⟩ := Shape.admits_array.mp admitted
        rw [Shape.headBytes_static dynamic, Shape.staticBytes]
        exact Nat.le_trans (staticBytes_array_le dynamic each (counted count rfl) ih) (Nat.le_add_left _ _)
  | composite shape members composite ih =>
    cases dynamic : shape.isDynamicallyEncoded with
    | true =>
      rw [Shape.headBytes_dynamic dynamic]
      exact Nat.le_add_right _ _
    | false =>
      obtain ⟨values, rfl, each⟩ := (Shape.admits_composite composite).mp admitted
      have heads := headBytesSum_le each ih
      rw [Shape.headBytes_static dynamic, composite.staticBytes_eq dynamic, allocated_composite composite]
      omega
  | signature shape signature =>
    rw [Shape.not_admits_signature signature] at admitted
    cases admitted

end

end Value

end YulAbi
