import YulAbi.Word

/-!
# Values

A value goes with a type: one word for value types exactly as it stands in call
data, raw bytes for bytes and text, elements for arrays and members for structs and
tuples.
-/

namespace YulAbi

/-- A value of some type. -/
inductive Value where
  /-- A word. -/
  | word (value : Word)
  /-- Raw bytes. -/
  | bytes (content : List UInt8)
  /-- The elements of an array. -/
  | array (elements : List Value)
  /-- The members of a struct or tuple. -/
  | tuple (members : List Value)

namespace Value

/-- The word for the kind of a value. -/
def kind : Value → String
  | .word _ => "word"
  | .bytes _ => "bytes"
  | .array _ => "array"
  | .tuple _ => "tuple"

mutual
/-- Structural comparison. -/
def same : Value → Value → Bool
  | .word value, .word value' => value == value'
  | .bytes content, .bytes content' => content == content'
  | .array elements, .array elements' => sameAll elements elements'
  | .tuple members, .tuple members' => sameAll members members'
  | _, _ => false
/-- Structural comparison of lists of values. -/
def sameAll : List Value → List Value → Bool
  | [], [] => true
  | value :: rest, value' :: rest' => value.same value' && sameAll rest rest'
  | _, _ => false
end

mutual
/-- Values that compare alike are equal. -/
theorem eq_of_same {left right : Value} (h : left.same right = true) : left = right := by
  cases left <;> cases right <;> simp_all [same]
  · exact eq_of_sameAll h
  · exact eq_of_sameAll h
/-- Lists of values that compare alike are equal. -/
theorem eq_of_sameAll {left right : List Value} (h : sameAll left right = true) : left = right := by
  cases left <;> cases right <;> simp_all [sameAll]
  exact ⟨eq_of_same h.1, eq_of_sameAll h.2⟩
end

mutual
/-- A value compares like itself. -/
theorem same_self (value : Value) : value.same value = true := by
  cases value <;> simp [same]
  · exact sameAll_self _
  · exact sameAll_self _
/-- A list of values compares like itself. -/
theorem sameAll_self (values : List Value) : sameAll values values = true := by
  cases values <;> simp [sameAll]
  exact ⟨same_self _, sameAll_self _⟩
end

/-- Structural comparison decides equality. -/
instance : DecidableEq Value := fun left right =>
  decidable_of_iff (left.same right = true) ⟨eq_of_same, fun h => h ▸ same_self left⟩

end Value

end YulAbi
