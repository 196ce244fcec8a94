import YulAbi.Interface.TypeString
import YulAbi.Proofs.Shape.Identifier
import YulAbi.Proofs.Text

/-!
# The parts of a type string

What the steps of reading a type string take from its two ends: keywords in front, array suffixes
behind, numerals between brackets and the last segment of a qualified name. Each step is the
inverse of putting that part there.
-/

namespace YulAbi.Interface

/-- What is left behind a keyword. -/
theorem dropFront?_eq_some {front chars rest : List Char} :
    dropFront? front chars = some rest ↔ chars = front ++ rest := by
  induction front generalizing chars with
  | nil => simp [dropFront?, eq_comm]
  | cons wanted more ih =>
    cases chars with
    | nil => simp [dropFront?]
    | cons char chars =>
      rw [dropFront?, List.cons_append, List.cons.injEq]
      split
      · rename_i same
        rw [ih, and_iff_right same.symm]
      · rename_i other
        simp [Ne.symm other]

/-- A text behind which stands a character that a keyword lacks has the keyword in front by itself. -/
theorem dropFront?_append {front chars more : List Char} {mark : Char} (lacks : mark ∉ front) :
    dropFront? front (chars ++ mark :: more) = (dropFront? front chars).map (· ++ mark :: more) := by
  induction front generalizing chars with
  | nil => rfl
  | cons wanted rest ih =>
    have other : wanted ≠ mark := fun same => lacks (same ▸ List.mem_cons_self)
    have others : mark ∉ rest := fun inside => lacks (List.mem_cons_of_mem _ inside)
    cases chars with
    | nil => simp [dropFront?, other]
    | cons char chars =>
      rw [List.cons_append, dropFront?, dropFront?]
      split
      · exact ih others
      · rfl

/-- Nothing with a character of its own in it is a keyword. -/
theorem dropFront?_eq_none {front chars : List Char} {mark : Char} (inside : mark ∈ front) (lacks : mark ∉ chars) :
    dropFront? front chars = none := by
  rw [Option.eq_none_iff_forall_ne_some]
  intro rest same
  rw [dropFront?_eq_some.mp same] at lacks
  exact lacks (List.mem_append_left rest inside)

/-- What stands behind a text can be taken off again. -/
theorem dropBack?_append (chars back : List Char) : dropBack? back (chars ++ back) = some chars := by
  rw [dropBack?, List.reverse_append, dropFront?_eq_some.mpr rfl, Option.map_some, List.reverse_reverse]

/-- A suffix begins with the last opening bracket. -/
theorem splitSuffix?_append {inner body : List Char} (last : '[' ∉ body) :
    splitSuffix? (inner ++ '[' :: body) = some (inner, '[' :: body) := by
  have run : (inner ++ '[' :: body).reverse.takeWhile (· != '[') = body.reverse := by
    have others : ∀ char ∈ body.reverse, (char != '[') = true := fun char listed =>
      bne_iff_ne.mpr fun same => last (same ▸ List.mem_reverse.mp listed)
    rw [List.reverse_append, List.reverse_cons, List.append_assoc, List.takeWhile_append_of_pos others]
    simp
  have size : (inner ++ '[' :: body).length - body.reverse.length - 1 = inner.length := by
    simp only [List.length_append, List.length_cons, List.length_reverse]
    omega
  have shorter : body.reverse.length < (inner ++ '[' :: body).length := by
    simp only [List.length_append, List.length_cons, List.length_reverse]
    omega
  simp only [splitSuffix?, run, if_pos shorter, size, List.take_left, List.drop_left]

/-- A text that is split has a bracket where it is split. -/
theorem splitSuffix?_eq_some {chars inner suffix : List Char} (split : splitSuffix? chars = some (inner, suffix)) :
    ∃ body, chars = inner ++ '[' :: body ∧ suffix = '[' :: body ∧ '[' ∉ body := by
  have parts := List.takeWhile_append_dropWhile (p := (· != '[')) (l := chars.reverse)
  cases behind : chars.reverse.dropWhile (· != '[') with
  | nil =>
    rw [behind, List.append_nil] at parts
    rw [splitSuffix?, parts, List.length_reverse, if_neg (Nat.lt_irrefl _)] at split
    cases split
  | cons mark front =>
    have bracket : mark = '[' := by
      have stops := List.head?_dropWhile_not (· != '[') chars.reverse
      rw [behind] at stops
      simpa using stops
    have whole : chars = front.reverse ++ '[' :: (chars.reverse.takeWhile (· != '[')).reverse := by
      rw [behind, bracket] at parts
      simpa using (congrArg List.reverse parts).symm
    have last : '[' ∉ (chars.reverse.takeWhile (· != '[')).reverse := fun listed =>
      absurd (List.mem_takeWhile_imp (List.mem_reverse.mp listed)) (by simp)
    rw [whole, splitSuffix?_append last] at split
    cases split
    exact ⟨_, whole, rfl, last⟩

/-- A suffix is what stands between its brackets, and the brackets. -/
theorem suffix_eq (length : Option Nat) :
    (Shape.arraySuffix length).toList = '[' :: (Shape.lengthText length ++ [']']) := by
  rw [Shape.toList_arraySuffix, Shape.suffixText, List.flatMap_singleton]

/-- Between the brackets of a suffix are digits. -/
theorem isDigit_of_mem_lengthText {length : Option Nat} {char : Char} (listed : char ∈ Shape.lengthText length) :
    Numeral.isDigit char = true := by
  cases length with
  | none => exact absurd listed List.not_mem_nil
  | some count => exact Numeral.isDigit_of_mem_toDigits listed

/-- The suffix of an array is split off. -/
theorem splitSuffix?_arraySuffix (inner : List Char) (length : Option Nat) :
    splitSuffix? (inner ++ (Shape.arraySuffix length).toList) = some (inner, (Shape.arraySuffix length).toList) := by
  rw [suffix_eq]
  refine splitSuffix?_append fun listed => ?_
  rcases List.mem_append.mp listed with digit | last
  · exact absurd (isDigit_of_mem_lengthText digit) (by decide)
  · exact absurd last (by decide)

/-- The length of an array is read from its suffix. -/
theorem readLength?_arraySuffix {length : Option Nat}
    (legal : ∀ count ∈ length, 0 < count ∧ count ≤ 0xffffffffffffffff) :
    readLength? (((Shape.arraySuffix length).toList.drop 1).dropLast) = some length := by
  rw [suffix_eq, List.drop_one, List.tail_cons, List.dropLast_concat]
  cases length with
  | none => rfl
  | some count =>
    obtain ⟨positive, small⟩ := legal count rfl
    have read : Numeral.read? 0xffffffffffffffff (Nat.toDigits 10 count) = some count :=
      Numeral.read?_toDigits (by omega)
    unfold readLength?
    split
    · rename_i empty
      exact absurd empty Nat.toDigits_ne_nil
    · rw [Shape.lengthText, read]
      simp [positive]

/-- What is read as the length of an array: nothing, or a positive numeral. -/
theorem readLength?_eq_some {digits : List Char} {length : Option Nat} (read : readLength? digits = some length) :
    (digits = [] ∧ length = none) ∨
      ∃ count, length = some count ∧ 0 < count ∧ Numeral.read? 0xffffffffffffffff digits = some count := by
  unfold readLength? at read
  split at read
  · exact .inl ⟨rfl, (Option.some.inj read).symm⟩
  · obtain ⟨count, filtered, rfl⟩ := Option.map_eq_some_iff.mp read
    obtain ⟨numeral, positive⟩ := Option.filter_eq_some_iff.mp filtered
    exact .inr ⟨count, rfl, of_decide_eq_true positive, numeral⟩

/-- The last segment of a name without dots is the name. -/
theorem lastSegment_of_free {name : String} (free : '.' ∉ name.toList) : lastSegment name.toList = name := by
  have run : name.toList.reverse.takeWhile (· != '.') = name.toList.reverse :=
    List.takeWhile_eq_self_iff.mpr fun char listed => bne_iff_ne.mpr fun same =>
      free (same ▸ List.mem_reverse.mp listed)
  rw [lastSegment, run, List.reverse_reverse, String.ofList_toList]

/-- The last segment of a name behind a dot is the name. -/
theorem lastSegment_append {name : String} (free : '.' ∉ name.toList) (scope : List Char) :
    lastSegment (scope ++ '.' :: name.toList) = name := by
  have others : ∀ char ∈ name.toList.reverse, (char != '.') = true := fun char listed => bne_iff_ne.mpr fun same =>
    free (same ▸ List.mem_reverse.mp listed)
  rw [lastSegment, List.reverse_append, List.reverse_cons, List.append_assoc, List.takeWhile_append_of_pos others]
  simp

end YulAbi.Interface
