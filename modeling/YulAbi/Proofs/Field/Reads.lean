import YulAbi.Field.Candidates
import YulAbi.Proofs.Field.Bits

/-!
# Every form reads the field

Whatever the source of the word, all forms that read a field have the value of the field, and
can be lowered to code: shifts are by less than a word, and words are loaded from memory only,
at most a word away.
-/

namespace YulAbi

namespace AccessExpr

/-- Whether the shifts and indices of a tree lie inside a word, and it loads words that are near from memory only. -/
def isLowerable (source : WordSource) : AccessExpr → Bool
  | .word | .value | .literal _ => true
  | .load offset => source == .memory && decide (-32 ≤ offset) && decide (offset ≤ 32)
  | .shl bits expr | .shr bits expr => decide (bits < wordBits) && expr.isLowerable source
  | .byte index expr => decide (index < wordBytes) && expr.isLowerable source
  | .and left right | .or left right => left.isLowerable source && right.isLowerable source
  | .not expr => expr.isLowerable source

end AccessExpr

/-- The first of the cheapest candidates is one of them, whatever the model. -/
theorem Candidate.mem_of_cheapest? {α : Type} {model : CostModel} {candidates : List (Candidate α)}
    {chosen : Candidate α} (h : Candidate.cheapest? model candidates = some chosen) : chosen ∈ candidates := by
  have stays : ∀ (rest : List (Candidate α)) (best : Candidate α), best ∈ candidates →
      (∀ other ∈ rest, other ∈ candidates) → rest.foldl (fun best candidate =>
        if candidate.cost.compare best.cost model = .lt then candidate else best) best ∈ candidates := by
    intro rest
    induction rest with
    | nil => exact fun best there _ => there
    | cons candidate rest ih =>
      intro best there all
      refine ih _ ?_ fun other listed => all other (List.mem_cons_of_mem _ listed)
      dsimp only
      split
      · exact all candidate List.mem_cons_self
      · exact there
  cases candidates with
  | nil => cases h
  | cons first rest =>
    rw [← Option.some.inj h]
    exact stays rest first List.mem_cons_self fun other listed => List.mem_cons_of_mem _ listed

namespace Field

/-- Whether a form can be lowered to code and reads a field. -/
structure IsRead (field : Field) (source : WordSource) (form : AccessExpr) : Prop where
  /-- The form can be lowered. -/
  lowerable : form.isLowerable source = true
  /-- Its value is that of the field in the middle word. -/
  exact : ∀ (window : Window) value, window.length = 96 →
    form.evaluate window value = field.extract (window.load 0)

section

variable {field : Field} {source : WordSource}

/-- What is said of alternatives under a condition may use the condition. -/
theorem forall_mem_onlyIf {α : Type} {condition : Bool} {alternatives : List α} {property : α → Prop}
    (h : condition = true → ∀ alternative ∈ alternatives, property alternative) :
    ∀ alternative ∈ onlyIf condition alternatives, property alternative := by
  cases condition with
  | true => exact h rfl
  | false => exact fun _ listed => absurd listed List.not_mem_nil

/-- A form reads a field if it does so bit by bit. -/
theorem IsRead.of_bits {form : AccessExpr} (lowerable : form.isLowerable source = true)
    (bits : ∀ (window : Window) value, window.length = 96 → ∀ index < 256,
      (form.evaluate window value).getLsbD index = (field.extract (window.load 0)).getLsbD index) :
    field.IsRead source form :=
  ⟨lowerable, fun window value full => BitVec.eq_of_getLsbD_eq fun index inside => bits window value full index inside⟩

/-- What is moved and masked lies inside a word. -/
theorem IsLegal.below (legal : field.IsLegal) :
    field.shift < wordBits ∧ field.unused < wordBits ∧ field.bitOffset < wordBits := by
  have counted := legal.counted
  have some := legal.some
  rw [wordBits]
  omega

/-- The forms that bring a field into the low bits read it. -/
theorem lowReads_isRead (legal : field.IsLegal) (low : field.leftAligned = false) :
    ∀ entry ∈ field.lowReads source, field.IsRead source entry.2 := by
  have counted := legal.counted
  have some := legal.some
  obtain ⟨shift, unused, offset⟩ := legal.below
  unfold lowReads
  refine List.forall_mem_append.mpr ⟨List.forall_mem_append.mpr ⟨List.forall_mem_append.mpr ⟨?_, ?_⟩, ?_⟩, ?_⟩
  · split
    · refine List.forall_mem_singleton.mpr (.of_bits (by simp [AccessExpr.isLowerable, shift]) ?_)
      intro window value full index inside
      simp only [AccessExpr.evaluate, if_pos shift, BitVec.getLsbD_ushiftRight, getLsbD_extract_low legal low]
      grind
    · split
      · refine List.forall_mem_singleton.mpr (.of_bits rfl ?_)
        intro window value full index inside
        simp only [AccessExpr.evaluate, BitVec.getLsbD_and, getLsbD_mask legal, getLsbD_extract_low legal low]
        grind
      · refine List.forall_mem_cons.mpr ⟨?_, List.forall_mem_cons.mpr ⟨?_, List.forall_mem_singleton.mpr ?_⟩⟩
        · refine .of_bits (by simp [AccessExpr.isLowerable, shift]) fun window value full index inside => ?_
          simp only [AccessExpr.evaluate, if_pos shift, BitVec.getLsbD_and, BitVec.getLsbD_ushiftRight,
            getLsbD_mask legal, getLsbD_extract_low legal low]
          grind
        · refine .of_bits (by simp [AccessExpr.isLowerable, shift]) fun window value full index inside => ?_
          simp only [AccessExpr.evaluate, if_pos shift, BitVec.getLsbD_and, BitVec.getLsbD_ushiftRight,
            getLsbD_inPlaceMask legal, getLsbD_extract_low legal low]
          grind
        · refine .of_bits (by simp [AccessExpr.isLowerable, unused, offset]) fun window value full index inside => ?_
          simp only [AccessExpr.evaluate, if_pos unused, if_pos offset, BitVec.getLsbD_shiftLeft,
            BitVec.getLsbD_ushiftRight, getLsbD_extract_low legal low]
          grind
  · refine forall_mem_onlyIf fun condition => List.forall_mem_singleton.mpr ?_
    simp only [startsOnByte, Bool.and_eq_true, beq_iff_eq] at condition
    have place : field.bitOffset / 8 < 32 := by omega
    refine .of_bits (by simp [AccessExpr.isLowerable, wordBytes, place]) fun window value full index inside => ?_
    simp only [AccessExpr.evaluate, Word.getLsbD_byte _ place, getLsbD_extract_low legal low]
    grind
  · refine forall_mem_onlyIf fun condition => List.forall_mem_singleton.mpr ?_
    simp only [endsOnByte, Bool.and_eq_true, beq_iff_eq, bne_iff_ne] at condition
    obtain ⟨⟨rfl, -⟩, ends⟩ := condition
    obtain ⟨count, whole⟩ : ∃ count, field.shift = 8 * count := ⟨field.shift / 8, by omega⟩
    have bytes : field.shift / 8 = count := by omega
    rw [bytes]
    refine .of_bits ?_ fun window value full index inside => ?_
    · simp only [AccessExpr.isLowerable, Int.ofNat_eq_natCast, beq_self_eq_true, Bool.true_and, Bool.and_true,
        Bool.and_eq_true, decide_eq_true_eq]
      omega
    · simp only [AccessExpr.evaluate, BitVec.getLsbD_and, getLsbD_mask legal, getLsbD_extract_low legal low]
      by_cases below : index < field.bitLength
      · rw [Window.getLsbD_load_before full (by omega) (by omega), Bool.and_comm, whole, Nat.add_comm]
      · simp [below]
  · refine forall_mem_onlyIf fun condition => List.forall_mem_singleton.mpr ?_
    simp only [startsOnByte, Bool.and_eq_true, beq_iff_eq, bne_iff_ne] at condition
    obtain ⟨⟨rfl, -⟩, starts⟩ := condition
    obtain ⟨count, whole⟩ : ∃ count, field.bitOffset = 8 * count := ⟨field.bitOffset / 8, by omega⟩
    have bytes : (field.bitOffset : Int) / 8 = count := by omega
    rw [bytes]
    refine .of_bits ?_ fun window value full index inside => ?_
    · simp only [AccessExpr.isLowerable, unused, beq_self_eq_true, decide_true, Bool.true_and, Bool.and_eq_true,
        decide_eq_true_eq]
      omega
    · simp only [AccessExpr.evaluate, if_pos unused, BitVec.getLsbD_ushiftRight, getLsbD_extract_low legal low]
      by_cases below : index < field.bitLength
      · rw [Window.getLsbD_load_behind full (by omega) (by omega) (by omega), decide_eq_true below, Bool.true_and]
        congr 1
        omega
      · rw [decide_eq_false below, Bool.false_and]
        exact BitVec.getLsbD_of_ge _ _ (by omega)

/-- The forms that bring a field into the high bits read it. -/
theorem highReads_isRead (legal : field.IsLegal) (high : field.leftAligned = true) :
    ∀ entry ∈ field.highReads source, field.IsRead source entry.2 := by
  have counted := legal.counted
  have some := legal.some
  obtain ⟨shift, unused, offset⟩ := legal.below
  unfold highReads
  refine List.forall_mem_append.mpr ⟨List.forall_mem_append.mpr ⟨List.forall_mem_append.mpr
    ⟨List.forall_mem_append.mpr ⟨?_, ?_⟩, ?_⟩, ?_⟩, ?_⟩
  · split
    · refine List.forall_mem_singleton.mpr (.of_bits rfl ?_)
      intro window value full index inside
      simp only [AccessExpr.evaluate, BitVec.getLsbD_and, getLsbD_highMask legal inside,
        getLsbD_extract_high legal high _ inside]
      grind
    · split
      · refine List.forall_mem_singleton.mpr (.of_bits (by simp [AccessExpr.isLowerable, offset]) ?_)
        intro window value full index inside
        simp only [AccessExpr.evaluate, if_pos offset, BitVec.getLsbD_shiftLeft,
          getLsbD_extract_high legal high _ inside]
        grind
      · refine List.forall_mem_singleton.mpr (.of_bits (by simp [AccessExpr.isLowerable, offset]) ?_)
        intro window value full index inside
        simp only [AccessExpr.evaluate, if_pos offset, BitVec.getLsbD_and, BitVec.getLsbD_shiftLeft,
          getLsbD_highMask legal inside, getLsbD_extract_high legal high _ inside]
        grind
  · refine forall_mem_onlyIf fun _ => List.forall_mem_singleton.mpr ?_
    refine .of_bits (by simp [AccessExpr.isLowerable, unused, shift]) fun window value full index inside => ?_
    simp only [AccessExpr.evaluate, if_pos unused, if_pos shift, BitVec.getLsbD_shiftLeft, BitVec.getLsbD_ushiftRight,
      getLsbD_extract_high legal high _ inside]
    grind
  · refine forall_mem_onlyIf fun _ => List.forall_mem_singleton.mpr ?_
    refine .of_bits (by simp [AccessExpr.isLowerable, offset]) fun window value full index inside => ?_
    simp only [AccessExpr.evaluate, if_pos offset, BitVec.getLsbD_shiftLeft, BitVec.getLsbD_and,
      getLsbD_inPlaceMask legal, getLsbD_extract_high legal high _ inside]
    grind
  · refine forall_mem_onlyIf fun condition => List.forall_mem_singleton.mpr ?_
    simp only [startsOnByte, Bool.and_eq_true, beq_iff_eq] at condition
    have place : field.bitOffset / 8 < 32 := by omega
    have moved : wordBits - 8 < wordBits := by decide
    refine .of_bits (by simp [AccessExpr.isLowerable, wordBytes, place, moved]) fun window value full index inside => ?_
    simp only [AccessExpr.evaluate, if_pos moved, BitVec.getLsbD_shiftLeft, Word.getLsbD_byte _ place,
      getLsbD_extract_high legal high _ inside]
    have top : field.unused = 248 ∧ wordBits - 8 = 248 := ⟨by omega, rfl⟩
    rw [top.1, top.2]
    by_cases above : index < 248
    · simp [above]
    · have same : 8 * (31 - field.bitOffset / 8) + (index - 248) = field.shift + (index - 248) := by omega
      simp [above, inside, same, show 248 ≤ index from by omega, show index - 248 < 8 from by omega]
  · refine forall_mem_onlyIf fun condition => List.forall_mem_singleton.mpr ?_
    simp only [startsOnByte, Bool.and_eq_true, beq_iff_eq, bne_iff_ne] at condition
    obtain ⟨⟨rfl, -⟩, starts⟩ := condition
    obtain ⟨count, whole⟩ : ∃ count, field.bitOffset = 8 * count := ⟨field.bitOffset / 8, by omega⟩
    have bytes : (field.bitOffset : Int) / 8 = count := by omega
    rw [bytes]
    refine .of_bits ?_ fun window value full index inside => ?_
    · simp only [AccessExpr.isLowerable, beq_self_eq_true, Bool.true_and, Bool.and_true, Bool.and_eq_true,
        decide_eq_true_eq]
      omega
    · simp only [AccessExpr.evaluate, BitVec.getLsbD_and, getLsbD_highMask legal inside,
        getLsbD_extract_high legal high _ inside]
      by_cases above : field.unused ≤ index
      · rw [Window.getLsbD_load_behind full (by omega) (by omega) inside, Bool.and_comm]
        congr 2
        omega
      · simp [above]

/-- A field of a whole word is the word. -/
theorem extract_whole (legal : field.IsLegal) (whole : field.bitLength = wordBits) (word : Word) :
    field.extract word = word := by
  have counted := legal.counted
  rw [wordBits] at whole
  refine BitVec.eq_of_getLsbD_eq fun index inside => ?_
  rw [getLsbD_extract legal]
  split <;> grind

/-- Every form that reads a field has its value. -/
theorem reads_isRead (legal : field.IsLegal) : ∀ entry ∈ field.reads source, field.IsRead source entry.2 := by
  unfold reads
  split
  · rename_i whole
    exact List.forall_mem_singleton.mpr ⟨rfl, fun window value full => (extract_whole legal whole _).symm⟩
  · split
    · rename_i high
      exact highReads_isRead legal high
    · rename_i low
      exact lowReads_isRead legal (Bool.eq_false_iff.mpr low)

/-- The form that is chosen reads the field. -/
theorem cheapestRead_isRead (legal : field.IsLegal) {model : CostModel} {chosen : Candidate AccessExpr}
    (h : field.cheapestRead source model = .ok chosen) : field.IsRead source chosen.form := by
  unfold cheapestRead at h
  split at h
  · rename_i candidate found
    cases h
    obtain ⟨entry, listed, rfl⟩ := List.mem_map.mp (Candidate.mem_of_cheapest? found)
    exact reads_isRead legal entry listed
  · cases h

end

end Field

end YulAbi
