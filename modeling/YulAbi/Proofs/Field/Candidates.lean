import YulAbi.Proofs.Field.Reads

/-!
# Every form writes the field

Whatever the source of the word, all forms that write a field leave a window in which the field
of the middle word has been replaced, and nothing else. Bits of the value that do not belong to
the field are dropped.

Every field has a form that reads it and one that writes it, and all of them do the same. What
they cost decides which one is used, and has no other effect: whatever the prices, a candidate is
chosen, and what was written is read back without the bits that the field does not hold.
-/

namespace YulAbi

/-- Whether a write can be lowered to code: one that is not of a whole word is near and in memory. -/
def WriteForm.isLowerable (source : WordSource) : WriteForm → Bool
  | .word expr => expr.isLowerable source
  | .store8 offset expr =>
    source == .memory && decide (0 ≤ offset) && decide (offset < 32) && expr.isLowerable source
  | .window offset expr =>
    source == .memory && decide (-32 ≤ offset) && decide (offset ≤ 32) && expr.isLowerable source

namespace Field

/-- Whether a form can be lowered to code and writes a field. -/
structure IsWrite (field : Field) (source : WordSource) (form : WriteForm) : Prop where
  /-- The form can be lowered. -/
  lowerable : form.isLowerable source = true
  /-- There are still three words. -/
  full : ∀ (window : Window) value, window.length = 96 → (form.apply window value).length = 96
  /-- The field of the middle word is replaced, and nothing else. -/
  exact : ∀ (window : Window) value, window.length = 96 → ∀ position,
    bitAt (form.apply window value) position =
      if 256 ≤ position ∧ position < 512 then (field.insert (window.load 0) value).getLsbD (511 - position)
      else bitAt window position

section

variable {field : Field} {source : WordSource} {window : Window} {value : Word}

/-- The bits of the middle word. -/
theorem getLsbD_middle (full : window.length = 96) {position : Nat} (lower : 256 ≤ position) (upper : position < 512) :
    (window.load 0).getLsbD (511 - position) = bitAt window position := by
  rw [Window.getLsbD_load (Window.reaches_zero full) (by omega)]
  congr 1
  omega

/-- A form that replaces the word writes a field if it has the word with the field replaced. -/
theorem IsWrite.of_word {expr : AccessExpr} (lowerable : expr.isLowerable source = true)
    (exact : ∀ (window : Window) value, window.length = 96 →
      expr.evaluate window value = field.insert (window.load 0) value) : field.IsWrite source (.word expr) := by
  refine ⟨lowerable, fun window value full => ?_, fun window value full position => ?_⟩
  · rw [WriteForm.apply, Window.store, Window.length_put (by rw [Word.toBytes_length, full]; decide), full]
  · rw [WriteForm.apply, Window.bitAt_store (Window.reaches_zero full), exact window value full]
    exact if_congr (by omega) rfl rfl

/-- What replaces the word is the word with the field replaced. -/
theorem IsWrite.evaluate {expr : AccessExpr} (h : field.IsWrite source (.word expr)) (full : window.length = 96) :
    expr.evaluate window value = field.insert (window.load 0) value := by
  refine BitVec.eq_of_getLsbD_eq fun index inside => ?_
  have exact := h.exact window value full (511 - index)
  rw [WriteForm.apply, Window.bitAt_store (Window.reaches_zero full), if_pos (by omega), if_pos (by omega),
    show 511 - (511 - index) = index from by omega] at exact
  rw [← exact]
  congr 1
  omega

/-- The middle word after a write. -/
theorem IsWrite.load {form : WriteForm} (h : field.IsWrite source form) (value : Word) (full : window.length = 96) :
    (form.apply window value).load 0 = field.insert (window.load 0) value := by
  refine BitVec.eq_of_getLsbD_eq fun index inside => ?_
  rw [Window.getLsbD_load (Window.reaches_zero (h.full window value full)) inside, h.exact window value full,
    if_pos (by omega)]
  congr 1
  omega

/-- The words around the middle one after a write. -/
theorem IsWrite.around {form : WriteForm} (h : field.IsWrite source form) (value : Word) (full : window.length = 96) :
    (form.apply window value).take 32 = window.take 32 ∧ (form.apply window value).drop 64 = window.drop 64 := by
  have full' := h.full window value full
  constructor
  · refine eq_of_bitAt_eq (by rw [List.length_take, List.length_take, full', full]) fun position inside => ?_
    rw [List.length_take, full'] at inside
    have same := h.exact window value full position
    rw [if_neg (by omega)] at same
    simpa only [bitAt, List.getD_eq_getElem?_getD, List.getElem?_take, if_pos (show position / 8 < 32 from by omega)]
      using same
  · refine eq_of_bitAt_eq (by rw [List.length_drop, List.length_drop, full', full]) fun position inside => ?_
    rw [List.length_drop, full'] at inside
    have same := h.exact window value full (512 + position)
    rw [if_neg (by omega)] at same
    simpa only [bitAt, List.getD_eq_getElem?_getD, List.getElem?_drop,
      show (512 + position) / 8 = 64 + position / 8 from by omega,
      show (512 + position) % 8 = position % 8 from by omega] using same

/-- The bits of the value in the place of the field. -/
theorem getLsbD_placed (legal : field.IsLegal) {index : Nat} (inside : index < 256) :
    (field.movedValue.evaluate window value &&& field.inPlaceMask).getLsbD index =
      (decide (field.shift ≤ index ∧ index < field.shift + field.bitLength) &&
        value.getLsbD (index - field.shift + if field.leftAligned then field.unused else 0)) := by
  have counted := legal.counted
  obtain ⟨shift, unused, offset⟩ := legal.below
  rw [BitVec.getLsbD_and, getLsbD_inPlaceMask legal]
  unfold movedValue
  split <;> split
  · simp only [AccessExpr.evaluate]
    grind
  · simp only [AccessExpr.evaluate, if_pos offset, BitVec.getLsbD_ushiftRight]
    grind
  · simp only [AccessExpr.evaluate]
    grind
  · simp only [AccessExpr.evaluate, if_pos shift, BitVec.getLsbD_shiftLeft]
    grind

/-- The value in the place of the field makes up the new word together with what is kept. -/
theorem kept_or_placed (legal : field.IsLegal) (word : Word) :
    word &&& ~~~field.inPlaceMask ||| field.movedValue.evaluate window value &&& field.inPlaceMask =
      field.insert word value := by
  refine BitVec.eq_of_getLsbD_eq fun index inside => ?_
  rw [BitVec.getLsbD_or, BitVec.getLsbD_and, BitVec.getLsbD_not, getLsbD_inPlaceMask legal,
    getLsbD_placed legal inside, getLsbD_insert legal _ _ inside]
  grind

/-- The value moved to the place of the field can be lowered. -/
theorem movedValue_isLowerable (legal : field.IsLegal) : field.movedValue.isLowerable source = true := by
  obtain ⟨shift, -, offset⟩ := legal.below
  unfold movedValue
  split <;> split <;> simp [AccessExpr.isLowerable, shift, offset]

/-- A field of one whole byte is written by storing a byte. -/
theorem store8_isWrite (legal : field.IsLegal) (byte : field.bitLength = 8) (starts : field.bitOffset % 8 = 0) :
    field.IsWrite .memory (.store8 (field.bitOffset / 8)
      (if field.leftAligned then .shr (wordBits - 8) .value else .value)) := by
  have counted := legal.counted
  obtain ⟨count, whole⟩ : ∃ count, field.bitOffset = 8 * count := ⟨field.bitOffset / 8, by omega⟩
  have bytes : (field.bitOffset : Int) / 8 = count := by omega
  have start : (32 + (count : Int)).toNat = 32 + count := by omega
  have top : wordBits - 8 < wordBits := by decide
  rw [bytes]
  refine ⟨?_, fun window value full => ?_, fun window value full position => ?_⟩
  · have near : (0 : Int) ≤ count ∧ (count : Int) < 32 := by omega
    cases field.leftAligned <;> simp [WriteForm.isLowerable, AccessExpr.isLowerable, near, top]
  · rw [WriteForm.apply, start, Window.length_put (by rw [List.length_singleton]; omega), full]
  · rw [WriteForm.apply, start, Window.bitAt_store8 full (by omega)]
    by_cases middle : 256 ≤ position ∧ position < 512
    · rw [if_pos middle, getLsbD_insert legal _ _ (by omega), getLsbD_middle full middle.1 middle.2]
      refine ite_congr (propext (by omega)) (fun between => ?_) fun _ => rfl
      cases field.leftAligned with
      | true =>
        simp only [AccessExpr.evaluate, if_pos top, if_true, BitVec.getLsbD_ushiftRight]
        congr 1
        rw [wordBits]
        omega
      | false =>
        simp only [AccessExpr.evaluate, Bool.false_eq_true, if_false]
        congr 1
        omega
    · rw [if_neg middle, if_neg (by omega)]

/-- The bits of the value moved to the low end, with what is kept of a word above it. -/
theorem getLsbD_lowPlaced (legal : field.IsLegal) (kept : Word) {index : Nat} (inside : index < 256) :
    (kept &&& ~~~field.mask ||| (if field.leftAligned then AccessExpr.shr field.unused .value
        else .and .value (.literal field.mask)).evaluate window value).getLsbD index =
      if index < field.bitLength then value.getLsbD (index + if field.leftAligned then field.unused else 0)
      else kept.getLsbD index := by
  have counted := legal.counted
  obtain ⟨-, unused, -⟩ := legal.below
  simp only [BitVec.getLsbD_or, BitVec.getLsbD_and, BitVec.getLsbD_not, getLsbD_mask legal, inside]
  cases field.leftAligned with
  | true =>
    simp only [if_true, AccessExpr.evaluate, if_pos unused, BitVec.getLsbD_ushiftRight]
    grind
  | false =>
    simp only [Bool.false_eq_true, if_false, AccessExpr.evaluate, BitVec.getLsbD_and, getLsbD_mask legal]
    grind

/-- A field that ends with a byte is written by storing the word that ends where it does. -/
theorem window_isWrite (legal : field.IsLegal) (ends : field.shift % 8 = 0) :
    field.IsWrite .memory (.window (-Int.ofNat (field.shift / 8))
      (.or (.and (.load (-Int.ofNat (field.shift / 8))) (.not (.literal field.mask)))
        (if field.leftAligned then .shr field.unused .value else .and .value (.literal field.mask)))) := by
  have counted := legal.counted
  obtain ⟨-, unused, -⟩ := legal.below
  obtain ⟨count, whole⟩ : ∃ count, field.shift = 8 * count := ⟨field.shift / 8, by omega⟩
  have bytes : -Int.ofNat (field.shift / 8) = -(count : Int) := by
    rw [Int.ofNat_eq_natCast]
    omega
  have near : -32 ≤ -(count : Int) ∧ -(count : Int) ≤ 32 := by omega
  have start : (32 + -(count : Int)).toNat = 32 - count := by omega
  rw [bytes]
  refine ⟨?_, fun window value full => ?_, fun window value full position => ?_⟩
  · simp only [WriteForm.isLowerable, AccessExpr.isLowerable, near, beq_self_eq_true, decide_true, Bool.true_and]
    cases field.leftAligned <;> simp [AccessExpr.isLowerable, unused]
  · rw [WriteForm.apply, Window.store, start, Window.length_put (by rw [Word.toBytes_length]; omega), full]
  · have reaches : window.Reaches (-(count : Int)) := ⟨full, near.1, near.2⟩
    rw [WriteForm.apply, Window.bitAt_store reaches, start]
    by_cases stored : 8 * (32 - count) ≤ position ∧ position < 8 * (32 - count) + 256
    · have loaded := Window.getLsbD_load reaches (show 8 * (32 - count) + 255 - position < 256 by omega)
      rw [start, show 8 * (32 - count) + (255 - (8 * (32 - count) + 255 - position)) = position from by omega] at loaded
      rw [if_pos stored]
      simp only [AccessExpr.evaluate]
      rw [getLsbD_lowPlaced legal _ (by omega), loaded]
      by_cases middle : 256 ≤ position ∧ position < 512
      · rw [if_pos middle, getLsbD_insert legal _ _ (by omega), getLsbD_middle full middle.1 middle.2]
        refine ite_congr (propext (by omega)) (fun below => ?_) fun _ => rfl
        congr 2
        omega
      · rw [if_neg middle, if_neg (by omega)]
    · rw [if_neg stored]
      by_cases middle : 256 ≤ position ∧ position < 512
      · rw [if_pos middle, getLsbD_insert legal _ _ (by omega), getLsbD_middle full middle.1 middle.2, if_neg (by omega)]
      · rw [if_neg middle]

/-- The forms that write a part of a word write it. -/
theorem partialWrites_isWrite (legal : field.IsLegal) :
    ∀ entry ∈ field.partialWrites source, field.IsWrite source entry.2 := by
  have counted := legal.counted
  obtain ⟨shift, -, -⟩ := legal.below
  have moved : field.movedValue.isLowerable source = true := movedValue_isLowerable legal
  unfold partialWrites
  refine List.forall_mem_append.mpr ⟨List.forall_mem_append.mpr ⟨List.forall_mem_append.mpr
    ⟨List.forall_mem_cons.mpr ⟨?_, List.forall_mem_singleton.mpr ?_⟩, ?_⟩, ?_⟩, ?_⟩
  · exact .of_word (by simp [AccessExpr.isLowerable, moved]) fun window value full => kept_or_placed legal _
  · exact .of_word (by simp [AccessExpr.isLowerable, moved]) fun window value full => kept_or_placed legal _
  · refine forall_mem_onlyIf fun _ => List.forall_mem_singleton.mpr ?_
    refine .of_word (by simp [AccessExpr.isLowerable, moved, shift]) fun window value full => ?_
    simp only [AccessExpr.evaluate, if_pos shift]
    exact kept_or_placed legal _
  · refine forall_mem_onlyIf fun condition => List.forall_mem_singleton.mpr ?_
    simp only [startsOnByte, Bool.and_eq_true, beq_iff_eq] at condition
    obtain ⟨⟨rfl, byte⟩, starts⟩ := condition
    exact store8_isWrite legal byte starts
  · refine forall_mem_onlyIf fun condition => List.forall_mem_singleton.mpr ?_
    simp only [endsOnByte, Bool.and_eq_true, beq_iff_eq, bne_iff_ne] at condition
    obtain ⟨⟨rfl, -⟩, ends⟩ := condition
    exact window_isWrite legal (by omega)

/-- A field of a whole word is replaced by the value. -/
theorem insert_whole (legal : field.IsLegal) (whole : field.bitLength = wordBits) (word value : Word) :
    field.insert word value = value := by
  have counted := legal.counted
  rw [wordBits] at whole
  refine BitVec.eq_of_getLsbD_eq fun index inside => ?_
  rw [getLsbD_insert legal _ _ inside]
  split
  · split <;> congr 1 <;> omega
  · omega

/-- Every form that writes a field replaces it. -/
theorem writes_isWrite (legal : field.IsLegal) : ∀ entry ∈ field.writes source, field.IsWrite source entry.2 := by
  unfold writes
  split
  · rename_i whole
    exact List.forall_mem_singleton.mpr (.of_word rfl fun window value full => (insert_whole legal whole _ _).symm)
  · exact partialWrites_isWrite legal

/-- The form that is chosen writes the field. -/
theorem cheapestWrite_isWrite (legal : field.IsLegal) {model : CostModel} {chosen : Candidate WriteForm}
    (h : field.cheapestWrite source model = .ok chosen) : field.IsWrite source chosen.form := by
  unfold cheapestWrite at h
  split at h
  · rename_i candidate found
    cases h
    obtain ⟨entry, listed, rfl⟩ := List.mem_map.mp (Candidate.mem_of_cheapest? found)
    exact writes_isWrite legal entry listed
  · cases h

end

end Field

/-! ### The choice among candidates -/

/-- There is a cheapest one among some candidates. -/
theorem Candidate.exists_cheapest {α : Type} {candidates : List (Candidate α)} (some : candidates ≠ [])
    (model : CostModel) : ∃ candidate, cheapest? model candidates = .some candidate := by
  cases candidates with
  | nil => exact absurd rfl some
  | cons first rest => exact ⟨_, rfl⟩

namespace Field

/-- The value without the bits that the field does not hold: those below a left-aligned value, those above any other. -/
def normalized (field : Field) (value : Word) : Word :=
  if field.leftAligned then Word.ofNat (value.toNat / 2 ^ field.unused * 2 ^ field.unused)
  else Word.ofNat (value.toNat % 2 ^ field.bitLength)

section

variable {field : Field} {source : WordSource} {window : Window} {value : Word}

/-- Every field is read and written by some form. -/
theorem candidates_ne_nil (field : Field) (source : WordSource) :
    field.readCandidates source ≠ [] ∧ field.writeCandidates source ≠ [] := by
  simp only [readCandidates, writeCandidates, ne_eq, List.map_eq_nil_iff]
  unfold reads writes highReads lowReads partialWrites
  constructor
  · split_ifs <;> simp <;> split_ifs <;> simp
  · split_ifs <;> simp

/-- The bits that a field holds of a value. -/
theorem getLsbD_normalized (field : Field) (value : Word) {index : Nat} (inside : index < 256) :
    (field.normalized value).getLsbD index =
      if field.leftAligned then decide (field.unused ≤ index) && value.getLsbD index
      else decide (index < field.bitLength) && value.getLsbD index := by
  unfold normalized
  split
  · rw [BitVec.getLsbD_ofNat, Nat.testBit_mul_two_pow, Nat.testBit_div_two_pow, decide_eq_true inside, Bool.true_and]
    by_cases above : field.unused ≤ index
    · rw [Nat.sub_add_cancel above, BitVec.getLsbD]
    · rw [decide_eq_false above, Bool.false_and, Bool.false_and]
  · rw [BitVec.getLsbD_ofNat, Nat.testBit_mod_two_pow, decide_eq_true inside, Bool.true_and, BitVec.getLsbD]

/-- What is written to a field is read back without the bits that the field does not hold. -/
theorem extract_insert (legal : field.IsLegal) (word value : Word) :
    field.extract (field.insert word value) = field.normalized value := by
  have counted := legal.counted
  have inside : ∀ index < field.bitLength, (field.insert word value).getLsbD (field.shift + index) =
      value.getLsbD (index + if field.leftAligned then field.unused else 0) := by
    intro index below
    rw [getLsbD_insert legal _ _ (by omega), if_pos (by omega), Nat.add_sub_cancel_left]
  refine BitVec.eq_of_getLsbD_eq fun index short => ?_
  rw [getLsbD_normalized field _ short]
  cases aligned : field.leftAligned with
  | true =>
    rw [getLsbD_extract_high legal aligned _ short, if_pos rfl]
    by_cases above : field.unused ≤ index
    · rw [inside _ (by omega), aligned, if_pos rfl, Nat.sub_add_cancel above]
    · rw [decide_eq_false above, Bool.false_and, Bool.false_and]
  | false =>
    rw [getLsbD_extract_low legal aligned, if_neg Bool.false_ne_true]
    by_cases below : index < field.bitLength
    · rw [inside _ below, aligned, if_neg Bool.false_ne_true, Nat.add_zero]
    · rw [decide_eq_false below, Bool.false_and, Bool.false_and]

/-- Every candidate that reads a field has its value. -/
theorem readCandidates_isRead (legal : field.IsLegal) :
    ∀ candidate ∈ field.readCandidates source, field.IsRead source candidate.form := by
  intro candidate listed
  obtain ⟨entry, found, rfl⟩ := List.mem_map.mp listed
  exact reads_isRead legal entry found

/-- Every candidate that writes a field replaces it. -/
theorem writeCandidates_isWrite (legal : field.IsLegal) :
    ∀ candidate ∈ field.writeCandidates source, field.IsWrite source candidate.form := by
  intro candidate listed
  obtain ⟨entry, found, rfl⟩ := List.mem_map.mp listed
  exact writes_isWrite legal entry found

/-- A candidate that reads a field is chosen, whatever the model. -/
theorem exists_cheapestRead (field : Field) (source : WordSource) (model : CostModel) :
    ∃ candidate ∈ field.readCandidates source, field.cheapestRead source model = .ok candidate := by
  obtain ⟨candidate, chosen⟩ := Candidate.exists_cheapest (candidates_ne_nil field source).1 model
  exact ⟨candidate, Candidate.mem_of_cheapest? chosen, by rw [cheapestRead, chosen]⟩

/-- A candidate that writes a field is chosen, whatever the model. -/
theorem exists_cheapestWrite (field : Field) (source : WordSource) (model : CostModel) :
    ∃ candidate ∈ field.writeCandidates source, field.cheapestWrite source model = .ok candidate := by
  obtain ⟨candidate, chosen⟩ := Candidate.exists_cheapest (candidates_ne_nil field source).2 model
  exact ⟨candidate, Candidate.mem_of_cheapest? chosen, by rw [cheapestWrite, chosen]⟩

/-- It makes no difference which candidate accesses a field, for every field that is accepted and wherever its word is.
On every window all candidates for reading have the value of the field in the middle word, and all candidates for
writing replace the field there and nothing else. There are candidates of both kinds, some of them are chosen whatever
the model, and what was written is read back without the bits that the field does not hold. -/
theorem candidates_are_interchangeable {bitOffset bitLength : Nat} {leftAligned : Bool} {field : Field}
    (accepted : ofRange bitOffset bitLength leftAligned = .ok field) (source : WordSource) :
    (∀ window : Window, window.length = 96 → ∀ value,
      (∀ candidate ∈ field.readCandidates source,
        candidate.form.evaluate window value = field.extract (window.load 0)) ∧
      ∀ candidate ∈ field.writeCandidates source,
        (candidate.form.apply window value).length = 96 ∧
        (candidate.form.apply window value).load 0 = field.insert (window.load 0) value ∧
        (candidate.form.apply window value).take 32 = window.take 32 ∧
        (candidate.form.apply window value).drop 64 = window.drop 64) ∧
    (field.readCandidates source ≠ [] ∧ field.writeCandidates source ≠ []) ∧
    (∀ word value, field.extract (field.insert word value) = field.normalized value) ∧
    ∀ model,
      (∃ candidate ∈ field.readCandidates source, field.cheapestRead source model = .ok candidate) ∧
      ∃ candidate ∈ field.writeCandidates source, field.cheapestWrite source model = .ok candidate := by
  obtain ⟨-, legal⟩ := isLegal_of_ofRange accepted
  refine ⟨fun window full value => ⟨fun candidate listed => ?_, fun candidate listed => ?_⟩,
    candidates_ne_nil field source, extract_insert legal,
    fun model => ⟨exists_cheapestRead field source model, exists_cheapestWrite field source model⟩⟩
  · exact (readCandidates_isRead legal candidate listed).exact window value full
  · have writes := writeCandidates_isWrite legal candidate listed
    exact ⟨writes.full window value full, writes.load value full, writes.around value full⟩

/-- All ways to read the second byte of a word in memory give it, and all ways to write it drop what does not fit. -/
theorem second_byte_candidates_are_interchangeable :
    ofRange 8 8 false = .ok ⟨8, 8, false⟩ ∧ (List.replicate 96 (0xa5 : UInt8)).length = 96 ∧
    (∀ candidate ∈ readCandidates ⟨8, 8, false⟩ .memory,
      candidate.form.evaluate (List.replicate 96 0xa5) 0x1ff#256 = 0xa5#256) ∧
    (∀ candidate ∈ writeCandidates ⟨8, 8, false⟩ .memory,
      extract ⟨8, 8, false⟩ ((candidate.form.apply (List.replicate 96 0xa5) 0x1ff#256).load 0) = 0xff#256) ∧
    (readCandidates ⟨8, 8, false⟩ .memory).length = 6 ∧ (writeCandidates ⟨8, 8, false⟩ .memory).length = 5 := by
  have accepted : ofRange 8 8 false = .ok ⟨8, 8, false⟩ := rfl
  obtain ⟨same, -, kept, -⟩ := candidates_are_interchangeable accepted .memory
  obtain ⟨reads, writes⟩ := same (List.replicate 96 0xa5) (by decide) 0x1ff#256
  refine ⟨accepted, by decide, fun candidate listed => ?_, fun candidate listed => ?_, by decide +kernel,
    by decide +kernel⟩
  · rw [reads candidate listed]
    decide +kernel
  · rw [(writes candidate listed).2.1, kept]
    decide +kernel

end

end Field

end YulAbi
