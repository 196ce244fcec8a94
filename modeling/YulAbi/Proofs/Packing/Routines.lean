import YulAbi.Packing.Accessors
import YulAbi.Proofs.Emission
import YulAbi.Proofs.Field.Bits
import YulAbi.Proofs.Field.Lowered
import YulAbi.Proofs.Packing.Layout
import YulAbi.Proofs.Yul.Execution

/-!
# Generated accessors

What a field of a layout is in a word: its bits, the bits that it takes of a value that is
written, and the word that its bits are shown as. Values of most types are at the low end,
those of some at the high end, and signed ones are extended.

A getter reads its field by some form, and extends the sign if the field is signed; a setter
writes it by some form. Both find the word that holds the field behind their first argument:
the word itself, or a place in memory or storage.
-/

namespace YulAbi.Placement

/-- The bits of the field in a word. -/
def bits (placement : Placement) (word : Word) : BitVec placement.bitLength :=
  word.extractLsb' (wordBits - placement.bitEnd) placement.bitLength

/-- The bits that the field takes of a value: the high ones if values are left-aligned, the low ones otherwise. -/
def reduced (placement : Placement) (value : Word) : BitVec placement.bitLength :=
  if placement.shape.isLeftAligned then value.extractLsb' (wordBits - placement.bitLength) placement.bitLength
  else value.setWidth placement.bitLength

/-- The word that the bits of the field stand for. -/
def shown (placement : Placement) (bits : BitVec placement.bitLength) : Word :=
  if placement.shape.isLeftAligned then bits.setWidth 256 <<< (wordBits - placement.bitLength)
  else if placement.shape.isSigned then bits.signExtend 256 else bits.setWidth 256

/-- The field as a range of bits. -/
def field (placement : Placement) : Field :=
  ⟨placement.bitOffset, placement.bitLength, placement.shape.isLeftAligned⟩

section

variable {placement : Placement} (some : 0 < placement.bitLength) (fits : placement.bitEnd ≤ wordBits)

include some fits

/-- A field of a valid layout is legal. -/
theorem field_isLegal : placement.field.IsLegal := ⟨some, fits⟩

/-- Reading a field gives its bits at one end of a word. -/
theorem extract_field (word : Word) : placement.field.extract word =
    if placement.shape.isLeftAligned then (placement.bits word).setWidth 256 <<< (wordBits - placement.bitLength)
    else (placement.bits word).setWidth 256 := by
  have legal := field_isLegal some fits
  have counted := legal.counted
  simp only [bitEnd, wordBits] at fits
  refine BitVec.eq_of_getLsbD_eq fun index inside => ?_
  rw [Field.getLsbD_extract legal]
  simp only [field, Field.shift, Field.unused, wordBits] at counted ⊢
  split
  · simp only [BitVec.getLsbD_shiftLeft, BitVec.getLsbD_setWidth, bits, BitVec.getLsbD_extractLsb', bitEnd, wordBits]
    grind
  · simp only [BitVec.getLsbD_setWidth, bits, BitVec.getLsbD_extractLsb', bitEnd, wordBits]
    grind

/-- Writing a field leaves the bits of the value in it. -/
theorem bits_insert (word value : Word) : placement.bits (placement.field.insert word value) = placement.reduced value := by
  have legal := field_isLegal some fits
  have counted := legal.counted
  have shift : placement.field.shift = wordBits - placement.bitEnd := by
    simp only [field, Field.shift, bitEnd, wordBits]
    omega
  have length : placement.field.bitLength = placement.bitLength := rfl
  refine BitVec.eq_of_getLsbD_eq fun index inside => ?_
  rw [bits, BitVec.getLsbD_extractLsb', decide_eq_true inside, Bool.true_and, ← shift,
    Field.getLsbD_insert legal _ _ (by omega), if_pos (by omega), Nat.add_sub_cancel_left, reduced]
  change value.getLsbD (index + if placement.shape.isLeftAligned then wordBits - placement.bitLength else 0) = _
  split
  · rw [BitVec.getLsbD_extractLsb', decide_eq_true inside, Bool.true_and, Nat.add_comm]
  · rw [BitVec.getLsbD_setWidth, decide_eq_true inside, Bool.true_and, Nat.add_zero]

/-- Writing a field keeps all other bits of the word. -/
theorem getMsbD_insert (word value : Word) {bit : Nat} (apart : bit < placement.bitOffset ∨ placement.bitEnd ≤ bit) :
    (placement.field.insert word value).getMsbD bit = word.getMsbD bit := by
  have legal := field_isLegal some fits
  have counted := legal.counted
  simp only [bitEnd, wordBits] at fits apart
  simp only [BitVec.getMsbD_eq_getLsbD]
  by_cases inside : bit < 256
  · rw [Field.getLsbD_insert legal _ _ (by omega), if_neg]
    simp only [field, Field.shift, wordBits] at counted ⊢
    omega
  · simp [inside]

omit some in
/-- Words with the same bits in the place of a field hold the same in it. -/
theorem bits_congr {word word' : Word}
    (same : ∀ bit, placement.bitOffset ≤ bit → bit < placement.bitEnd → word.getMsbD bit = word'.getMsbD bit) :
    placement.bits word = placement.bits word' := by
  simp only [bitEnd, wordBits] at fits same
  refine BitVec.eq_of_getLsbD_eq fun index inside => ?_
  have bit := same (placement.bitEnd - 1 - index) (by simp only [bitEnd]; omega) (by simp only [bitEnd]; omega)
  simp only [BitVec.getMsbD_eq_getLsbD, bitEnd] at bit
  simp only [bits, BitVec.getLsbD_extractLsb', inside, decide_true, Bool.true_and, bitEnd, wordBits]
  rw [decide_eq_true (by omega), Bool.true_and, Bool.true_and] at bit
  rwa [show 256 - 1 - (placement.bitOffset + placement.bitLength - 1 - index) =
    256 - (placement.bitOffset + placement.bitLength) + index from by omega] at bit

/-- Extending the sign of what is read at the low end extends the bits of the field. -/
theorem signExtend_extract (low : placement.shape.isLeftAligned = false) (short : placement.bitLength < wordBits)
    (whole : placement.bitLength % 8 = 0) (word : Word) :
    Word.signExtend (Word.ofNat (placement.bitLength / 8 - 1)) (placement.field.extract word) =
      (placement.bits word).signExtend 256 := by
  rw [extract_field some fits, low, if_neg Bool.false_ne_true]
  simp only [wordBits] at short
  have count : (Word.ofNat (placement.bitLength / 8 - 1)).toNat = placement.bitLength / 8 - 1 :=
    Word.toNat_ofNat (by omega)
  have width : 8 * (placement.bitLength / 8 - 1) + 8 = placement.bitLength := by omega
  have last : 8 * (placement.bitLength / 8 - 1) + 7 = placement.bitLength - 1 := by omega
  generalize placement.bits word = bits
  have sign : bits.msb = bits.getLsbD (placement.bitLength - 1) := BitVec.msb_eq_getLsbD_last bits
  rw [Word.signExtend, count, if_pos (by omega)]
  simp only [width, last]
  refine BitVec.eq_of_getLsbD_eq fun index inside => ?_
  rw [BitVec.getLsbD_signExtend, sign, decide_eq_true inside, Bool.true_and, BitVec.getLsbD_setWidth,
    decide_eq_true (by omega), Bool.true_and]
  have mask : (Word.lowMask placement.bitLength).getLsbD index = decide (index < placement.bitLength) :=
    Word.getLsbD_lowMask (by omega) index
  split
  · rw [BitVec.getLsbD_or, BitVec.getLsbD_not, BitVec.getLsbD_setWidth, mask]
    grind
  · rw [BitVec.getLsbD_and, BitVec.getLsbD_setWidth, mask]
    grind

end

end YulAbi.Placement

namespace YulAbi

/-! ### Routines -/

/-- The word in a slot of storage, as a step. -/
def Machine.fetchSlot (slot : Word) : MachineStep Word := do return (← get).sload slot

namespace Packing

open Yul (Expr Stmt Block Frame Routine)

/-- The place of the word of a slot, given the first argument. -/
def wordPlace (source : WordSource) (slot : Nat) (argument : Word) : Word :=
  match source with
  | .stack => argument
  | .memory => argument + Word.ofNat (slot * wordBytes)
  | .storage => argument + Word.ofNat slot

/-- How the word at a place is read. -/
def fetch (source : WordSource) (location : Word) : MachineStep Word :=
  match source with
  | .stack => pure location
  | .memory => Machine.mload location
  | .storage => Machine.fetchSlot location

/-- Whether the sign is extended when a field is read. -/
def isExtended (placement : Placement) : Bool :=
  placement.shape.isSigned && decide (placement.bitLength < wordBits) && placement.bitLength % 8 == 0

/-- What a getter answers with, given what is read. -/
def extended (placement : Placement) (word : Word) : Word :=
  if isExtended placement then Word.signExtend (Word.ofNat (placement.bitLength / 8 - 1)) word else word

section

variable {unit : CodeUnit} {frame : Frame} {source : WordSource} {placement : Placement} {name : String}
  {argument value : Word}

/-- The place of a word in code. -/
theorem wordLocation_acts (slot : Nat) (found : frame.find? (baseName source) = some argument) :
    Expr.Acts unit frame (wordLocation source slot) (pure (wordPlace source slot argument)) := by
  have base : Expr.Acts unit frame (.ident (baseName source)) (pure argument) := .ident found
  cases source with
  | stack => exact base
  | memory => exact base.sum (.number _)
  | storage => exact base.sum (.number _)

/-- The word at a place in code. -/
theorem wordAt_acts (slot : Nat) (found : frame.find? (baseName source) = some argument) :
    Expr.Acts unit frame (wordAt source (wordLocation source slot)) (fetch source (wordPlace source slot argument)) := by
  have location : Expr.Acts unit frame (wordLocation source slot) (pure (wordPlace source slot argument)) :=
    wordLocation_acts slot found
  cases source with
  | stack => exact .ident found
  | memory => exact location.mloadAt
  | storage =>
    have acts : Expr.Acts unit frame (.builtin .sload [wordLocation .storage slot])
        (pure (wordPlace .storage slot argument) >>= Machine.fetchSlot) :=
      .unary Machine.fetchSlot location rfl fun _ => by simp [Yul.Builtin.apply, Machine.fetchSlot]
    rwa [pure_bind] at acts

/-- A getter reads by its form and extends the sign. -/
theorem getter_acts {form : AccessExpr} (found : unit.routine? name = some (getter source placement form name))
    (argument : Word) : unit.CallActs name [argument] (do
      let word ← form.effect (fetch source (wordPlace source placement.slot argument))
        (wordPlace source placement.slot argument) 0#256
      return [extended placement word]) := by
  let frame : Frame := ⟨name, [[], [("value", 0#256), (baseName source, argument)]]⟩
  have base : frame.find? (baseName source) = some argument := by cases source <;> rfl
  have entered : ((getter source placement form name).entry [argument]).opened = frame := by cases source <;> rfl
  have given : Expr.Acts unit frame (.ident "value") (pure 0#256) := .ident rfl
  have word := form.toYul_acts (wordAt_acts placement.slot base) (wordLocation_acts placement.slot base) given
  have result : Expr.Acts unit frame (if isExtended placement then
      .signextend (.number (placement.bitLength / 8 - 1)) (form.toYul (wordAt source (wordLocation source placement.slot))
        (wordLocation source placement.slot) (.ident "value"))
      else form.toYul (wordAt source (wordLocation source placement.slot)) (wordLocation source placement.slot)
        (.ident "value")) (do
      let word ← form.effect (fetch source (wordPlace source placement.slot argument))
        (wordPlace source placement.slot argument) 0#256
      return extended placement word) := by
    unfold extended
    split
    · simpa [Expr.signextend] using
        Expr.Acts.binary (fun x y => pure (Word.signExtend x y)) (.number _) word rfl fun _ _ => rfl
    · simpa using word
  have found' : ∀ word, Frame.assignIn "value" word frame.scopes =
      some [[], [("value", word), (baseName source, argument)]] := fun word => by cases source <;> rfl
  have runs := Block.Runs.last (Stmt.Acts.assignTo result found') fun _ => rfl
  rw [← entered] at runs
  have shown : ∀ word, [(⟨name, [[("value", word), (baseName source, argument)]]⟩ : Frame).find? "value"] =
      [word].map some := fun _ => rfl
  simpa using CodeUnit.CallActs.of_routine found rfl runs shown

/-- The variables of a setter. -/
def setterFrame (source : WordSource) (name : String) (argument value : Word) : Frame :=
  ⟨name, [[], [("value", value), (baseName source, argument)]]⟩

/-- What a setter is given is found. -/
theorem find?_setterFrame (source : WordSource) (name : String) (argument value : Word) :
    (setterFrame source name argument value).find? (baseName source) = some argument ∧
      (setterFrame source name argument value).find? "value" = some value := by
  cases source <;> exact ⟨rfl, rfl⟩

/-- A setter for the stack answers with the new word. -/
theorem stackSetter_acts {form : AccessExpr}
    (found : unit.routine? name = some (setter .stack placement (.word form) name)) (word value : Word) :
    unit.CallActs name [word, value] (do
      let next ← form.effect (pure word) word value
      return [next]) := by
  let frame : Frame := ⟨name, [[], [("newWord", 0#256), ("value", value), ("word", word)]]⟩
  have current : frame.find? "word" = some word := rfl
  have entered : ((setter .stack placement (.word form) name).entry [word, value]).opened = frame := rfl
  have base : Expr.Acts unit frame (.ident "word") (pure word) := .ident current
  have given : Expr.Acts unit frame (.ident "value") (pure value) := .ident rfl
  have result := form.toYul_acts base base given
  have found' : ∀ next, Frame.assignIn "newWord" next frame.scopes =
      some [[], [("newWord", next), ("value", value), ("word", word)]] := fun _ => rfl
  have runs := Block.Runs.last (Stmt.Acts.assignTo result found') fun _ => rfl
  rw [← entered] at runs
  exact CodeUnit.CallActs.of_routine found rfl runs fun _ => rfl

/-- A setter that answers with nothing does what its statement does. -/
theorem setter_acts {write : WriteForm} {stmt : Stmt} {effect : MachineStep Unit}
    (made : setter source placement write name = .ofBody name [baseName source, "value"] [] [stmt])
    (found : unit.routine? name = some (setter source placement write name)) (argument value : Word)
    (acts : Stmt.Acts unit (setterFrame source name argument value) stmt effect
      fun _ => setterFrame source name argument value) :
    unit.CallActs name [argument, value] (do
      effect
      return []) := by
  rw [made] at found
  have entered : ((Routine.ofBody name [baseName source, "value"] [] [stmt]).entry [argument, value]).opened =
      setterFrame source name argument value := by cases source <;> rfl
  have runs : Block.Runs unit ((Routine.ofBody name [baseName source, "value"] [] [stmt]).entry
      [argument, value]).opened [stmt] effect fun _ => (setterFrame source name argument value).closed := by
    rw [entered]
    exact Block.Runs.last acts fun _ => rfl
  exact CodeUnit.CallActs.of_routine found rfl runs fun _ => rfl

/-- A setter for memory writes by its form. -/
theorem memorySetter_acts {write : WriteForm} (found : unit.routine? name = some (setter .memory placement write name))
    (argument value : Word) : unit.CallActs name [argument, value] (do
      write.effect (fetch .memory (wordPlace .memory placement.slot argument))
        (wordPlace .memory placement.slot argument) value
      return []) := by
  obtain ⟨base, given⟩ := find?_setterFrame .memory name argument value
  exact setter_acts (by cases write <;> rfl) found argument value
    (write.toYul_acts (wordAt_acts placement.slot base) (wordLocation_acts placement.slot base) (.ident given))

/-- A setter for storage stores the new word. -/
theorem storageSetter_acts {form : AccessExpr}
    (found : unit.routine? name = some (setter .storage placement (.word form) name)) (argument value : Word) :
    unit.CallActs name [argument, value] (do
      let next ← form.effect (fetch .storage (wordPlace .storage placement.slot argument))
        (wordPlace .storage placement.slot argument) value
      Machine.sstore (wordPlace .storage placement.slot argument) next
      return []) := by
  obtain ⟨base, given⟩ := find?_setterFrame .storage name argument value
  have location : Expr.Acts unit (setterFrame .storage name argument value) (wordLocation .storage placement.slot)
    (pure (wordPlace .storage placement.slot argument)) := wordLocation_acts placement.slot base
  have next := form.toYul_acts (wordAt_acts placement.slot base) location (.ident given)
  have stored : Stmt.Acts unit (setterFrame .storage name argument value) (.eval (.builtin .sstore
      [wordLocation .storage placement.slot, form.toYul (wordAt .storage (wordLocation .storage placement.slot))
        (wordLocation .storage placement.slot) (.ident "value")])) (do
      let next ← form.effect (fetch .storage (wordPlace .storage placement.slot argument))
        (wordPlace .storage placement.slot argument) value
      Machine.sstore (wordPlace .storage placement.slot argument) next)
      fun _ => setterFrame .storage name argument value := by
    refine Eq.mp (congrArg (fun step => Yul.Process.HasEffect _ _ step) ?_)
      (Stmt.Acts.eval .sstore (Expr.ArgsAct.two location next) rfl)
    simp [Yul.Builtin.apply]
  simpa only [bind_assoc] using setter_acts rfl found argument value stored

/-- The places of words and the words at them are plain. -/
theorem wordAt_isPlain (source : WordSource) (slot : Nat) :
    (wordLocation source slot).isPlain = true ∧ (wordAt source (wordLocation source slot)).isPlain = true := by
  have location : (wordLocation source slot).isPlain = true := by
    cases source with
    | stack => rfl
    | memory | storage => exact Expr.add_isPlain rfl rfl
  refine ⟨location, ?_⟩
  cases source with
  | stack => rfl
  | memory => simp [wordAt, Expr.mload, Expr.isPlain, Expr.areAllPlain, location]
  | storage => simp [wordAt, Expr.sload, Expr.isPlain, Expr.areAllPlain, location]

/-- A getter is one plain statement. -/
theorem getter_body (source : WordSource) (placement : Placement) (form : AccessExpr) (name : String) :
    ∃ stmt, (getter source placement form name).body = [stmt] ∧ stmt.isPlain = true := by
  obtain ⟨location, word⟩ := wordAt_isPlain source placement.slot
  have value : (Expr.ident "value").isPlain = true := rfl
  have plain := AccessExpr.toYul_isPlain word location value form
  refine ⟨_, rfl, ?_⟩
  unfold Stmt.assignTo Stmt.isPlain
  dsimp only
  split
  · simp [Expr.signextend, Expr.isPlain, Expr.areAllPlain, Expr.number, plain]
  · exact plain

/-- A setter is one plain statement. -/
theorem setter_body (source : WordSource) (placement : Placement) (form : WriteForm) (name : String) :
    ∃ stmt, (setter source placement form name).body = [stmt] ∧ stmt.isPlain = true := by
  obtain ⟨location, word⟩ := wordAt_isPlain source placement.slot
  have value : (Expr.ident "value").isPlain = true := rfl
  have plain := WriteForm.toYul_isPlain word location value form source
  unfold setter
  dsimp only
  split
  · exact ⟨_, rfl, AccessExpr.toYul_isPlain word location rfl _⟩
  · exact ⟨_, rfl, plain⟩

/-- A setter has the name that it is given. -/
theorem setter_name (source : WordSource) (placement : Placement) (write : WriteForm) (name : String) :
    (setter source placement write name).name = name := by
  cases source <;> cases write <;> rfl

/-- A field and the names of its accessors. -/
structure FieldAccess where
  /-- The field. -/
  placement : Placement
  /-- The name of the getter. -/
  getterName : String
  /-- The name of the setter. -/
  setterName : String

/-- Whether the accessors of a field are routines of a unit that read and write it. -/
def FieldAccess.IsServed (access : FieldAccess) (unit : CodeUnit) (source : WordSource) : Prop :=
  ∃ read write, access.placement.field.IsRead source read ∧ access.placement.field.IsWrite source write ∧
    unit.routine? access.getterName = some (getter source access.placement read access.getterName) ∧
    unit.routine? access.setterName = some (setter source access.placement write access.setterName)

/-- Whether names are those of accessors of several fields that are served, a getter and a setter for each in order. -/
def AreAccessors (unit : CodeUnit) (source : WordSource) (placements : List Placement) (names : List String)
    (accesses : List FieldAccess) : Prop :=
  accesses.map FieldAccess.placement = placements ∧
    names = accesses.flatMap (fun access => [access.getterName, access.setterName]) ∧
    ∀ access ∈ accesses, access.IsServed unit source

/-- The accessors of one field read and write it. -/
theorem emitFieldAccessors_gives (owner : String) (source : WordSource) (model : CostModel) (placement : Placement)
    (promise : Promise) (pending : List RequestKey) :
    Emission.Gives promise pending (emitFieldAccessors owner source model placement) fun unit names =>
      ∃ access : FieldAccess, access.placement = placement ∧ names = [access.getterName, access.setterName] ∧
        access.IsServed unit source := by
  refine (Emission.Gives.lift _).andThen fun field => ?_
  refine (Emission.Gives.lift _).andThen fun read => ?_
  refine (Emission.Gives.addRoutine _).andThen fun getterName => ?_
  refine (Emission.Gives.lift _).andThen fun write => ?_
  refine (Emission.Gives.addRoutine _).andThen fun setterName => .pure fun unit => ?_
  rintro ⟨rfl, setterFound⟩ chosenWrite ⟨rfl, getterFound⟩ chosenRead legal
  obtain ⟨rfl, inside⟩ := Field.isLegal_of_ofRange legal
  rw [setter_name] at setterFound ⊢
  exact ⟨⟨placement, _, _⟩, rfl, rfl, read.form, write.form, Field.cheapestRead_isRead inside chosenRead,
    Field.cheapestWrite_isWrite inside chosenWrite, getterFound, setterFound⟩

/-- The accessors of several fields read and write them. -/
theorem emitEach_gives (owner : String) (source : WordSource) (model : CostModel) (placements : List Placement)
    (promise : Promise) (pending : List RequestKey) :
    Emission.Gives promise pending (emitEach owner source model placements) fun unit names =>
      ∃ accesses, AreAccessors unit source placements names accesses := by
  induction placements with
  | nil => exact .pure fun _ => ⟨[], rfl, rfl, fun _ listed => absurd listed List.not_mem_nil⟩
  | cons placement rest ih =>
    refine (emitFieldAccessors_gives owner source model placement promise pending).andThen fun names => ?_
    refine ih.andThen fun others => .pure fun unit => ?_
    rintro ⟨accesses, rfl, rfl, served⟩ ⟨access, rfl, rfl, own⟩
    exact ⟨access :: accesses, rfl, rfl, List.forall_mem_cons.mpr ⟨own, served⟩⟩

/-- The accessors of a layout read and write its fields. -/
theorem emitAccessors_gives {layout : PackedLayout} {model : CostModel} {owners : OwnerNames} {after : Workspace}
    {names : List String} (h : (emitAccessors layout source model).runOn ⟨unit, owners, []⟩ = (.ok names, after)) :
    ∃ accesses, AreAccessors after.unit source layout.placements names accesses := by
  have gives : Emission.Gives (fun _ _ _ => True) [] (emitAccessors layout source model) fun unit names =>
      ∃ accesses, AreAccessors unit source layout.placements names accesses :=
    (Emission.Gives.owner _).andThen fun owner =>
      (emitEach_gives owner source model layout.placements _ _).weaken fun _ _ given _ => given
  exact (gives _ _ _ h ⟨.nil, fun _ _ listed => nomatch listed⟩).2.2 after.unit (.refl _)

end

end Packing

end YulAbi
