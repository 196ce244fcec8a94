import Mathlib.Data.List.Forall2
import YulAbi.Proofs.Arena.Made
import YulAbi.Proofs.Emission.Orderly
import YulAbi.Proofs.Field.Candidates
import YulAbi.Proofs.Packing.Routines

/-!
# Laws of accessors

For a valid layout the accessors can be emitted into an empty unit if the fields differ in the
plain identifiers of their labels: there is a form for every field, and no two routines have the
same name.

The accessors of a packed layout obey the laws of fields, wherever the packed words are: a
setter changes the bits of its field to those of the value and nothing else, and a getter
answers with what the bits of its field stand for. What was written is therefore read back, and
other fields are read as before.
-/

namespace YulAbi.Packing

/-- What the names of the accessors of a field end with. -/
def suffix (owner : String) (placement : Placement) : String :=
  owner ++ "_" ++ Identifier.sanitize placement.label

/-- The names of the getter and the setter of a field. -/
def fieldNames (owner : String) (placement : Placement) : List String :=
  ["get_" ++ suffix owner placement, "set_" ++ suffix owner placement]

/-- Whether a unit has no accessors of a field yet. -/
def IsFresh (unit : CodeUnit) (owner : String) (placement : Placement) : Prop :=
  unit.routine? ("get_" ++ suffix owner placement) = none ∧ unit.routine? ("set_" ++ suffix owner placement) = none

section

variable {unit after : CodeUnit} {owner : String} {placement other : Placement} {source : WordSource} {model : CostModel}

/-- Getters and setters have different names. -/
theorem get_ne_set (left right : String) : "get_" ++ left ≠ "set_" ++ right := by
  intro same
  have chars := congrArg String.toList same
  simp at chars

/-- Different identifiers give different suffixes. -/
theorem suffix_ne (different : Identifier.sanitize other.label ≠ Identifier.sanitize placement.label) :
    suffix owner other ≠ suffix owner placement := by
  intro same
  have chars := congrArg String.toList same
  simp only [suffix, String.toList_append, List.append_cancel_left_eq, String.toList_inj] at chars
  exact different chars

/-- A routine whose name is free can be added, and no other name is taken by it. -/
theorem addRoutine_of_none {routine : Yul.Routine} (absent : unit.routine? routine.name = none) : ∃ later,
    unit.addRoutine routine = .ok later ∧ later.routines = unit.routines ++ [routine] ∧
      ∀ name, name ≠ routine.name → unit.routine? name = none → later.routine? name = none := by
  refine ⟨⟨unit.routines ++ [routine], unit.constants⟩, by rw [CodeUnit.addRoutine, absent], rfl,
    fun name different free => ?_⟩
  rw [CodeUnit.routine?, List.find?_append, ← CodeUnit.routine?, free, Option.none_or, List.find?_singleton, if_neg]
  simpa using Ne.symm different

/-- Emitting the accessors of a field inside of a slot is adding two routines with their names. -/
theorem emitFieldAccessors_adds (owner : String) (source : WordSource) (model : CostModel)
    (some : 0 < placement.bitLength) (fits : placement.bitEnd ≤ wordBits) : ∃ get set : Yul.Routine,
      fieldNames owner placement = [get.name, set.name] ∧ ∀ before,
        (emitFieldAccessors owner source model placement).runOn before =
          Emission.runOn (do return [← Emission.addRoutine get, ← Emission.addRoutine set]) before := by
  have legal : Field.ofRange placement.bitOffset placement.bitLength placement.shape.isLeftAligned =
      .ok placement.field := by
    rw [Field.ofRange, if_pos ⟨Nat.ne_of_gt some, fits⟩]
    rfl
  obtain ⟨read, -, chosen⟩ := placement.field.exists_cheapestRead source model
  obtain ⟨write, -, chosen'⟩ := placement.field.exists_cheapestWrite source model
  have lifted : ∀ {α : Type} (value : α) (workspace : Workspace),
      Emission.runOn (liftM (.ok value : Generated α)) workspace = (.ok value, workspace) := fun _ _ => rfl
  refine ⟨getter source placement read.form ("get_" ++ suffix owner placement),
    setter source placement write.form ("set_" ++ suffix owner placement), by rw [setter_name]; rfl, fun before => ?_⟩
  simp only [emitFieldAccessors, Emission.runOn_bind, legal, lifted, chosen, chosen']
  rfl

/-- The accessors of a field that has none yet can be emitted. They are all that is added. -/
theorem emitFieldAccessors_succeeds (some : 0 < placement.bitLength) (fits : placement.bitEnd ≤ wordBits)
    {before : Workspace} (fresh : IsFresh before.unit owner placement) : ∃ after,
      (emitFieldAccessors owner source model placement).runOn before = (.ok (fieldNames owner placement), after) ∧
      after.unit.routines.map Yul.Routine.name =
        before.unit.routines.map Yul.Routine.name ++ fieldNames owner placement ∧
      ∀ other : Placement, Identifier.sanitize other.label ≠ Identifier.sanitize placement.label →
        IsFresh before.unit owner other → IsFresh after.unit owner other := by
  obtain ⟨get, set, names, adds⟩ := emitFieldAccessors_adds owner source model some fits
  obtain ⟨getName, setName⟩ :
      "get_" ++ suffix owner placement = get.name ∧ "set_" ++ suffix owner placement = set.name := by
    simpa [fieldNames] using names
  obtain ⟨first, added, routines, free⟩ := addRoutine_of_none (getName ▸ fresh.1)
  rw [← getName] at free
  obtain ⟨second, added', routines', free'⟩ :=
    addRoutine_of_none (setName ▸ free _ (get_ne_set _ _).symm fresh.2)
  rw [← setName] at free'
  refine ⟨⟨second, before.owners, before.requests⟩, ?_, ?_, fun other different still => ⟨?_, ?_⟩⟩
  · simp only [adds, Emission.runOn_bind, Emission.runOn_addRoutine, added, added', names]
    rfl
  · rw [routines', routines, List.map_append, List.map_append, List.append_assoc, names]
    rfl
  · exact free' _ (get_ne_set _ _) (free _ (fun same => suffix_ne different (by simpa using same)) still.1)
  · exact free' _ (fun same => suffix_ne different (by simpa using same)) (free _ (get_ne_set _ _).symm still.2)

/-- The accessors of fields that have none yet can be emitted if their identifiers differ. The induction is on the fields;
each keeps the names of those behind it free. -/
theorem emitEach_succeeds {placements : List Placement}
    (legal : ∀ placement ∈ placements, 0 < placement.bitLength ∧ placement.bitEnd ≤ wordBits)
    (distinct : (placements.map fun placement => Identifier.sanitize placement.label).Nodup) {before : Workspace}
    (fresh : ∀ placement ∈ placements, IsFresh before.unit owner placement) : ∃ after,
      (emitEach owner source model placements).runOn before = (.ok (placements.flatMap (fieldNames owner)), after) ∧
      after.unit.routines.map Yul.Routine.name =
        before.unit.routines.map Yul.Routine.name ++ placements.flatMap (fieldNames owner) := by
  induction placements generalizing before with
  | nil => exact ⟨_, rfl, (List.append_nil _).symm⟩
  | cons placement rest ih =>
    obtain ⟨some, fits⟩ := legal placement List.mem_cons_self
    rw [List.map_cons, List.nodup_cons] at distinct
    obtain ⟨middle, first, added, free⟩ :=
      emitFieldAccessors_succeeds some fits (fresh placement List.mem_cons_self)
    have still : ∀ other ∈ rest, IsFresh middle.unit owner other := fun other listed =>
      free other (fun same => distinct.1 (List.mem_map.mpr ⟨other, listed, same⟩))
        (fresh other (List.mem_cons_of_mem _ listed))
    obtain ⟨after, last, added'⟩ := ih (fun other listed => legal other (List.mem_cons_of_mem _ listed)) distinct.2 still
    refine ⟨after, ?_, by rw [added', added, List.append_assoc, List.flatMap_cons]⟩
    rw [emitEach, Emission.runOn_bind, first]
    simp only [Emission.runOn_bind, last]
    rfl

/-- The accessors of a layout are named after the owner name of its type. -/
theorem emitAccessors_runOn (layout : PackedLayout) (source : WordSource) (model : CostModel) (before : Workspace) :
    (emitAccessors layout source model).runOn before =
      (emitEach (before.owners.owner layout.root).1 source model layout.placements).runOn
        ⟨before.unit, (before.owners.owner layout.root).2, before.requests⟩ := by
  rw [emitAccessors, Emission.runOn_bind]
  rfl

/-- The accessors of a valid layout can be emitted into an empty unit if the identifiers of its fields differ. -/
theorem emitAccessors_succeeds {layout : PackedLayout} (valid : layout.IsValid)
    (distinct : (layout.placements.map fun placement => Identifier.sanitize placement.label).Nodup)
    (source : WordSource) (model : CostModel) (owners : OwnerNames) : ∃ after,
      (emitAccessors layout source model).runOn ⟨.empty, owners, []⟩ =
        (.ok (layout.placements.flatMap (fieldNames (owners.owner layout.root).1)), after) ∧
      after.unit.routines.map Yul.Routine.name =
        layout.placements.flatMap (fieldNames (owners.owner layout.root).1) := by
  rw [emitAccessors_runOn]
  exact emitEach_succeeds (fun placement listed => ⟨valid.some placement listed, valid.fits placement listed⟩) distinct
    fun _ _ => ⟨rfl, rfl⟩

end

end YulAbi.Packing

namespace YulAbi

/-! ### Getters and setters -/

/-- What accessors act on: a machine, the place of the first packed word in memory or storage, and the packed words
that are held in variables. -/
structure PackedState where
  /-- The machine. -/
  machine : Machine
  /-- The place of the first word. -/
  base : Word
  /-- The words in variables, by slot. -/
  words : Nat → Word

namespace PackedState

open Packing (FieldAccess)

/-- The packed word of a slot. -/
def word (state : PackedState) (source : WordSource) (slot : Nat) : Word :=
  match source with
  | .stack => state.words slot
  | .memory => state.machine.wordAt (state.base.toNat + slot * wordBytes)
  | .storage => state.machine.sload (state.base + Word.ofNat slot)

/-- The first argument of the accessors of a field. -/
def argument (state : PackedState) (source : WordSource) (slot : Nat) : Word :=
  match source with
  | .stack => state.words slot
  | _ => state.base

/-- Whether the packed words are where accessors may reach them: in storage without wrapping, in memory with room for
a word before and behind them. -/
def InReach (state : PackedState) (source : WordSource) (slotCount : Nat) : Prop :=
  match source with
  | .stack => True
  | .memory => wordBytes ≤ state.base.toNat ∧ state.base.toNat + wordBytes * (slotCount + 1) ≤ memoryLimit
  | .storage => state.base.toNat + slotCount ≤ 2 ^ 256

/-- What the fields hold, each as its getter shows it. -/
def values (state : PackedState) (source : WordSource) (accesses : List FieldAccess) : List Word :=
  accesses.map fun access => access.placement.shown (access.placement.bits (state.word source access.placement.slot))

/-- Whether the getter of a field answers with a word and changes nothing, with any budget of at least one step. -/
def Answers (state : PackedState) (unit : CodeUnit) (source : WordSource) (access : FieldAccess) (value : Word) : Prop :=
  ∀ limit, 0 < limit → (unit.call limit access.getterName [state.argument source access.placement.slot]).run
    state.machine = .ok [value] state.machine

/-- Whether the getters of all fields answer with a word each. -/
def AnswersAll (state : PackedState) (unit : CodeUnit) (source : WordSource) (accesses : List FieldAccess)
    (answers : List Word) : Prop :=
  List.Forall₂ (state.Answers unit source) accesses answers

/-- Whether the setter of a field that is given a value leads to another state, with any budget of at least one step.
One for the stack answers with the new word. -/
def Sets (state : PackedState) (unit : CodeUnit) (source : WordSource) (access : FieldAccess) (value : Word)
    (next : PackedState) : Prop :=
  ∀ limit, 0 < limit → (unit.call limit access.setterName [state.argument source access.placement.slot, value]).run
    state.machine = .ok (match source with | .stack => [next.words access.placement.slot] | _ => []) next.machine

/-- Whether nothing but the word of a slot differs. -/
def ChangesWord (state : PackedState) (source : WordSource) (slot : Nat) (next : PackedState) : Prop :=
  next.base = state.base ∧
    match source with
    | .stack => next.machine = state.machine ∧ ∀ other, other ≠ slot → next.words other = state.words other
    | .memory =>
      next.words = state.words ∧ state.machine.ChangesOnly (fun index => state.base.toNat + slot * wordBytes ≤ index ∧
        index < state.base.toNat + slot * wordBytes + wordBytes) next.machine
    | .storage =>
      next.words = state.words ∧ next.machine.memory = state.machine.memory ∧
        next.machine.calldata = state.machine.calldata ∧
        ∀ other, other ≠ state.base + Word.ofNat slot → next.machine.sload other = state.machine.sload other

/-- Whether the bits of a field are those of a value, and nothing else differs. -/
structure Replaces (state : PackedState) (source : WordSource) (placement : Placement) (value : Word)
    (next : PackedState) : Prop where
  /-- Everything but the word of the field stays. -/
  changes : state.ChangesWord source placement.slot next
  /-- The field holds what it takes of the value. -/
  field : placement.bits (next.word source placement.slot) = placement.reduced value
  /-- The other bits of the word stay. -/
  rest : ∀ bit, bit < placement.bitOffset ∨ placement.bitEnd ≤ bit →
    (next.word source placement.slot).getMsbD bit = (state.word source placement.slot).getMsbD bit

section

variable {state next : PackedState} {source : WordSource} {slotCount slot other : Nat}

/-- The place of a word in memory that is in reach, with a word before and behind it. -/
theorem toNat_wordPlace (reach : state.InReach .memory slotCount) (inside : slot < slotCount) :
    (Packing.wordPlace .memory slot state.base).toNat = state.base.toNat + slot * wordBytes ∧
      32 ≤ state.base.toNat + slot * wordBytes ∧ state.base.toNat + slot * wordBytes + 64 ≤ memoryLimit := by
  have limit : memoryLimit < 2 ^ 64 := by decide
  obtain ⟨above, room⟩ := reach
  simp only [wordBytes] at *
  have few : (Word.ofNat (slot * 32)).toNat = slot * 32 := Word.toNat_ofNat (by omega)
  refine ⟨?_, by omega, by omega⟩
  rw [Packing.wordPlace, wordBytes, Word.toNat_add (by omega), few]

/-- Different slots of storage that are in reach are different. -/
theorem add_slot_ne (reach : state.InReach .storage slotCount) (inside : slot < slotCount) (inside' : other < slotCount)
    (different : other ≠ slot) : state.base + Word.ofNat other ≠ state.base + Word.ofNat slot := by
  have room : state.base.toNat + slotCount ≤ 2 ^ 256 := reach
  intro same
  have equal := congrArg BitVec.toNat same
  have few : (Word.ofNat slot).toNat = slot := Word.toNat_ofNat (by omega)
  have few' : (Word.ofNat other).toNat = other := Word.toNat_ofNat (by omega)
  rw [Word.toNat_add (by omega), Word.toNat_add (by omega), few, few'] at equal
  omega

/-- The words of other slots stay. -/
theorem ChangesWord.word (h : state.ChangesWord source slot next) (reach : state.InReach source slotCount)
    (inside : slot < slotCount) (inside' : other < slotCount) (different : other ≠ slot) :
    next.word source other = state.word source other := by
  obtain ⟨base, rest⟩ := h
  cases source with
  | stack => exact rest.2 other different
  | memory =>
    rw [PackedState.word, PackedState.word, base]
    refine rest.2.wordAt fun index near => ?_
    simp only [wordBytes]
    omega
  | storage =>
    rw [PackedState.word, PackedState.word, base]
    exact rest.2.2.2 _ (add_slot_ne reach inside inside' different)

/-- The packed words are still in reach. -/
theorem ChangesWord.inReach (h : state.ChangesWord source slot next) (reach : state.InReach source slotCount) :
    next.InReach source slotCount := by
  obtain ⟨base, -⟩ := h
  unfold InReach at reach ⊢
  rwa [base]

end

end PackedState

/-- Whether a field lies inside one of some slots and has the width of its shape. -/
structure Placement.IsPacked (mode : PackingMode) (slotCount : Nat) (placement : Placement) : Prop where
  /-- It is not empty. -/
  some : 0 < placement.bitLength
  /-- The last bit is inside the slot. -/
  fits : placement.bitEnd ≤ wordBits
  /-- There is the slot. -/
  slot : placement.slot < slotCount
  /-- The width is that of the shape. -/
  sized : placement.IsSized mode

namespace Packing

section

variable {unit : CodeUnit} {source : WordSource} {placement : Placement} {access : FieldAccess} {state : PackedState}
  {slotCount : Nat} {mode : PackingMode}

/-- A window with a word in the middle. -/
def wordWindow (word : Word) : Window := List.replicate 32 0 ++ (Word.toBytes word ++ List.replicate 32 0)

/-- The middle word of such a window. -/
theorem load_wordWindow (word : Word) : (wordWindow word).length = 96 ∧ (wordWindow word).load 0 = word := by
  have size := Word.toBytes_length word
  refine ⟨by simp [wordWindow, size], ?_⟩
  have before : (List.replicate 32 (0 : UInt8)).length = (32 + (0 : Int)).toNat := by simp
  rw [Window.load, wordWindow, List.drop_left' before, List.take_left' size, Word.ofBytes_toBytes]

/-- What a getter answers with stands for the bits of the field. -/
theorem extended_extract (packed : placement.IsPacked mode slotCount) (word : Word) :
    extended placement (placement.field.extract word) = placement.shown (placement.bits word) := by
  obtain ⟨some, fits, -, sized⟩ := packed
  have inside : placement.bitLength ≤ wordBits := Nat.le_trans (Nat.le_add_left _ _) fits
  unfold extended isExtended Placement.shown
  cases signed : placement.shape.isSigned with
  | false => simp [Placement.extract_field some fits]
  | true =>
    have low := not_leftAligned_of_signed signed
    have whole := width_of_signed sized.legal signed sized.width
    by_cases short : placement.bitLength < wordBits
    · simp [short, whole, low, Placement.signExtend_extract some fits low short whole]
    · have full : placement.bitLength = wordBits := Nat.le_antisymm inside (Nat.le_of_not_lt short)
      have same : (placement.bits word).setWidth 256 = (placement.bits word).signExtend 256 := by
        rw [wordBits] at full
        refine BitVec.eq_of_getLsbD_eq fun index below => ?_
        rw [BitVec.getLsbD_setWidth, BitVec.getLsbD_signExtend, if_pos (by omega)]
      simp [short, low, Placement.extract_field some fits, same]

/-- A getter answers with what the bits of its field stand for. -/
theorem getter_answers (served : access.IsServed unit source) (packed : access.placement.IsPacked mode slotCount)
    (reach : state.InReach source slotCount) : state.Answers unit source access
      (access.placement.shown (access.placement.bits (state.word source access.placement.slot))) := by
  obtain ⟨placement, getterName, setterName⟩ := access
  obtain ⟨form, -, read, -, found, -⟩ := served
  dsimp only at packed read found
  obtain ⟨stmt, body, plain⟩ := getter_body source placement form getterName
  refine fun limit positive => ((getter_acts found (state.argument source placement.slot)).run_of_plain found body plain
    state.machine positive).trans ?_
  have answers : ∀ window : Window, window.length = 96 → window.load 0 = state.word source placement.slot →
      (form.effect (fetch source (wordPlace source placement.slot (state.argument source placement.slot)))
        (wordPlace source placement.slot (state.argument source placement.slot)) 0#256).run state.machine =
        .ok (form.evaluate window 0#256) state.machine →
      (form.effect (fetch source (wordPlace source placement.slot (state.argument source placement.slot)))
        (wordPlace source placement.slot (state.argument source placement.slot)) 0#256 >>= fun word =>
          pure [extended placement word]).run state.machine =
        .ok [placement.shown (placement.bits (state.word source placement.slot))] state.machine := by
    intro window full middle ran
    rw [Step.bind_of_ok ran, read.exact window _ full, middle, extended_extract packed]
    rfl
  cases source with
  | memory =>
    obtain ⟨place, above, room⟩ := PackedState.toNat_wordPlace reach packed.slot
    rw [← place] at above room
    have below : (wordPlace .memory placement.slot state.base).toNat ≤ memoryLimit := by omega
    have middle : (windowAt state.machine (wordPlace .memory placement.slot state.base)).load 0 =
        state.machine.wordAt (wordPlace .memory placement.slot state.base).toNat := load_zero_windowAt above
    refine answers (windowAt state.machine _) (length_windowAt _ _) (by rw [middle]; exact congrArg _ place) ?_
    refine AccessExpr.run_effect read.lowerable ?_ fun _ _ lower upper => run_mload_near above room lower upper
    rw [middle]
    exact Machine.run_mload below _
  | stack | storage =>
    obtain ⟨full, middle⟩ := load_wordWindow (state.word _ placement.slot)
    refine answers _ full middle (AccessExpr.run_effect read.lowerable ?_ fun impossible => nomatch impossible)
    rw [middle]
    rfl

/-- A setter replaces its field in the word of the slot, and changes nothing else. -/
theorem setter_sets (served : access.IsServed unit source) (slot : access.placement.slot < slotCount)
    (reach : state.InReach source slotCount) (value : Word) : ∃ next,
      state.Sets unit source access value next ∧ state.ChangesWord source access.placement.slot next ∧
      next.word source access.placement.slot =
        access.placement.field.insert (state.word source access.placement.slot) value := by
  obtain ⟨placement, getterName, setterName⟩ := access
  obtain ⟨-, form, -, write, -, found⟩ := served
  dsimp only at slot write found
  obtain ⟨stmt, body, plain⟩ := setter_body source placement form setterName
  cases source with
  | memory =>
    obtain ⟨place, above, room⟩ := PackedState.toNat_wordPlace reach slot
    rw [← place] at above room
    obtain ⟨after, ran, puts⟩ := write.run_effect above room (Machine.run_mload (by omega) _)
    rw [place] at puts
    refine ⟨⟨after, state.base, state.words⟩, fun limit positive => ((memorySetter_acts found state.base
      value).run_of_plain found body plain state.machine positive).trans ?_, ⟨rfl, rfl, ?_⟩, puts.wordAt⟩
    · rw [fetch, Step.bind_of_ok ran]
      rfl
    · have outside := puts.outside
      rwa [Word.toBytes_length] at outside
  | stack =>
    cases form with
    | word form =>
      obtain ⟨full, middle⟩ := load_wordWindow (state.words placement.slot)
      have ran : (form.effect (pure (state.words placement.slot)) (state.words placement.slot) value).run
          state.machine = .ok (form.evaluate (wordWindow (state.words placement.slot)) value) state.machine :=
        AccessExpr.run_effect write.lowerable (by rw [middle]; rfl) fun impossible => nomatch impossible
      rw [write.evaluate full, middle] at ran
      refine ⟨⟨state.machine, state.base, Function.update state.words placement.slot
        (placement.field.insert (state.words placement.slot) value)⟩,
        fun limit positive => ((stackSetter_acts found (state.words placement.slot) value).run_of_plain found body plain
          state.machine positive).trans ?_, ⟨rfl, rfl, fun other different => ?_⟩, ?_⟩
      · simp only [Step.bind_of_ok ran, Function.update_self]
        rfl
      · exact Function.update_of_ne different _ _
      · exact Function.update_self _ _ _
    | store8 _ _ | window _ _ => cases write.lowerable
  | storage =>
    cases form with
    | word form =>
      let location := state.base + Word.ofNat placement.slot
      obtain ⟨full, middle⟩ := load_wordWindow (state.machine.sload location)
      have ran : (form.effect (Machine.fetchSlot location) location value).run state.machine =
          .ok (form.evaluate (wordWindow (state.machine.sload location)) value) state.machine :=
        AccessExpr.run_effect write.lowerable (by rw [middle]; rfl)
          fun impossible => nomatch impossible
      rw [write.evaluate full, middle] at ran
      let word := placement.field.insert (state.machine.sload location) value
      refine ⟨⟨⟨state.machine.memory, state.machine.calldata, state.machine.storage.write location word,
        state.machine.calldataCopies, state.machine.memoryCopies⟩, state.base, state.words⟩,
        fun limit positive => ((storageSetter_acts found state.base value).run_of_plain found body plain state.machine
          positive).trans ?_, ⟨rfl, rfl, rfl, rfl, fun other different => ?_⟩, ?_⟩
      · rw [fetch, wordPlace, Step.bind_of_ok ran]
        rfl
      · exact Storage.read_write_of_ne _ _ different
      · exact Storage.read_write_self _ _ _
    | store8 _ _ | window _ _ => cases write.lowerable

/-- A setter replaces the bits of its field by those of the value, and nothing else. -/
theorem setter_replaces (served : access.IsServed unit source) (packed : access.placement.IsPacked mode slotCount)
    (reach : state.InReach source slotCount) (value : Word) : ∃ next,
      state.Sets unit source access value next ∧ state.Replaces source access.placement value next := by
  obtain ⟨next, sets, changes, word⟩ := setter_sets served packed.slot reach value
  refine ⟨next, sets, changes, ?_, fun bit apart => ?_⟩
  · rw [word, Placement.bits_insert packed.some packed.fits]
  · rw [word, Placement.getMsbD_insert packed.some packed.fits _ _ apart]

/-- Replacing a field keeps the bits of a field that does not overlap it. -/
theorem bits_of_replaces {other : Placement} {value : Word} {next : PackedState}
    (h : state.Replaces source placement value next) (reach : state.InReach source slotCount)
    (packed : placement.IsPacked mode slotCount) (packed' : other.IsPacked mode slotCount)
    (apart : other.overlaps placement = false) :
    other.bits (next.word source other.slot) = other.bits (state.word source other.slot) := by
  by_cases same : other.slot = placement.slot
  · simp only [Placement.overlaps, same, beq_self_eq_true, Bool.true_and, Bool.and_eq_false_iff,
      decide_eq_false_iff_not, Nat.not_lt] at apart
    rw [same]
    exact Placement.bits_congr packed'.fits fun bit lower upper => h.rest bit (by omega)
  · rw [h.changes.word reach packed.slot packed'.slot same]

end

/-- The accessors of a packed layout obey the laws of fields, for every type that can be packed and wherever its words
are. All getters answer with what their fields hold. Every setter replaces the bits of its field by those that the field
takes of the value and changes nothing else, so the field holds these bits afterwards, every other field what it held
before, and that is what the getters answer with. -/
theorem accessors_obey_laws {arena : Arena} (made : arena.Made) {root : NodeId} (inside : root < arena.size)
    {settings : PackingSettings} {layout : PackedLayout} (packed : pack (arena.typeAt root) settings = .ok layout)
    {source : WordSource} {model : CostModel} {unit : CodeUnit} {owners : OwnerNames} {after : Workspace}
    {names : List String} (emitted : (emitAccessors layout source model).runOn ⟨unit, owners, []⟩ = (.ok names, after)) :
    ∃ accesses : List FieldAccess, accesses.map FieldAccess.placement = layout.placements ∧
      names = accesses.flatMap (fun access => [access.getterName, access.setterName]) ∧
      ∀ state : PackedState, state.InReach source layout.slotCount →
        state.AnswersAll after.unit source accesses (state.values source accesses) ∧
        ∀ (index : Nat) (listed : index < accesses.length) (value : Word), ∃ next,
          state.Sets after.unit source accesses[index] value next ∧
          state.Replaces source accesses[index].placement value next ∧
          next.InReach source layout.slotCount ∧
          next.values source accesses = (state.values source accesses).set index
            (accesses[index].placement.shown (accesses[index].placement.reduced value)) ∧
          next.AnswersAll after.unit source accesses (next.values source accesses) := by
  have legal := made.sound.isLegal_typeAt inside
  obtain ⟨valid, sized⟩ := pack_spec legal packed
  obtain ⟨accesses, same, named, served⟩ := emitAccessors_gives emitted
  have placed : ∀ access ∈ accesses, access.placement.IsPacked layout.mode layout.slotCount := by
    intro access listed
    have listed' : access.placement ∈ layout.placements := same ▸ List.mem_map_of_mem listed
    exact ⟨valid.some _ listed', valid.fits _ listed', valid.slot _ listed', sized _ listed'⟩
  have answers : ∀ state : PackedState, state.InReach source layout.slotCount →
      state.AnswersAll after.unit source accesses (state.values source accesses) := fun state reach =>
    List.forall₂_map_right_iff.mpr (List.forall₂_same.mpr fun access listed =>
      getter_answers (served access listed) (placed access listed) reach)
  refine ⟨accesses, same, named, fun state reach => ⟨answers state reach, fun index listed value => ?_⟩⟩
  have own := placed _ (List.getElem_mem listed)
  obtain ⟨next, sets, replaces⟩ := setter_replaces (served _ (List.getElem_mem listed)) own reach value
  have reach' := replaces.changes.inReach reach
  refine ⟨next, sets, replaces, reach', ?_, answers next reach'⟩
  refine List.ext_getElem (by simp [PackedState.values]) fun other below _ => ?_
  simp only [PackedState.values, List.length_map] at below
  simp only [PackedState.values, List.getElem_map, List.getElem_set]
  split
  · rename_i equal
    subst equal
    rw [replaces.field]
  · rename_i different
    have apart : accesses[other].placement.overlaps accesses[index].placement = false := by
      have between := valid.apart_of_ne (by simpa [← same] using below)
        (by simpa [← same] using listed) (Ne.symm different)
      simpa [← same] using between
    rw [bits_of_replaces replaces reach own (placed _ (List.getElem_mem below)) apart]

/-- An arena with a struct of three fields that share a slot. -/
def positionArena : Arena :=
  let position := Addition.described
    (.struct "Position" [⟨"tick", .int 24⟩, ⟨"tag", .fixedBytes 4⟩, ⟨"size", .uint 128⟩])
  (position.run.runOn .empty).2

/-- The fields of the struct in declaration order. -/
def positionFields : List Placement :=
  [⟨0, 0, 24, "tick", .integer true 24, none⟩, ⟨0, 24, 32, "tag", .fixedBytes 4, none⟩,
    ⟨0, 56, 128, "size", .integer false 128, none⟩]

/-- Minus two is read back from the first field with its sign, and four bytes from the second one without the byte that
does not fit, while the fields around them stay. -/
theorem position_accessors_obey_laws : ∃ layout names after accesses tick tag size middle last,
    pack (positionArena.typeAt 3) ⟨.bytes, false⟩ = .ok layout ∧
    (emitAccessors layout .memory .standard).runOn (.start .empty) = (.ok names, after) ∧
    accesses = [tick, tag, size] ∧ accesses.map FieldAccess.placement = positionFields ∧
    names = accesses.flatMap (fun access => [access.getterName, access.setterName]) ∧
    (⟨.start .empty, 192#256, fun _ => 0#256⟩ : PackedState).Sets after.unit .memory tick (-2#256) middle ∧
    middle.Sets after.unit .memory tag (0xdeadbeef07#256 <<< 216) last ∧
    last.AnswersAll after.unit .memory accesses [-2#256, 0xdeadbeef#256 <<< 224, 0#256] := by
  have made : positionArena.Made := .extended _ .empty fun _ named => nomatch named
  have inside : (3 : NodeId) < positionArena.size := by decide +kernel
  have placed : ((pack (positionArena.typeAt 3) ⟨.bytes, false⟩).toOption.map fun layout =>
      (layout.placements, layout.slotCount)) = some (positionFields, 1) := by decide +kernel
  obtain ⟨layout, packed, fields, count⟩ : ∃ layout, pack (positionArena.typeAt 3) ⟨.bytes, false⟩ = .ok layout ∧
      layout.placements = positionFields ∧ layout.slotCount = 1 := by
    cases result : pack (positionArena.typeAt 3) ⟨.bytes, false⟩ with
    | error _ => simp [result, Except.toOption] at placed
    | ok layout =>
      rw [result] at placed
      simp only [Except.toOption, Option.map_some, Option.some.injEq, Prod.mk.injEq] at placed
      exact ⟨layout, rfl, placed⟩
  have legal : (positionArena.typeAt 3).shape.isLegal = true := by decide +kernel
  obtain ⟨after, emitted, -⟩ := emitAccessors_succeeds (pack_spec legal packed).1 (by rw [fields]; decide +kernel)
    .memory .standard .empty
  obtain ⟨accesses, same, named, laws⟩ := accessors_obey_laws made inside packed emitted
  rw [fields] at same
  rw [count] at laws
  obtain ⟨⟨first, _, _⟩, ⟨second, _, _⟩, ⟨third, _, _⟩, listed⟩ := List.length_eq_three.mp
    (show accesses.length = 3 by simpa [positionFields] using congrArg List.length same)
  obtain ⟨rfl, rfl, rfl⟩ : first = ⟨0, 0, 24, "tick", .integer true 24, none⟩ ∧
      second = ⟨0, 24, 32, "tag", .fixedBytes 4, none⟩ ∧ third = ⟨0, 56, 128, "size", .integer false 128, none⟩ := by
    simpa [positionFields, listed] using same
  let state : PackedState := ⟨.start .empty, 192#256, fun _ => 0#256⟩
  have reach : state.InReach .memory 1 := ⟨by decide, by decide⟩
  obtain ⟨middle, sets, -, reach', values, -⟩ := (laws state reach).2 0 (by simp [listed]) (-2#256)
  obtain ⟨last, sets', -, -, values', answers⟩ := (laws middle reach').2 1 (by simp [listed]) (0xdeadbeef07#256 <<< 216)
  have shown : last.values .memory accesses = [-2#256, 0xdeadbeef#256 <<< 224, 0#256] := by
    rw [values', values]
    subst listed
    simp only [PackedState.values, List.map_cons, List.map_nil, List.set_cons_zero, List.set_cons_succ,
      List.getElem_cons_zero, List.getElem_cons_succ]
    decide +kernel
  rw [shown] at answers
  subst listed
  exact ⟨layout, _, after, _, _, _, _, middle, last, packed, emitted, rfl, same, named, sets, sets', answers⟩

end Packing

end YulAbi
