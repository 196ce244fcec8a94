import YulAbi.Proofs.Codec.DecodeStep
import YulAbi.Proofs.Machine.Steps
import YulAbi.Proofs.Value.Reads

/-!
# Free memory and runs that differ elsewhere

Memory is allocated by moving the free memory pointer up. A machine advances if its pointer
does and nothing below the old pointer changes, apart from the pointer itself. The log of
copies is of no interest here either.

Machines may differ in bytes that a step does not look at. What the step does on one of them
it repeats on the other, and what it writes both have in common afterwards. So the bytes in
which two runs differ are followed from step to step, also where the runs take different
steps that leave other bytes behind.
-/

namespace YulAbi.Machine

/-- The free memory pointer as a number, whether or not it is within the limit. -/
def free (machine : Machine) : Nat := (machine.wordAt freePointerSlot).toNat

/-- The bytes that allocations from an offset on may change: the free memory pointer, and everything from
there on. -/
def Fresh (low index : Nat) : Prop :=
  (freePointerSlot ≤ index ∧ index < freePointerSlot + wordBytes) ∨ low ≤ index

/-- Whether memory may be allocated: the free memory pointer does not point to itself, and it is within the
limit. -/
structure Roomy (machine : Machine) : Prop where
  /-- The pointer lies behind its own bytes. -/
  above : freePointerSlot + wordBytes ≤ machine.free
  /-- The pointer is within the limit. -/
  fits : machine.free ≤ memoryLimit

/-- Whether a machine has allocated memory since an earlier one. -/
structure Advances (before after : Machine) : Prop where
  /-- Only fresh bytes change. -/
  changes : before.ChangesOnly (Fresh before.free) after
  /-- The free memory pointer moves up. -/
  up : before.free ≤ after.free
  /-- It stays within the limit. -/
  fits : after.free ≤ memoryLimit

section

variable {before middle after machine : Machine} {low high : Nat}

/-- The free memory pointer is given where it is within the limit. -/
theorem freePointer_eq_ok {offset : Nat} :
    machine.freePointer = .ok offset ↔ machine.free ≤ memoryLimit ∧ offset = machine.free :=
  Value.checkedOffset_eq_ok

/-- Fewer bytes are fresh from a higher offset on. -/
theorem Fresh.mono {index : Nat} (h : Fresh high index) (above : low ≤ high) : Fresh low index :=
  h.imp id (Nat.le_trans above)

/-- Nothing is allocated. -/
theorem Advances.refl (fits : machine.free ≤ memoryLimit) : machine.Advances machine :=
  ⟨.refl _ _, Nat.le_refl _, fits⟩

/-- Allocations one after the other. -/
theorem Advances.trans (h : before.Advances middle) (h' : middle.Advances after) : before.Advances after :=
  ⟨h.changes.trans (h'.changes.mono fun _ fresh => fresh.mono h.up), Nat.le_trans h.up h'.up, h'.fits⟩

/-- There is room for more after an allocation. -/
theorem Advances.roomy (h : before.Advances after) (roomy : before.Roomy) : after.Roomy :=
  ⟨Nat.le_trans roomy.above h.up, h.fits⟩

/-- The free memory pointer stays if none of its bytes changes. -/
theorem ChangesOnly.free {region : Nat → Prop} (h : before.ChangesOnly region after)
    (apart : ∀ index, freePointerSlot ≤ index → index < freePointerSlot + wordBytes → ¬ region index) :
    after.free = before.free := by
  have same : after.wordAt freePointerSlot = before.wordAt freePointerSlot :=
    h.wordAt fun index inside => apart _ (by omega) (by simp only [wordBytes]; omega)
  rw [Machine.free, same, Machine.free]

/-- Bytes that are put behind the free memory pointer leave the pointer. -/
theorem Puts.free {offset : Nat} {content : List UInt8} (h : before.Puts after offset content)
    (above : freePointerSlot + wordBytes ≤ offset) : after.free = before.free :=
  h.outside.free fun index _ inside covered => by omega

/-- Bytes that are put into fresh memory change fresh bytes only. -/
theorem Puts.fresh {offset : Nat} {content : List UInt8} (h : before.Puts after offset content)
    (above : low ≤ offset) : before.ChangesOnly (Fresh low) after :=
  h.changes fun _ inside _ => .inr (Nat.le_trans above inside)

/-- The address of the free memory pointer. -/
theorem toNat_freeSlot : Codec.freeSlot.toNat = freePointerSlot := rfl

/-- The free memory pointer is read. -/
theorem run_mload_free (machine : Machine) :
    (mload Codec.freeSlot).run machine = .ok (machine.wordAt freePointerSlot) machine :=
  run_mload (by decide) machine

/-- What is read from the free memory pointer. -/
theorem eq_of_mload_free {word : Word} (h : (mload Codec.freeSlot).run before = .ok word after) :
    word.toNat = before.free ∧ after = before := by
  obtain ⟨-, same, rfl⟩ := eq_of_mload h
  refine ⟨?_, rfl⟩
  rw [same, toNat_freeSlot, Machine.free]

/-- The free memory pointer is written. -/
theorem mstore_free_ok (machine : Machine) (value : Word) :
    ∃ after, (mstore Codec.freeSlot value).run machine = .ok () after :=
  mstore_ok machine _ value (by decide)

/-- What the free memory pointer is set to, and that nothing else changes. -/
theorem free_of_mstore {value : Word} (h : (mstore Codec.freeSlot value).run before = .ok () after) :
    after.free = value.toNat ∧
      before.ChangesOnly (fun index => freePointerSlot ≤ index ∧ index < freePointerSlot + wordBytes) after := by
  obtain ⟨-, puts⟩ := puts_of_mstore h
  refine ⟨congrArg BitVec.toNat puts.wordAt, puts.changes fun index lower upper => ?_⟩
  rw [Word.toBytes_length] at upper
  exact ⟨lower, upper⟩

end

/-! ### Runs on machines that differ -/

/-- Whether a step that succeeds on a machine is repeated by another step on machines that differ from it in a region:
that step succeeds with the same answer, and the machines then differ in a later region. -/
def Repeats {α : Type} (region later : Nat → Prop) (before : Machine) (step other : MachineStep α) : Prop :=
  ∀ before' value after, before.ChangesOnly region before' → step.run before = .ok value after →
    ∃ after', other.run before' = .ok value after' ∧ after.ChangesOnly later after'

/-- Whether a region lies in memory that has been allocated. -/
def HasAllocated (machine : Machine) (region : Nat → Prop) : Prop :=
  ∀ index, region index → freePointerSlot + wordBytes ≤ index ∧ index < machine.free

section

variable {α β : Type} {region later last : Nat → Prop} {before before' after after' machine : Machine}
  {step other : MachineStep α} {offset : Nat} {content : List UInt8}

/-- Each of two machines differs from the other in the same bytes. -/
theorem ChangesOnly.symm (h : before.ChangesOnly region after) : after.ChangesOnly region before :=
  ⟨h.calldata.symm, h.storage.symm, fun index apart => (h.memory index apart).symm⟩

/-- Bytes that are put on both of two machines are no difference any more. -/
theorem ChangesOnly.puts (h : before.ChangesOnly region before') (puts : before.Puts after offset content)
    (puts' : before'.Puts after' offset content) : after.ChangesOnly
      (fun index => region index ∧ ¬ (offset ≤ index ∧ index < offset + content.length)) after' := by
  refine ⟨puts'.outside.calldata.trans (h.calldata.trans puts.outside.calldata.symm),
    puts'.outside.storage.trans (h.storage.trans puts.outside.storage.symm), fun index apart => ?_⟩
  by_cases inside : offset ≤ index ∧ index < offset + content.length
  · have held : Memory.bytesAt after.memory offset content.length = content := puts.inside
    have same := puts'.inside
    rw [← held] at same
    have byte := Memory.holds_bytesAt_iff.mp same (index - offset) (by omega)
    rwa [Nat.add_sub_cancel' inside.1] at byte
  · rw [puts'.outside.memory index inside, puts.outside.memory index inside]
    exact h.memory index fun covered => apart ⟨covered, inside⟩

/-- What has been allocated stays so. -/
theorem HasAllocated.mono (h : before.HasAllocated region) (up : before.free ≤ after.free) :
    after.HasAllocated region :=
  fun index inside => ⟨(h index inside).1, Nat.lt_of_lt_of_le (h index inside).2 up⟩

/-- More differences may be left. -/
theorem Repeats.weaken (h : Repeats region later before step other) (covers : ∀ index, later index → last index) :
    Repeats region last before step other := by
  intro before' value after alike ran
  obtain ⟨after', ran', alike'⟩ := h before' value after alike ran
  exact ⟨after', ran', alike'.mono covers⟩

/-- An answer is repeated. -/
theorem Repeats.pure (value : α) : Repeats region region before (pure value) (pure value) := by
  intro before' result after alike ran
  obtain ⟨rfl, rfl⟩ := Step.pure_eq_ok.mp ran
  exact ⟨before', rfl, alike⟩

/-- Steps one after the other are repeated if each of them is. -/
theorem Repeats.bind {next next' : α → MachineStep β} (h : Repeats region later before step other)
    (h' : ∀ value after, step.run before = .ok value after →
      Repeats later last after (next value) (next' value)) :
    Repeats region last before (step >>= next) (other >>= next') := by
  intro before' result after alike ran
  obtain ⟨value, reached, first, rest⟩ := Step.bind_eq_ok.mp ran
  obtain ⟨reached', first', alike'⟩ := h before' value reached alike first
  obtain ⟨after', rest', done⟩ := h' value reached first reached' result after alike' rest
  exact ⟨after', Step.bind_eq_ok.mpr ⟨value, reached', first', rest'⟩, done⟩

/-- A query is repeated that has the same answer for the same call data. -/
theorem Repeats.ofAnswer (answer : ByteArray → α)
    (ran : ∀ machine, step.run machine = .ok (answer machine.calldata) machine) :
    Repeats region region before step step := by
  intro before' value after alike ran'
  rw [ran before] at ran'
  cases ran'
  exact ⟨before', by rw [ran before', alike.calldata], alike⟩

/-- A word of call data is the same. -/
theorem Repeats.calldataload (address : Word) :
    Repeats region region before (Machine.calldataload address) (Machine.calldataload address) :=
  .ofAnswer (fun calldata => Memory.wordAt calldata address.toNat) (run_calldataload address)

/-- A refusal is repeated. -/
theorem Repeats.refuseIf (condition : Bool) :
    Repeats region region before (Machine.refuseIf (Word.ofBool condition))
      (Machine.refuseIf (Word.ofBool condition)) := by
  intro before' _ after alike ran
  have ran' : (Machine.refuseIf (Word.ofBool condition)).run before = .ok () after := ran
  obtain ⟨passed, same⟩ := refuseIf_eq_ok.mp ran'
  refine ⟨before', refuseIf_eq_ok.mpr ⟨passed, rfl⟩, ?_⟩
  rw [same]
  exact alike

/-- A word of memory outside the region is the same. -/
theorem Repeats.mload {address : Word} (apart : ∀ byte < 32, ¬ region (address.toNat + byte)) :
    Repeats region region before (Machine.mload address) (Machine.mload address) := by
  intro before' value after alike ran
  obtain ⟨fits, rfl, rfl⟩ := eq_of_mload ran
  exact ⟨before', by rw [run_mload fits, alike.wordAt apart], alike⟩

/-- The free memory pointer is the same. -/
theorem Repeats.mload_free (allocated : machine.HasAllocated region) :
    Repeats region region before (Machine.mload Codec.freeSlot) (Machine.mload Codec.freeSlot) :=
  .mload fun byte small inside => by
    have above := (allocated _ inside).1
    have slot : Codec.freeSlot.toNat = freePointerSlot := rfl
    rw [slot, wordBytes] at above
    omega

/-- A word that is stored on both machines is no difference any more. -/
theorem Repeats.mstore (address value : Word) : Repeats region
    (fun index => region index ∧ ¬ (address.toNat ≤ index ∧ index < address.toNat + wordBytes)) before
    (Machine.mstore address value) (Machine.mstore address value) := by
  intro before' _ after alike ran
  obtain ⟨fits, puts⟩ := puts_of_mstore ran
  obtain ⟨after', ran'⟩ := mstore_ok before' address value fits
  have alike' := alike.puts puts (puts_of_mstore ran').2
  rw [Word.toBytes_length] at alike'
  exact ⟨after', ran', alike'⟩

/-- A store is repeated. -/
theorem Repeats.mstore_again (address value : Word) :
    Repeats region region before (Machine.mstore address value) (Machine.mstore address value) :=
  (Repeats.mstore address value).weaken fun _ inside => inside.1

/-- A copy of call data is repeated. -/
theorem Repeats.calldatacopy (target source size : Word) : Repeats region region before
    (Machine.calldatacopy target source size) (Machine.calldatacopy target source size) := by
  intro before' _ after alike ran
  obtain ⟨fits, puts⟩ := puts_of_calldatacopy ran
  obtain ⟨after', ran'⟩ := calldatacopy_ok before' source fits
  have puts' := (puts_of_calldatacopy ran').2
  rw [alike.calldata] at puts'
  exact ⟨after', ran', (alike.puts puts puts').mono fun _ inside => inside.1⟩

/-- A loop is repeated if each of its rounds is, given what the rounds before have kept. The induction is on the rounds
that are left. -/
theorem Repeats.rounds {σ : Type} {body body' : Word → σ → MachineStep σ} {state : σ} {count : Nat}
    (property : Nat → σ → Machine → Prop) (begins : property 0 state before)
    (keeps : ∀ index < count, ∀ state machine next after, property index state machine →
      (body (Word.ofNat index) state).run machine = .ok next after → property (index + 1) next after)
    (repeats : ∀ index < count, ∀ state machine, property index state machine →
      Repeats region region machine (body (Word.ofNat index) state) (body' (Word.ofNat index) state)) :
    Repeats region region before (Machine.rounds body count 0#256 state) (Machine.rounds body' count 0#256 state) := by
  have from_index : ∀ left index state machine, index + left = count → property index state machine →
      Repeats region region machine (Machine.rounds body left (Word.ofNat index) state)
        (Machine.rounds body' left (Word.ofNat index) state) := by
    intro left
    induction left with
    | zero => exact fun index state machine _ _ => .pure state
    | succ left ih =>
      intro index state machine reach holds
      refine .bind (repeats index (by omega) state machine holds) fun next after ran => ?_
      rw [ofNat_succ]
      exact ih (index + 1) next after (by omega) (keeps index (by omega) state machine next after holds ran)
  exact from_index count 0 state before (by omega) begins

/-- A loop of rounds that are repeated whatever comes before. -/
theorem Repeats.rounds_each {σ : Type} {body : Word → σ → MachineStep σ} {state : σ} {count : Nat}
    (repeats : ∀ index < count, ∀ state machine,
      Repeats region region machine (body (Word.ofNat index) state) (body (Word.ofNat index) state)) :
    Repeats region region before (Machine.rounds body count 0#256 state) (Machine.rounds body count 0#256 state) :=
  .rounds (fun _ _ _ => True) trivial (fun _ _ _ _ _ _ _ _ => trivial) fun index inside state machine _ =>
    repeats index inside state machine

end

end YulAbi.Machine
