import YulAbi.Proofs.Machine.Bytes
import YulAbi.Proofs.Step
import YulAbi.Proofs.Yul.Execution

/-!
# Steps of the machine

Which bytes each step changes and when it succeeds. Addresses and sizes are numbers here;
that they fit the memory is what a step that succeeds shows and what one that has to
succeed needs. What a step changes is told apart from what it records of copies.
-/

namespace YulAbi.Machine

/-- Whether a machine differs from an earlier one in some bytes of memory only. -/
structure ChangesOnly (region : Nat → Prop) (before after : Machine) : Prop where
  /-- Call data stays. -/
  calldata : after.calldata = before.calldata
  /-- Storage stays. -/
  storage : after.storage = before.storage
  /-- Other bytes stay. -/
  memory : ∀ index, ¬ region index → Memory.byteAt after.memory index = Memory.byteAt before.memory index

/-- Whether a machine differs from an earlier one in bytes that were put at an offset. -/
structure Puts (before after : Machine) (offset : Nat) (content : List UInt8) : Prop where
  /-- The bytes are there. -/
  inside : Memory.Holds after.memory offset content
  /-- Nothing else has changed. -/
  outside : before.ChangesOnly (fun index => offset ≤ index ∧ index < offset + content.length) after

section

variable {region : Nat → Prop} {before middle after : Machine} {offset : Nat} {content : List UInt8}

/-- A machine does not differ from itself. -/
theorem ChangesOnly.refl (region : Nat → Prop) (machine : Machine) : machine.ChangesOnly region machine :=
  ⟨rfl, rfl, fun _ _ => rfl⟩

/-- Changes one after the other. -/
theorem ChangesOnly.trans (h : before.ChangesOnly region middle) (h' : middle.ChangesOnly region after) :
    before.ChangesOnly region after :=
  ⟨h'.calldata.trans h.calldata, h'.storage.trans h.storage, fun index apart =>
    (h'.memory index apart).trans (h.memory index apart)⟩

/-- Changes of fewer bytes are changes of more. -/
theorem ChangesOnly.mono (h : before.ChangesOnly region after) {larger : Nat → Prop}
    (covers : ∀ index, region index → larger index) : before.ChangesOnly larger after :=
  ⟨h.calldata, h.storage, fun index apart => h.memory index fun inside => apart (covers index inside)⟩

/-- A word outside the changes stays. -/
theorem ChangesOnly.wordAt (h : before.ChangesOnly region after)
    (apart : ∀ index < 32, ¬ region (offset + index)) : after.wordAt offset = before.wordAt offset :=
  Memory.wordAt_congr fun index inside => h.memory _ (apart index inside)

/-- Bytes outside the changes stay where they stand. -/
theorem ChangesOnly.holds (h : before.ChangesOnly region after) (held : Memory.Holds before.memory offset content)
    (apart : ∀ index < content.length, ¬ region (offset + index)) :
    Memory.Holds after.memory offset content :=
  held.congr fun index inside => h.memory _ (apart index inside)

/-- The bytes of a word that are put somewhere are the word there. -/
theorem Puts.wordAt {word : Word} (h : before.Puts after offset (Word.toBytes word)) :
    after.wordAt offset = word :=
  Memory.holds_toBytes.mp h.inside

/-- Changes in one stretch, within a region. -/
theorem Puts.changes (h : before.Puts after offset content)
    (covers : ∀ index, offset ≤ index → index < offset + content.length → region index) :
    before.ChangesOnly region after :=
  h.outside.mono fun index inside => covers index inside.1 inside.2

/-- A write that fits succeeds. -/
theorem write_ok (machine : Machine) (offset : Nat) (bytes : ByteArray) (fits : offset + bytes.size ≤ memoryLimit) :
    ∃ after, (write offset bytes).run machine = .ok () after := by
  have limit : memoryLimit < 2 ^ 64 := by decide
  change ∃ after, write offset bytes machine = .ok () after
  unfold write
  dsimp only
  rw [if_neg (by omega), if_neg (by omega)]
  exact ⟨_, rfl⟩

/-- A write that succeeds fits and puts its bytes. -/
theorem puts_of_write {bytes : ByteArray} (h : (write offset bytes).run before = .ok () after) :
    offset + bytes.size ≤ memoryLimit ∧ before.Puts after offset bytes.data.toList := by
  change write offset bytes before = .ok () after at h
  unfold write at h
  dsimp only at h
  split at h
  · cases h
  · split at h
    · cases h
    · rename_i fits
      cases h
      have grown := (Memory.le_size_grow before.memory (offset + bytes.size)).2
      have length : bytes.data.toList.length = bytes.size := by simp
      refine ⟨by omega, ?_, rfl, rfl, fun index apart => ?_⟩
      · refine List.ext_getElem (Memory.length_bytesAt _ _ _) fun index _ inside => ?_
        simp only [Memory.bytesAt, List.getElem_map, List.getElem_range]
        rw [Memory.byteAt_put grown, if_pos (by omega), Memory.byteAt_eq_getD,
          List.getD_eq_getElem?_getD, show offset + index - offset = index from by omega,
          List.getElem?_eq_getElem inside]
        rfl
      · rw [length] at apart
        dsimp only
        rw [Memory.byteAt_put grown, if_neg apart, Memory.byteAt_grow]

/-- An offset within the limit passes. -/
theorem run_check_of_le {value : Word} (fits : value.toNat ≤ memoryLimit) (machine : Machine) :
    (check (checkedOffset value)).run machine = .ok value.toNat machine := by
  change check (checkedOffset value) machine = _
  simp [check, query, checkedOffset, fits]

/-- An offset that passes is within the limit. -/
theorem le_of_run_check {value : Word} {result : Nat}
    (h : (check (checkedOffset value)).run before = .ok result after) :
    value.toNat ≤ memoryLimit ∧ result = value.toNat ∧ after = before := by
  change check (checkedOffset value) before = _ at h
  unfold check query checkedOffset at h
  split at h
  · rename_i answer passed
    split at passed
    · cases passed
      cases h
      exact ⟨‹_›, rfl, rfl⟩
    · cases passed
  · cases h

/-- The word of memory at an offset within the limit. -/
theorem run_mload {address : Word} (fits : address.toNat ≤ memoryLimit) (machine : Machine) :
    (mload address).run machine = .ok (machine.wordAt address.toNat) machine := by
  unfold mload
  rw [Step.bind_of_ok (run_check_of_le fits machine)]
  rfl

/-- A word of memory that is read lies within the limit. -/
theorem eq_of_mload {address word : Word} (h : (mload address).run before = .ok word after) :
    address.toNat ≤ memoryLimit ∧ word = before.wordAt address.toNat ∧ after = before := by
  obtain ⟨offset, reached, checked, rest⟩ := Step.bind_eq_ok.mp h
  obtain ⟨fits, rfl, rfl⟩ := le_of_run_check checked
  cases rest
  exact ⟨fits, rfl, rfl⟩

/-- A store that fits succeeds. -/
theorem mstore_ok (machine : Machine) (address value : Word) (fits : address.toNat + 32 ≤ memoryLimit) :
    ∃ after, (mstore address value).run machine = .ok () after := by
  unfold mstore
  rw [Step.bind_of_ok (run_check_of_le (by omega) machine)]
  have size : (Memory.ofWord value).size = 32 := Word.toBytes_length value
  exact write_ok machine _ _ (by omega)

/-- A store that succeeds fits and puts its word. -/
theorem puts_of_mstore {address value : Word} (h : (mstore address value).run before = .ok () after) :
    address.toNat + 32 ≤ memoryLimit ∧ before.Puts after address.toNat (Word.toBytes value) := by
  obtain ⟨offset, reached, checked, rest⟩ := Step.bind_eq_ok.mp h
  obtain ⟨fits, rfl, rfl⟩ := le_of_run_check checked
  obtain ⟨stays, puts⟩ := puts_of_write rest
  have size : (Memory.ofWord value).size = 32 := Word.toBytes_length value
  exact ⟨by omega, puts⟩

/-- A store of one byte that fits succeeds and puts its byte. -/
theorem mstore8_puts (machine : Machine) (address value : Word) (fits : address.toNat + 1 ≤ memoryLimit) :
    ∃ after, (mstore8 address value).run machine = .ok () after ∧
      machine.Puts after address.toNat [Word.byteAt value 31] := by
  have size : (⟨#[Word.byteAt value 31]⟩ : ByteArray).size = 1 := rfl
  obtain ⟨after, written⟩ := write_ok machine address.toNat ⟨#[Word.byteAt value 31]⟩ (by omega)
  refine ⟨after, ?_, (puts_of_write written).2⟩
  unfold mstore8
  rw [Step.bind_of_ok (run_check_of_le (by omega) machine)]
  exact written

/-- The word of call data at an address is written by its bytes. -/
theorem calldataWord_eq (machine : Machine) (address : Word) :
    machine.calldataWord address = Memory.wordAt machine.calldata address.toNat := by
  unfold calldataWord
  split
  · rfl
  · rename_i outside
    exact (Memory.wordAt_of_size_le (by omega)).symm

/-- The word of call data at an address is read without any change. -/
theorem run_calldataload (address : Word) (machine : Machine) :
    (calldataload address).run machine = .ok (Memory.wordAt machine.calldata address.toNat) machine := by
  rw [← calldataWord_eq]
  rfl

/-- The bytes of call data from an address on. -/
theorem toList_calldataSlice (machine : Machine) (address : Word) (size : Nat) :
    (machine.calldataSlice address size).data.toList =
      Memory.bytesAt machine.calldata address.toNat size := by
  unfold calldataSlice
  split
  · exact Memory.toList_slice _ _ _
  · rename_i outside
    rw [Memory.toList_appendZeros]
    refine List.ext_getElem (by simp [Memory.length_bytesAt]) fun index _ _ => ?_
    simp [Memory.bytesAt, Memory.byteAt_of_size_le (show machine.calldata.size ≤ address.toNat + index by omega)]

/-- They are as many as asked for. -/
theorem size_calldataSlice (machine : Machine) (address : Word) (size : Nat) :
    (machine.calldataSlice address size).size = size := by
  rw [← ByteArray.size_data, ← Array.length_toList, toList_calldataSlice, Memory.length_bytesAt]

/-- A copy of call data that fits succeeds; nothing always fits. -/
theorem calldatacopy_ok (machine : Machine) {target length : Word} (source : Word)
    (fits : length.toNat = 0 ∨ target.toNat + length.toNat ≤ memoryLimit) :
    ∃ after, (calldatacopy target source length).run machine = .ok () after := by
  unfold calldatacopy
  rw [Step.bind_of_ok (run_check_of_le (by omega) machine)]
  by_cases empty : length.toNat = 0
  · rw [if_pos empty]
    exact ⟨machine, rfl⟩
  · rw [if_neg empty]
    have size := machine.size_calldataSlice source length.toNat
    obtain ⟨written, run⟩ := write_ok machine target.toNat
      (machine.calldataSlice source length.toNat) (by omega)
    refine ⟨⟨written.memory, written.calldata, written.storage,
      length.toNat :: written.calldataCopies, written.memoryCopies⟩, ?_⟩
    rw [Step.bind_of_ok (Step.run_get machine)]
    rw [Step.bind_of_ok (run_check_of_le (by omega) machine), Step.bind_of_ok run]
    rfl

/-- A copy of call data that succeeds has copied nothing, or it has written the bytes and recorded their number. -/
theorem calldatacopy_cases {target source length : Word}
    (h : (calldatacopy target source length).run before = .ok () after) :
    (length.toNat = 0 ∧ after = before) ∨ (length.toNat ≠ 0 ∧ ∃ written,
      (write target.toNat (before.calldataSlice source length.toNat)).run before = .ok () written ∧
        after = ⟨written.memory, written.calldata, written.storage, length.toNat :: written.calldataCopies,
          written.memoryCopies⟩) := by
  obtain ⟨size, reached, checked, rest⟩ := Step.bind_eq_ok.mp h
  obtain ⟨-, rfl, rfl⟩ := le_of_run_check checked
  split at rest
  · rename_i empty
    cases rest
    exact .inl ⟨empty, rfl⟩
  · rename_i filled
    obtain ⟨machine, reached', got, rest⟩ := Step.bind_eq_ok.mp rest
    cases got
    obtain ⟨start, reached', checked', continued⟩ := Step.bind_eq_ok.mp rest
    obtain ⟨-, rfl, rfl⟩ := le_of_run_check checked'
    obtain ⟨done, written, wrote, logged⟩ := Step.bind_eq_ok.mp continued
    cases logged
    exact .inr ⟨filled, written, wrote, rfl⟩

/-- A copy of call data that succeeds fits and puts the bytes of call data. -/
theorem puts_of_calldatacopy {target source length : Word}
    (h : (calldatacopy target source length).run before = .ok () after) :
    (length.toNat = 0 ∨ target.toNat + length.toNat ≤ memoryLimit) ∧ before.Puts after target.toNat
      (Memory.bytesAt before.calldata source.toNat length.toNat) := by
  rcases calldatacopy_cases h with ⟨empty, rfl⟩ | ⟨-, written, wrote, rfl⟩
  · rw [empty]
    exact ⟨.inl rfl, Memory.holds_nil _ _, .refl _ _⟩
  · obtain ⟨fits, puts⟩ := puts_of_write wrote
    rw [toList_calldataSlice] at puts
    rw [size_calldataSlice] at fits
    exact ⟨.inr fits, puts.inside, puts.outside.calldata, puts.outside.storage, puts.outside.memory⟩

/-- A copy within memory that fits succeeds; nothing always fits. -/
theorem mcopy_ok (machine : Machine) {target source length : Word}
    (fits : length.toNat = 0 ∨ source.toNat ≤ memoryLimit ∧ target.toNat + length.toNat ≤ memoryLimit) :
    ∃ after, (mcopy target source length).run machine = .ok () after := by
  unfold mcopy
  rw [Step.bind_of_ok (run_check_of_le (by omega) machine)]
  by_cases empty : length.toNat = 0
  · rw [if_pos empty]
    exact ⟨machine, rfl⟩
  · rw [if_neg empty]
    have size := Memory.size_slice machine.memory source.toNat length.toNat
    obtain ⟨written, run⟩ := write_ok machine target.toNat
      (Memory.slice machine.memory source.toNat length.toNat) (by omega)
    refine ⟨⟨written.memory, written.calldata, written.storage, written.calldataCopies,
      length.toNat :: written.memoryCopies⟩, ?_⟩
    rw [Step.bind_of_ok (run_check_of_le (by omega) machine)]
    rw [Step.bind_of_ok (Step.run_get machine)]
    rw [Step.bind_of_ok (run_check_of_le (by omega) machine), Step.bind_of_ok run]
    rfl

/-- A copy within memory that succeeds has copied nothing, or it has written the bytes and recorded their number. -/
theorem mcopy_cases {target source length : Word}
    (h : (mcopy target source length).run before = .ok () after) :
    (length.toNat = 0 ∧ after = before) ∨ (length.toNat ≠ 0 ∧ ∃ written,
      (write target.toNat (Memory.slice before.memory source.toNat length.toNat)).run before = .ok () written ∧
        after = ⟨written.memory, written.calldata, written.storage, written.calldataCopies,
          length.toNat :: written.memoryCopies⟩) := by
  obtain ⟨size, reached, checked, rest⟩ := Step.bind_eq_ok.mp h
  obtain ⟨-, rfl, rfl⟩ := le_of_run_check checked
  split at rest
  · rename_i empty
    cases rest
    exact .inl ⟨empty, rfl⟩
  · rename_i filled
    obtain ⟨start, reached', checked', continued⟩ := Step.bind_eq_ok.mp rest
    obtain ⟨-, rfl, rfl⟩ := le_of_run_check checked'
    obtain ⟨machine, reached, got, continued'⟩ := Step.bind_eq_ok.mp continued
    cases got
    obtain ⟨stop, reached', checked'', last⟩ := Step.bind_eq_ok.mp continued'
    obtain ⟨-, rfl, rfl⟩ := le_of_run_check checked''
    obtain ⟨done, written, wrote, logged⟩ := Step.bind_eq_ok.mp last
    cases logged
    exact .inr ⟨filled, written, wrote, rfl⟩

/-- A copy within memory that succeeds puts the bytes that were there before. -/
theorem puts_of_mcopy {target source length : Word}
    (h : (mcopy target source length).run before = .ok () after) :
    before.Puts after target.toNat (Memory.bytesAt before.memory source.toNat length.toNat) := by
  rcases mcopy_cases h with ⟨empty, rfl⟩ | ⟨-, written, wrote, rfl⟩
  · rw [empty]
    exact ⟨Memory.holds_nil _ _, .refl _ _⟩
  · obtain ⟨-, puts⟩ := puts_of_write wrote
    rw [Memory.toList_slice] at puts
    exact ⟨puts.inside, puts.outside.calldata, puts.outside.storage, puts.outside.memory⟩

/-- A refusal that lets a run go on was not called for. -/
theorem refuseIf_eq_ok {condition : Bool} :
    (refuseIf (Word.ofBool condition)).run before = .ok () after ↔ condition = false ∧ after = before := by
  cases condition with
  | false =>
    constructor
    · intro h
      cases h
      exact ⟨rfl, rfl⟩
    · rintro ⟨-, rfl⟩
      rfl
  | true =>
    constructor
    · intro h
      cases h
    · rintro ⟨refused, -⟩
      cases refused

/-- A refusal that is called for reverts without data. -/
theorem run_refuseIf_true (machine : Machine) :
    (refuseIf (Word.ofBool true)).run machine = .error (.reverted []) machine := rfl

end

section

variable {σ : Type} {body : Word → σ → MachineStep σ}

/-- The next index of a loop. -/
theorem ofNat_succ (index : Nat) : Word.ofNat index + 1#256 = Word.ofNat (index + 1) := by
  simp [Word.ofNat, BitVec.ofNat_add]

/-- A loop succeeds if each round does and leaves what the next one needs. -/
theorem rounds_ok (body : Word → σ → MachineStep σ) (property : Nat → σ → Machine → Prop) {count : Nat}
    (round : ∀ index < count, ∀ state machine, property index state machine →
      ∃ next after, (body (Word.ofNat index) state).run machine = .ok next after ∧
        property (index + 1) next after) {state : σ} {machine : Machine} (start : property 0 state machine) :
    ∃ last after, (rounds body count 0#256 state).run machine = .ok last after ∧
      property count last after := by
  have from_index : ∀ left index state machine, index + left = count → property index state machine →
      ∃ last after, (rounds body left (Word.ofNat index) state).run machine = .ok last after ∧
        property count last after := by
    intro left
    induction left with
    | zero =>
      intro index state machine reach holds
      have same : index = count := by omega
      exact ⟨state, machine, rfl, same ▸ holds⟩
    | succ left ih =>
      intro index state machine reach holds
      obtain ⟨next, reached, run, holds⟩ := round index (by omega) state machine holds
      obtain ⟨last, after, rest, done⟩ := ih (index + 1) next reached (by omega) holds
      refine ⟨last, after, ?_, done⟩
      rw [rounds, Step.bind_of_ok run, ofNat_succ]
      exact rest
  exact from_index count 0 state machine (by omega) start

/-- What each round of a loop that succeeds keeps holds at its end. -/
theorem rounds_keep (property : Nat → σ → Machine → Prop) {count : Nat}
    (round : ∀ index < count, ∀ state machine next after,
      property index state machine → (body (Word.ofNat index) state).run machine = .ok next after →
      property (index + 1) next after) {state last : σ} {machine after : Machine}
    (start : property 0 state machine) (h : (rounds body count 0#256 state).run machine = .ok last after) :
    property count last after := by
  have from_index : ∀ left index state machine, index + left = count → property index state machine →
      (rounds body left (Word.ofNat index) state).run machine = .ok last after →
      property count last after := by
    intro left
    induction left with
    | zero =>
      intro index state machine reach holds ended
      cases ended
      have same : index = count := by omega
      exact same ▸ holds
    | succ left ih =>
      intro index state machine reach holds ended
      obtain ⟨next, reached, run, rest⟩ := Step.bind_eq_ok.mp ended
      rw [ofNat_succ] at rest
      exact ih (index + 1) next reached (by omega) (round index (by omega) state machine next reached holds run)
        rest
  exact from_index count 0 state machine (by omega) start h

/-- Every round of a loop that succeeds has succeeded. -/
theorem rounds_visit {count : Nat} {state last : σ} {machine after : Machine}
    (h : (rounds body count 0#256 state).run machine = .ok last after) {index : Nat} (inside : index < count) :
    ∃ before next reached middle, (body (Word.ofNat index) before).run middle = .ok next reached := by
  have visited := rounds_keep (fun done _ _ => ∀ index < done,
      ∃ before next reached middle, (body (Word.ofNat index) before).run middle = .ok next reached)
    (fun done _ before middle next reached earlier run index below => by
      rcases Nat.lt_succ_iff_lt_or_eq.mp below with below | same
      · exact earlier index below
      · exact ⟨before, next, reached, middle, same ▸ run⟩)
    (fun index below => absurd below (by omega)) h
  exact visited index inside

/-- A loop of checks passes if all of them do, and ends with the fault of the first one that does not. -/
theorem rounds_checks {count : Nat} (states : Nat → σ) {good : Nat → Prop} {fault : Fault} {machine : Machine}
    (pass : ∀ index < count, (∀ earlier < index, good earlier) → good index →
      (body (Word.ofNat index) (states index)).run machine = .ok (states (index + 1)) machine)
    (refuse : ∀ index < count, (∀ earlier < index, good earlier) → ¬ good index →
      (body (Word.ofNat index) (states index)).run machine = .error fault machine) :
    ((∀ index < count, good index) →
      (rounds body count 0#256 (states 0)).run machine = .ok (states count) machine) ∧
    ((¬ ∀ index < count, good index) →
      (rounds body count 0#256 (states 0)).run machine = .error fault machine) := by
  have from_index : ∀ left index, index + left = count → (∀ earlier < index, good earlier) →
      ((∀ index < count, good index) →
        (rounds body left (Word.ofNat index) (states index)).run machine = .ok (states count) machine) ∧
      ((¬ ∀ index < count, good index) →
        (rounds body left (Word.ofNat index) (states index)).run machine = .error fault machine) := by
    intro left
    induction left with
    | zero =>
      intro index reach earlier
      have same : index = count := by omega
      exact ⟨fun _ => same ▸ rfl, fun bad => absurd (same ▸ earlier) bad⟩
    | succ left ih =>
      intro index reach earlier
      by_cases fine : good index
      · have run := pass index (by omega) earlier fine
        have later := ih (index + 1) (by omega) fun other below => by
          rcases Nat.lt_succ_iff_lt_or_eq.mp below with below | same
          · exact earlier other below
          · exact same ▸ fine
        rw [rounds, Step.bind_of_ok run, ofNat_succ]
        exact later
      · have run := refuse index (by omega) earlier fine
        refine ⟨fun all => absurd (all index (by omega)) fine, fun _ => ?_⟩
        rw [rounds, Step.bind_of_error run]
  exact from_index count 0 (by omega) fun earlier below => absurd below (Nat.not_lt_zero _)

end

/-! ### The record of copies

The machine records the size of every copy, with those of call data and those within memory
apart. Stores record nothing, and a copy of nothing is not recorded. -/

/-- Whether copies of call data of the given sizes, the latest first, have been recorded since an earlier machine, and
no copies within memory. -/
structure Logs (before after : Machine) (sizes : List Nat) : Prop where
  /-- Copies of call data. -/
  calldata : after.calldataCopies = sizes ++ before.calldataCopies
  /-- Copies within memory. -/
  memory : after.memoryCopies = before.memoryCopies

section

variable {before middle after : Machine} {sizes later : List Nat}

/-- Nothing is recorded while nothing happens. -/
theorem Logs.refl (machine : Machine) : machine.Logs machine [] := ⟨rfl, rfl⟩

/-- Later copies are in front. -/
theorem Logs.trans (h : before.Logs middle sizes) (h' : middle.Logs after later) :
    before.Logs after (later ++ sizes) :=
  ⟨by rw [h'.calldata, h.calldata, List.append_assoc], h'.memory.trans h.memory⟩

/-- Nothing is recorded before a copy that is recorded behind it. -/
theorem Logs.behind (h : before.Logs middle []) (h' : middle.Logs after later) : before.Logs after later := by
  simpa using h.trans h'

/-- Nothing is recorded behind a copy that is recorded before it. -/
theorem Logs.quiet (h : before.Logs middle sizes) (h' : middle.Logs after []) : before.Logs after sizes := h.trans h'

/-- Bytes that are written are not recorded. -/
theorem logs_of_write {offset : Nat} {bytes : ByteArray} (h : (write offset bytes).run before = .ok () after) :
    before.Logs after [] := by
  change write offset bytes before = .ok () after at h
  unfold write at h
  dsimp only at h
  split at h
  · cases h
  · split at h <;> cases h
    exact ⟨rfl, rfl⟩

/-- A store is not recorded. -/
theorem logs_of_mstore {address value : Word} (h : (mstore address value).run before = .ok () after) :
    before.Logs after [] := by
  obtain ⟨offset, reached, checked, wrote⟩ := Step.bind_eq_ok.mp h
  obtain ⟨-, rfl, rfl⟩ := le_of_run_check checked
  exact logs_of_write wrote

/-- A copy of call data is recorded with its size, unless there is nothing to copy. -/
theorem logs_of_calldatacopy {target source length : Word}
    (h : (calldatacopy target source length).run before = .ok () after) :
    before.Logs after (if length.toNat = 0 then [] else [length.toNat]) := by
  rcases calldatacopy_cases h with ⟨empty, rfl⟩ | ⟨filled, written, wrote, rfl⟩
  · rw [if_pos empty]
    exact .refl _
  · rw [if_neg filled]
    exact (logs_of_write wrote).behind ⟨rfl, rfl⟩

/-- A loop whose rounds record nothing records nothing. -/
theorem logs_of_rounds {count : Nat} {body : Word → Unit → MachineStep Unit}
    (round : ∀ index < count, ∀ machine next, (body (Word.ofNat index) ()).run machine = .ok () next →
      machine.Logs next [])
    (h : (rounds body count 0#256 ()).run before = .ok () after) : before.Logs after [] :=
  rounds_keep (fun _ _ reached => before.Logs reached [])
    (fun index inside _ machine _ next earlier ran => earlier.behind (round index inside machine next ran)) (.refl _) h

end

end YulAbi.Machine
