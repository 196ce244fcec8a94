import YulAbi.Proofs.Value.Admitted

/-!
# Writing values

How it ends when a value is written without any routine. It succeeds only for values that
fit, is refused only for others, and runs out of memory only if there is less than `allocated`
says above the free memory pointer. What has been written stands in memory of its own, and
nothing else has changed but the free memory pointer.
-/

namespace YulAbi

/-- Whether a step ends as it should: it answers if a value fits, with what is to be settled then, it is refused for a
mismatch if the value does not fit, and it stops at the limit of memory if more is needed than that. -/
structure MachineStep.Concludes {α : Type} (fits : Bool) (need : Nat) (settled : α → Machine → Prop)
    (step : MachineStep α) (before : Machine) : Prop where
  /-- Only what fits is answered. -/
  answers : ∀ answer after, step.run before = .ok answer after → fits = true ∧ settled answer after
  /-- Only what does not fit is refused, or what takes too much memory. -/
  faults : ∀ fault after, step.run before = .error fault after →
    (fits = false ∧ ∃ name flaw, fault = .shapeMismatch name flaw) ∨
      (memoryLimit < need ∧ ∃ offset, fault = .memoryLimit offset)

/-- The bytes between two offsets, and those of the free memory pointer. -/
def Machine.Between (low high index : Nat) : Prop :=
  (freePointerSlot ≤ index ∧ index < freePointerSlot + wordBytes) ∨ (low ≤ index ∧ index < high)

/-- A larger stretch. -/
theorem Machine.Between.mono {low high low' high' index : Nat} (h : Between low high index) (lower : low' ≤ low)
    (higher : high ≤ high') : Between low' high' index :=
  h.imp id fun inside => ⟨Nat.le_trans lower inside.1, Nat.lt_of_lt_of_le inside.2 higher⟩

namespace Machine

variable {before middle after : Machine} {size pointer low low' high high' offset : Nat}

/-- Changes in a stretch are followed by changes in one that is no lower and reaches as far. -/
theorem ChangesOnly.stretch (first : before.ChangesOnly (Between low high) middle)
    (second : middle.ChangesOnly (Between low' high') after) (lower : low ≤ low') (higher : high ≤ high') :
    before.ChangesOnly (Between low high') after :=
  (first.mono fun _ inside => inside.mono (Nat.le_refl _) higher).trans
    (second.mono fun _ inside => inside.mono lower (Nat.le_refl _))

/-- Bytes that are written into a stretch change nothing else. -/
theorem Puts.between {bytes : List UInt8} (h : before.Puts after offset bytes) (lower : low ≤ offset)
    (upper : offset + bytes.length ≤ high) : before.ChangesOnly (Between low high) after :=
  h.changes fun _ first last => .inr ⟨Nat.le_trans lower first, Nat.lt_of_lt_of_le last upper⟩

/-- So does a word. -/
theorem Puts.word_between {word : Word} (h : before.Puts after offset (Word.toBytes word)) (lower : low ≤ offset)
    (upper : offset + wordBytes ≤ high) : before.ChangesOnly (Between low high) after :=
  h.between lower (by rw [Word.toBytes_length]; exact upper)

/-- The free memory pointer is asked for. -/
theorem run_freePointer (fits : before.free ≤ memoryLimit) :
    (query freePointer).run before = .ok before.free before := by
  change query freePointer before = _
  rw [query, freePointer_eq_ok.mpr ⟨fits, rfl⟩]

/-- An allocation lets memory grow and stores its end where the free memory pointer is. -/
theorem allocate_stores (room : before.free + size ≤ memoryLimit) :
    ∃ after, (allocate size).run before = .ok before.free after ∧
      (mstore (Word.ofNat freePointerSlot) (Word.ofNat (before.free + size))).run
        ⟨Memory.grow before.memory (before.free + size), before.calldata, before.storage, before.calldataCopies,
          before.memoryCopies⟩ = .ok () after := by
  have limit : memoryLimit < 2 ^ 64 := by decide
  obtain ⟨after, stored⟩ := mstore_ok ⟨Memory.grow before.memory (before.free + size), before.calldata, before.storage,
    before.calldataCopies, before.memoryCopies⟩ (Word.ofNat freePointerSlot) (Word.ofNat (before.free + size)) (by decide)
  refine ⟨after, ?_, stored⟩
  rw [allocate, Step.bind_of_ok (run_freePointer (by omega))]
  dsimp only
  rw [if_neg (by omega), if_neg (by omega)]
  exact (Step.bind_of_ok rfl).trans (Step.bind_of_ok stored)

/-- Memory is allocated if there is enough behind the free memory pointer, which is all that changes. -/
theorem allocate_ok (room : before.free + size ≤ memoryLimit) :
    ∃ after, (allocate size).run before = .ok before.free after ∧ after.free = before.free + size ∧
      before.ChangesOnly (Between before.free before.free) after := by
  have limit : memoryLimit < 2 ^ 64 := by decide
  have wide : before.free + size < 2 ^ 256 := by omega
  obtain ⟨after, ran, stored⟩ := allocate_stores room
  obtain ⟨pointed, changed⟩ := free_of_mstore stored
  rw [Word.toNat_ofNat wide] at pointed
  have grows : before.ChangesOnly (Between before.free before.free)
      ⟨Memory.grow before.memory (before.free + size), before.calldata, before.storage, before.calldataCopies,
        before.memoryCopies⟩ := ⟨rfl, rfl, fun index _ => Memory.byteAt_grow _ _ _⟩
  exact ⟨after, ran, pointed, grows.trans (changed.mono fun _ inside => .inl inside)⟩

/-- Otherwise the limit is reached. -/
theorem allocate_fails (beyond : memoryLimit < before.free + size) :
    ∃ offset, (allocate size).run before = .error (.memoryLimit offset) before := by
  by_cases fits : before.free ≤ memoryLimit
  · rw [allocate, Step.bind_of_ok (run_freePointer fits)]
    dsimp only
    split
    · exact ⟨_, rfl⟩
    · exact ⟨_, rfl⟩
  · have refused : (query freePointer).run before = .error (.memoryLimit before.free) before := by
      change query freePointer before = _
      unfold free at fits
      unfold query freePointer checkedOffset
      rw [if_neg fits]
      rfl
    exact ⟨_, Step.bind_of_error refused⟩

end Machine

namespace MachineStep.Concludes

variable {α β : Type} {fits fits' : Bool} {need need' : Nat} {settled : α → Machine → Prop} {step : MachineStep α}
  {before after : Machine} {answer : α}

/-- A step that answers. -/
theorem of_ok (ran : step.run before = .ok answer after) (fit : fits = true) (holds : settled answer after) :
    Concludes fits need settled step before := by
  refine ⟨fun other reached ended => ?_, fun fault stopped ended => ?_⟩
  · rw [ran] at ended
    cases ended
    exact ⟨fit, holds⟩
  · rw [ran] at ended
    cases ended

/-- A mismatch that is found. -/
theorem mismatch (shape : Shape) (flaw : ValueFlaw) :
    Concludes false need settled (Machine.check (Value.mismatch shape flaw)) before := by
  refine ⟨fun other reached ended => (nomatch ended), fun fault stopped ended => .inl ⟨rfl, ?_⟩⟩
  cases ended
  exact ⟨_, _, rfl⟩

/-- Steps one after the other: what does not fit the first one does not fit at all, and what the first one needs is
needed. -/
theorem bind {next : α → MachineStep β} {settled' : β → Machine → Prop} (h : Concludes fits need settled step before)
    (refused : fits = false → fits' = false) (less : need ≤ need')
    (h' : ∀ answer middle, fits = true → settled answer middle → Concludes fits' need' settled' (next answer) middle) :
    Concludes fits' need' settled' (step >>= next) before := by
  cases ended : step.run before with
  | ok answer middle =>
    obtain ⟨fit, holds⟩ := h.answers answer middle ended
    obtain ⟨answers, faults⟩ := h' answer middle fit holds
    constructor <;> rwa [Step.bind_of_ok ended]
  | error fault stopped =>
    constructor <;> rw [Step.bind_of_error ended]
    · intro answer after same
      cases same
    · intro other after same
      cases same
      exact (h.faults fault stopped ended).imp (fun ⟨misfit, found⟩ => ⟨refused misfit, found⟩) fun ⟨short, found⟩ =>
        ⟨Nat.lt_of_lt_of_le short less, found⟩

/-- A step that every value passes, and what comes after it. -/
theorem thereafter {next : α → MachineStep β} {settled' : β → Machine → Prop}
    (h : Concludes true need settled step before) (less : need ≤ need')
    (h' : ∀ answer middle, settled answer middle → Concludes fits' need' settled' (next answer) middle) :
    Concludes fits' need' settled' (step >>= next) before :=
  h.bind (fun refused => nomatch refused) less fun answer middle _ => h' answer middle

/-- A check that passes changes nothing. -/
theorem checked {next : α → MachineStep β} {settled' : β → Machine → Prop}
    (h : Concludes fits need settled' (next answer) before) :
    Concludes fits need settled' (Machine.check (.ok answer) >>= next) before := by
  constructor <;> rw [Step.bind_of_ok (show (Machine.check (.ok answer)).run before = .ok answer before from rfl)]
  · exact h.answers
  · exact h.faults

/-- Nothing comes after a mismatch that is found. -/
theorem refused {next : α → MachineStep β} {settled' : β → Machine → Prop} (shape : Shape) (flaw : ValueFlaw) :
    Concludes false need settled' (Machine.check (Value.mismatch shape flaw) >>= next) before := by
  have found : Concludes false need (fun (_ : α) _ => True) (Machine.check (Value.mismatch shape flaw)) before :=
    mismatch shape flaw
  exact found.bind id (Nat.le_refl _) fun _ _ fit => nomatch fit

/-- Less may be settled. -/
theorem weaken {settled' : α → Machine → Prop} (h : Concludes fits need settled step before)
    (settles : ∀ answer after, settled answer after → settled' answer after) :
    Concludes fits need settled' step before :=
  ⟨fun answer after ran => (h.answers answer after ran).imp id (settles answer after), h.faults⟩

/-- Bytes that fit the memory are written. -/
theorem write {offset : Nat} {bytes : ByteArray} (room : offset + bytes.size ≤ memoryLimit) :
    Concludes true 0 (fun _ after => before.Puts after offset bytes.data.toList) (Machine.write offset bytes)
      before := by
  obtain ⟨after, ran⟩ := Machine.write_ok before offset bytes room
  exact .of_ok ran rfl (Machine.puts_of_write ran).2

/-- A word that fits the memory is written. -/
theorem putWord {offset : Nat} {word : Word} (room : offset + wordBytes ≤ memoryLimit) :
    Concludes true 0 (fun _ after => before.Puts after offset (Word.toBytes word)) (Value.putWord offset word)
      before := by
  have size : (Memory.ofWord word).size = wordBytes := Word.toBytes_length word
  exact write (by rw [size]; exact room)

/-- Memory is allocated up to the limit. -/
theorem allocate (size : Nat) :
    Concludes true (before.free + size)
      (fun pointer after => pointer = before.free ∧ before.free + size ≤ memoryLimit ∧
        after.free = before.free + size ∧ before.ChangesOnly (Machine.Between before.free before.free) after)
      (Machine.allocate size) before := by
  by_cases room : before.free + size ≤ memoryLimit
  · obtain ⟨after, ran, moved, changed⟩ := Machine.allocate_ok room
    exact .of_ok ran rfl ⟨rfl, room, moved, changed⟩
  · obtain ⟨offset, failed⟩ := Machine.allocate_fails (Nat.lt_of_not_le room)
    refine ⟨fun pointer after ran => ?_, fun fault after ran => .inr ⟨Nat.lt_of_not_le room, offset, ?_⟩⟩
    · rw [failed] at ran
      cases ran
    · rw [failed] at ran
      cases ran
      rfl

end MachineStep.Concludes

namespace Value

open Shape (admitEach)

/-- Whether a value has been written: it stands in memory of its own, and nothing else has changed. -/
structure Wrote (before after : Machine) (shape : Shape) (word : Word) (value : Value) : Prop where
  /-- The value stands in memory that was allocated for it. -/
  placed : Placed before after shape word value
  /-- Only that memory changes, and the free memory pointer. -/
  changes : before.ChangesOnly (Machine.Between before.free after.free) after
  /-- The pointer stays within the limit. -/
  fits : before.free ≤ memoryLimit → after.free ≤ memoryLimit

/-- Whether writing a value ends as it should. -/
def Writes (shape : Shape) (value : Value) (before : Machine) : Prop :=
  MachineStep.Concludes (shape.admits value) (before.free + allocated shape value)
    (fun word after => Wrote before after shape word value) (writeAs shape value) before

section

variable {before middle after machine : Machine} {shape base : Shape} {members done rest : List Shape} {value : Value}
  {values elements placed left : List Value} {word : Word} {low head : Nat}

/-- Memory has been allocated by what has been written. -/
theorem Wrote.advances (h : Wrote before after shape word value) (fits : before.free ≤ memoryLimit) :
    before.Advances after :=
  ⟨h.changes.mono fun _ inside => inside.imp id And.left, by rw [h.placed.moved]; exact Nat.le_add_right _ _,
    h.fits fits⟩

/-- Words are written as they are. -/
theorem writeAs_word (valueType : shape.isValueType = true) :
    writeAs shape value = Machine.check (requireWord shape value) := by
  cases shape with
  | bytes | string | array _ _ | struct _ _ | tuple _ | error _ _ | event _ _ _ _ => cases valueType
  | _ => cases value <;> rfl

/-- Elements are written like as many members. -/
theorem writeElements_eq (base : Shape) (target : Nat) (elements : List Value) :
    writeElements (writeAs base) target elements =
      writeEach target (List.replicate elements.length base) elements := by
  induction elements generalizing target with
  | nil => rw [writeElements, List.length_nil, List.replicate_zero, writeEach]; exact nofun
  | cons element rest ih => rw [writeElements, ih, List.length_cons, List.replicate_succ, writeEach]

/-- Nothing is written for a word. -/
theorem writes_word (valueType : shape.isValueType = true) : Writes shape value before := by
  rw [Writes, writeAs_word valueType]
  by_cases fit : shape.admits value = true
  · obtain ⟨word, rfl⟩ := (Shape.admits_word valueType).mp fit
    refine .of_ok rfl fit ⟨⟨?_, .ofWord valueType _ _ word⟩, .refl _ _, id⟩
    rw [allocated_word valueType, Nat.add_zero]
  · rw [Bool.eq_false_iff.mpr fit]
    cases value with
    | word word => exact absurd ((Shape.admits_word valueType).mpr ⟨word, rfl⟩) fit
    | _ => exact .mismatch shape _

/-- Bytes are written behind their length. -/
theorem writeBytes_concludes {content : List UInt8} (bytesLike : shape.isBytesLike = true)
    (above : Machine.freePointerSlot + wordBytes ≤ before.free) :
    MachineStep.Concludes true (before.free + allocated shape (.bytes content))
      (fun word after => Wrote before after shape word (.bytes content)) (writeBytes content) before := by
  have limit : memoryLimit < 2 ^ 64 := by decide
  have total : wordBytes + content.length + padding content.length = allocated shape (.bytes content) := by
    cases shape with
    | bytes | string => rfl
    | _ => cases bytesLike
  rw [writeBytes, total]
  refine (MachineStep.Concludes.allocate _).thereafter (Nat.le_refl _) ?_
  rintro pointer reserved ⟨same, room, moved, changed⟩
  have size : wordBytes + content.length ≤ allocated shape (.bytes content) := by omega
  refine (MachineStep.Concludes.putWord (by omega)).thereafter (Nat.zero_le _) fun _ counted length => ?_
  have bytes : (ByteArray.mk content.toArray).size = content.length := rfl
  refine (MachineStep.Concludes.write (by omega)).thereafter (Nat.zero_le _) fun _ filled body => ?_
  have pointed : filled.free = before.free + allocated shape (.bytes content) := by
    rw [body.free (by omega), length.free (by omega), moved]
  have own : (Word.ofNat pointer).toNat = pointer := Word.toNat_ofNat (by omega)
  have stored : filled.wordAt pointer = Word.ofNat content.length :=
    (body.outside.wordAt fun index small covered => by simp only [wordBytes] at covered; omega).trans length.wordAt
  refine .of_ok rfl rfl ⟨⟨pointed, .ofBytes bytesLike ?_ ?_ ?_ ?_ ?_⟩, ?_, fun _ => by omega⟩
  · rw [own, stored, Word.toNat_ofNat (by omega)]
  · rw [own]
    exact body.inside
  · omega
  · omega
  · omega
  · have counts : reserved.ChangesOnly (Machine.Between before.free filled.free) counted :=
      length.word_between (by omega) (by omega)
    have fills : counted.ChangesOnly (Machine.Between before.free filled.free) filled :=
      body.between (by omega) (by dsimp only; omega)
    exact (changed.stretch counts (Nat.le_refl _) (by omega)).stretch fills (Nat.le_refl _) (Nat.le_refl _)

/-- Bytes fit bytes and text only, and are written for them. -/
theorem writes_bytes (bytesLike : shape.isBytesLike = true)
    (above : Machine.freePointerSlot + wordBytes ≤ before.free) : Writes shape value before := by
  rw [Writes]
  by_cases fit : shape.admits value = true
  · obtain ⟨content, rfl⟩ := (Shape.admits_bytes bytesLike).mp fit
    have unfolded : writeAs shape (.bytes content) = writeBytes content := by
      cases shape with
      | bytes | string => rfl
      | _ => cases bytesLike
    rw [fit, unfolded]
    exact writeBytes_concludes bytesLike above
  · rw [Bool.eq_false_iff.mpr fit]
    cases value with
    | bytes content => exact absurd ((Shape.admits_bytes bytesLike).mpr ⟨content, rfl⟩) fit
    | _ =>
      cases shape with
      | bytes | string => exact .mismatch _ _
      | _ => cases bytesLike

/-- Members are written one after the other behind their words, each word when its member has been written. The
induction is on the members that are left; `PartsStand` is what holds of those before. -/
theorem writeEach_concludes
    (member : ∀ member ∈ rest, ∀ {value} {before : Machine}, Machine.freePointerSlot + wordBytes ≤ before.free →
      Writes member value before)
    (matched : placed.length = done.length) (counted : left.length = rest.length)
    (stand : PartsStand before low head (done ++ rest) placed) (fits : before.free ≤ memoryLimit)
    (above : Machine.freePointerSlot + wordBytes ≤ head) (below : head + wordBytes * (done ++ rest).length ≤ low) :
    MachineStep.Concludes (admitEach rest left) (before.free + allocatedEach rest left)
      (fun _ after => PartsStand after low head (done ++ rest) (placed ++ left) ∧ before.free ≤ after.free ∧
        after.free ≤ memoryLimit ∧ before.ChangesOnly (Machine.Between head after.free) after)
      (writeEach (head + wordBytes * placed.length) rest left) before := by
  induction rest generalizing done placed left before with
  | nil =>
    cases List.eq_nil_of_length_eq_zero counted
    rw [writeEach]
    · rw [List.append_nil placed]
      exact .of_ok rfl rfl ⟨stand, Nat.le_refl _, fits, .refl _ _⟩
    · exact nofun
  | cons first rest ih =>
    cases left with
    | nil => cases counted
    | cons value others =>
      have inside : placed.length < (done ++ first :: rest).length := by
        rw [List.length_append, List.length_cons]
        omega
      have next : (done ++ first :: rest)[placed.length] = first := by
        simp only [matched, List.getElem_append_right (Nat.le_refl _), Nat.sub_self, List.getElem_cons_zero]
      have slot := Nat.mul_le_mul_left wordBytes (show placed.length + 1 ≤ _ from inside)
      rw [Nat.mul_succ] at slot
      have start : low ≤ before.free := by rw [stand.moved]; exact Nat.le_add_right _ _
      rw [writeEach, admitEach, allocatedEach]
      refine (member first List.mem_cons_self (by omega)).bind (fun misfit => by rw [misfit]; rfl) (by omega) ?_
      intro word middle fit wrote
      have moved := wrote.placed.moved
      have fits' := wrote.fits fits
      refine (MachineStep.Concludes.putWord (by omega)).thereafter (Nat.zero_le _) fun _ after stored => ?_
      have pointer : after.free = middle.free := stored.free (by omega)
      have standing := stand.store inside (wrote.advances fits) (next.symm ▸ wrote.placed) stored above below
      have behind : head + wordBytes * (placed ++ [value]).length = head + wordBytes * placed.length + wordBytes := by
        rw [List.length_append, List.length_singleton, Nat.mul_succ, Nat.add_assoc]
      have later := @ih after (done ++ [first]) (placed ++ [value]) others
        (fun other listed => member other (List.mem_cons_of_mem _ listed)) (by simp [matched]) (by simpa using counted)
        (by simpa using standing) (by omega) (by simpa using below)
      rw [behind] at later
      simp only [List.append_assoc, List.singleton_append] at later
      rw [fit, Bool.true_and, show before.free + (allocated first value + allocatedEach rest others) =
        after.free + allocatedEach rest others by omega]
      refine later.weaken ?_
      rintro _ last ⟨all, up, room, changed⟩
      have stores : middle.ChangesOnly (Machine.Between head last.free) after :=
        stored.word_between (by omega) (by omega)
      have writes := wrote.changes.mono fun _ inside => inside.mono (show head ≤ before.free by omega) (Nat.le_refl _)
      exact ⟨all, by omega, room,
        (writes.stretch stores (Nat.le_refl _) (by omega)).stretch changed (Nat.le_refl _) (Nat.le_refl _)⟩

/-- Values are written into words that have been allocated for them. -/
theorem writeEach_allocated
    (member : ∀ member ∈ members, ∀ {value} {before : Machine}, Machine.freePointerSlot + wordBytes ≤ before.free →
      Writes member value before)
    (counted : values.length = members.length) (fits : before.free ≤ memoryLimit)
    (above : Machine.freePointerSlot + wordBytes ≤ head) (below : head + wordBytes * members.length ≤ before.free) :
    MachineStep.Concludes (admitEach members values) (before.free + allocatedEach members values)
      (fun _ after => PartsStand after before.free head members values ∧ before.free ≤ after.free ∧
        after.free ≤ memoryLimit ∧ before.ChangesOnly (Machine.Between head after.free) after)
      (writeEach head members values) before :=
  @writeEach_concludes before [] members [] values _ _ member rfl counted (.nil rfl head members) fits above below

/-- Structs and tuples are written with a word for each member. -/
theorem writes_composite (composite : shape.IsComposite members)
    (member : ∀ member ∈ members, ∀ {value} {before : Machine}, Machine.freePointerSlot + wordBytes ≤ before.free →
      Writes member value before)
    (above : Machine.freePointerSlot + wordBytes ≤ before.free) : Writes shape value before := by
  have limit : memoryLimit < 2 ^ 64 := by decide
  rw [Writes]
  cases value with
  | tuple values =>
    have unfolded : writeAs shape (.tuple values) = (do
        Machine.check (requireMembers shape members.length values)
        let pointer ← Machine.allocate (wordBytes * members.length)
        writeEach pointer members values
        return Word.ofNat pointer) := by
      rcases composite with ⟨name, rfl⟩ | rfl <;> rfl
    have fits : shape.admits (.tuple values) = admitEach members values := by
      rcases composite with ⟨name, rfl⟩ | rfl <;> rfl
    rw [unfolded, fits, allocated_composite composite, requireMembers]
    by_cases counted : values.length = members.length
    · rw [if_pos counted]
      refine .checked ((MachineStep.Concludes.allocate _).thereafter (by omega) ?_)
      rintro pointer reserved ⟨same, room, moved, changed⟩
      refine (writeEach_allocated member counted (by omega) (by omega) (by omega)).bind id (by omega) ?_
      rintro _ after fit ⟨stand, up, within, changes⟩
      have own : (Word.ofNat pointer).toNat = pointer := Word.toNat_ofNat (by omega)
      have total := stand.moved
      refine .of_ok rfl fit ⟨⟨?_, .ofComposite composite counted ?_ ?_ within ?_⟩, ?_, fun _ => within⟩
      · rw [allocated_composite composite]
        omega
      · omega
      · omega
      · intro position inside inside'
        rw [own]
        exact (stand.each position inside inside').mono (by omega) (Nat.le_refl _)
      · exact changed.stretch changes (by omega) (by omega)
    · have misfit : admitEach members values = false :=
        Bool.eq_false_iff.mpr fun fit => counted (Shape.admitEach_iff.mp fit).1
      rw [if_neg counted, misfit]
      exact .refused _ _
  | _ =>
    rcases composite with ⟨name, rfl⟩ | rfl <;> exact .mismatch _ _

/-- Elements are written behind the length word of their array, if it has one. -/
theorem writeElements_concludes {start : Machine} {length : Option Nat} {pointer : Nat}
    (element : ∀ {value} {before : Machine}, Machine.freePointerSlot + wordBytes ≤ before.free →
      Writes base value before)
    (above : Machine.freePointerSlot + wordBytes ≤ before.free) (same : pointer = before.free)
    (fits : start.free ≤ memoryLimit)
    (moved : start.free = before.free + (lengthSize length + wordBytes * elements.length))
    (changed : before.ChangesOnly (Machine.Between before.free start.free) start)
    (stored : storedCount start.memory length pointer = elements.length) :
    MachineStep.Concludes (admitEach (List.replicate elements.length base) elements)
      (before.free + allocated (.array base length) (.array elements))
      (fun word after => Wrote before after (.array base length) word (.array elements))
      (do
        writeElements (writeAs base) (pointer + lengthSize length) elements
        return Word.ofNat pointer) start := by
  have limit : memoryLimit < 2 ^ 64 := by decide
  have each : ∀ member ∈ List.replicate elements.length base, ∀ {value} {before : Machine},
      Machine.freePointerSlot + wordBytes ≤ before.free → Writes member value before := by
    intro member listed
    rw [List.eq_of_mem_replicate listed]
    exact element
  have words : (List.replicate elements.length base).length = elements.length := List.length_replicate
  rw [writeElements_eq, allocated_array]
  refine (writeEach_allocated each words.symm fits (by omega) (by rw [words]; omega)).bind id (by omega) ?_
  rintro _ after fit ⟨stand, up, within, changes⟩
  have own : (Word.ofNat pointer).toNat = pointer := Word.toNat_ofNat (by omega)
  have total := stand.moved
  refine .of_ok rfl fit ⟨⟨?_, .ofArray ?_ ?_ ?_ within ?_⟩, ?_, fun _ => within⟩
  · rw [allocated_array]
    omega
  · rw [own, ← stored]
    exact storedCount_congr fun index small => changes.memory _ fun covered => by
      rcases covered with slot | behind <;> omega
  · omega
  · omega
  · intro position inside
    have part := stand.each position (by rw [words]; exact inside) inside
    rw [List.getElem_replicate] at part
    rw [own]
    exact part.mono (by omega) (Nat.le_refl _)
  · exact changed.stretch changes (by omega) (by omega)

/-- Arrays are written with their length, if it varies, and a word for each element. -/
theorem writes_array {length : Option Nat}
    (element : ∀ {value} {before : Machine}, Machine.freePointerSlot + wordBytes ≤ before.free →
      Writes base value before)
    (above : Machine.freePointerSlot + wordBytes ≤ before.free) : Writes (.array base length) value before := by
  have limit : memoryLimit < 2 ^ 64 := by decide
  rw [Writes]
  cases value with
  | array elements =>
    have many : elements.length ≤ wordBytes * elements.length := Nat.le_mul_of_pos_left _ (by decide)
    have total := allocated_array base length elements
    rw [writeAs, Shape.admits, ← Shape.admitEach_replicate]
    cases length with
    | none =>
      have lead : lengthSize none = wordBytes := rfl
      refine .checked ((MachineStep.Concludes.allocate _).thereafter (by omega) ?_)
      rintro pointer reserved ⟨same, room, moved, changed⟩
      refine (MachineStep.Concludes.putWord (by omega)).thereafter (Nat.zero_le _) fun _ start stored => ?_
      have kept : start.free = reserved.free := stored.free (by omega)
      refine writeElements_concludes element above same (by omega) (by omega) ?_ ?_
      · exact changed.stretch (stored.word_between (by omega) (by omega)) (Nat.le_refl _) (by omega)
      · rw [storedCount, ← Machine.wordAt, stored.wordAt, Word.toNat_ofNat (by omega)]
    | some expected =>
      rw [requireElements]
      dsimp only [Option.all_some]
      by_cases counted : elements.length = expected
      · rw [if_pos counted, decide_eq_true counted, Bool.true_and]
        refine .checked ((MachineStep.Concludes.allocate _).thereafter (by omega) ?_)
        rintro pointer reserved ⟨same, room, moved, changed⟩
        refine writeElements_concludes element above same (by omega) moved ?_ counted.symm
        exact changed.mono fun _ inside => inside.mono (Nat.le_refl _) (by omega)
      · rw [if_neg counted, decide_eq_false counted, Bool.false_and]
        exact .refused _ _
  | _ => exact .mismatch _ _

/-- Writing a value ends as it should. -/
theorem writes (shape : Shape) (value : Value) (above : Machine.freePointerSlot + wordBytes ≤ before.free) :
    Writes shape value before := by
  induction shape using Shape.induction generalizing value before with
  | word shape valueType => exact writes_word valueType
  | bytes shape bytesLike => exact writes_bytes bytesLike above
  | array base length ih => exact writes_array (ih _) above
  | composite shape members composite ih =>
    exact writes_composite composite (fun member listed {_ _} => ih member listed _) above
  | signature shape signature =>
    rw [Writes, Shape.not_admits_signature signature]
    cases shape with
    | error name parameters | event name parameters indexed anonymous => cases value <;> exact .mismatch _ _
    | _ => cases signature

/-- What has been written fits, and stands in memory of its own. -/
theorem wrote_of_writeAs (above : Machine.freePointerSlot + wordBytes ≤ before.free)
    (h : (writeAs shape value).run before = .ok word after) :
    shape.admits value = true ∧ Wrote before after shape word value :=
  (writes shape value above).answers word after h

/-- A value that fits is written if there is enough memory. -/
theorem writeAs_ok (above : Machine.freePointerSlot + wordBytes ≤ before.free) (fit : shape.admits value = true)
    (room : before.free + allocated shape value ≤ memoryLimit) :
    ∃ word after, (writeAs shape value).run before = .ok word after ∧ Wrote before after shape word value := by
  cases ended : (writeAs shape value).run before with
  | ok word after => exact ⟨word, after, rfl, (wrote_of_writeAs above ended).2⟩
  | error fault after =>
    rcases (writes shape value above).faults fault after ended with ⟨misfit, -⟩ | ⟨short, -⟩
    · rw [fit] at misfit
      cases misfit
    · omega

end

end Value

end YulAbi
