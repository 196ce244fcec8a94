import YulAbi.Proofs.Value.Written

/-!
# Values are read back

What has been written without any routine is read back without any routine, also after more
has been written behind it. Writing changes nothing but memory that it allocates and the free
memory pointer, and it never succeeds with a value that does not fit.
-/

namespace YulAbi

/-- Whether a machine is reached by writes that begin at an offset or behind it. -/
inductive Machine.WritesFrom (low : Nat) (start : Machine) : Machine → Prop where
  /-- Nothing is written. -/
  | start : WritesFrom low start start
  /-- One more write. -/
  | write {middle after : Machine} {offset : Nat} {bytes : ByteArray} (earlier : WritesFrom low start middle)
      (behind : low ≤ offset) (ran : (Machine.write offset bytes).run middle = .ok () after) :
      WritesFrom low start after

/-- Writes from an offset on change nothing below it. -/
theorem Machine.WritesFrom.changes {low : Nat} {start after : Machine} (h : start.WritesFrom low after) :
    start.ChangesOnly (low ≤ ·) after := by
  induction h with
  | start => exact .refl _ _
  | write earlier behind ran ih =>
    exact ih.trans ((puts_of_write ran).2.changes fun _ inside _ => Nat.le_trans behind inside)

namespace Value

/-- A value that has been written is read back, also after any writes behind the new free memory pointer. Only bytes
between the old and the new pointer change, and the pointer. A value that does not fit is refused, unless memory runs
out before that. -/
theorem written_value_is_read_back (shape : Shape) (value : Value) {before : Machine}
    (above : Machine.freePointerSlot + wordBytes ≤ before.free) :
    (∀ word after, (writeAs shape value).run before = .ok word after →
      readAs after shape word = .ok value ∧
      (∀ later, after.WritesFrom after.free later → readAs later shape word = .ok value) ∧
      before.free ≤ after.free ∧ before.ChangesOnly (Machine.Between before.free after.free) after) ∧
    (shape.admits value = false → ∃ fault after, (writeAs shape value).run before = .error fault after ∧
      ((∃ name flaw, fault = .shapeMismatch name flaw) ∨
        (memoryLimit < before.free + allocated shape value ∧ ∃ offset, fault = .memoryLimit offset))) := by
  constructor
  · intro word after ran
    obtain ⟨-, wrote⟩ := wrote_of_writeAs above ran
    have moved := wrote.placed.moved
    refine ⟨wrote.placed.stands.read, fun later written => ?_, by omega, wrote.changes⟩
    exact (wrote.placed.stands.changes written.changes fun _ _ below => Nat.not_le_of_lt below).read
  · intro misfit
    cases ended : (writeAs shape value).run before with
    | ok word after =>
      rw [(wrote_of_writeAs above ended).1] at misfit
      cases misfit
    | error fault after =>
      exact ⟨fault, after, rfl, ((writes shape value above).faults fault after ended).imp And.right id⟩

/-- A tuple of bytes, flags and an empty tuple. -/
def parcelShape : Shape := .tuple [.bytes, .array .bool none, .tuple []]

/-- Three bytes and two flags. -/
def parcel : Value := .tuple [.bytes [1, 2, 3], .array [.word 1#256, .word 0#256], .tuple []]

/-- The parcel is written and read back, and a word is refused as bytes. -/
theorem parcel_is_read_back :
    (∃ word after, (writeAs parcelShape parcel).run (.start .empty) = .ok word after ∧
      readAs after parcelShape word = .ok parcel) ∧
    ∃ fault after, (writeAs .bytes (.word 1#256)).run (.start .empty) = .error fault after ∧
      ∃ name flaw, fault = .shapeMismatch name flaw := by
  have free : (Machine.start .empty).free = 128 := by decide +kernel
  have above : Machine.freePointerSlot + wordBytes ≤ (Machine.start .empty).free := by
    rw [free]
    decide
  have fit : parcelShape.admits parcel = true := by decide
  have room : (Machine.start .empty).free + allocated parcelShape parcel ≤ memoryLimit := by
    rw [free]
    decide
  constructor
  · obtain ⟨word, after, ran, -⟩ := writeAs_ok above fit room
    exact ⟨word, after, ran, ((written_value_is_read_back _ _ above).1 word after ran).1⟩
  · obtain ⟨fault, after, ran, ended⟩ := (written_value_is_read_back .bytes (.word 1#256) above).2 rfl
    refine ⟨fault, after, ran, ended.resolve_right fun ⟨short, _⟩ => ?_⟩
    rw [free] at short
    exact absurd short (by decide)

end Value

end YulAbi
