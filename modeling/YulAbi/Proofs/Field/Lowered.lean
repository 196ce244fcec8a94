import YulAbi.Proofs.Field.Candidates
import YulAbi.Proofs.Machine.Steps
import YulAbi.Proofs.Yul.Steps

/-!
# The code of forms

The code of a form calls no routine and does what the form says. Reading leaves the machine as it
is; writing a window of memory leaves the window that the form applied to it gives, and all bytes
outside of it.
-/

namespace YulAbi

open Yul (Expr Stmt Frame)

/-- The address a number of bytes behind another one. -/
def displacedWord (pointer : Word) : Int → Word
  | .ofNat bytes => pointer + Word.ofNat bytes
  | .negSucc bytes => pointer - Word.ofNat (bytes + 1)

/-- The step that an expression takes, given how the word is read. -/
def AccessExpr.effect (word : MachineStep Word) (pointer value : Word) : AccessExpr → MachineStep Word
  | .word => word
  | .value => pure value
  | .load offset => Machine.mload (displacedWord pointer offset)
  | .literal number => pure number
  | .shl bits expr => do return Word.shiftLeft (Word.ofNat bits) (← effect word pointer value expr)
  | .shr bits expr => do return Word.shiftRight (Word.ofNat bits) (← effect word pointer value expr)
  | .and left right => do
    let right ← effect word pointer value right
    return (← effect word pointer value left) &&& right
  | .or left right => do
    let right ← effect word pointer value right
    return (← effect word pointer value left) ||| right
  | .not expr => do return ~~~(← effect word pointer value expr)
  | .byte index expr => do return Word.selectByte (Word.ofNat index) (← effect word pointer value expr)

/-- The step that a write to memory takes. -/
def WriteForm.effect (word : MachineStep Word) (pointer value : Word) : WriteForm → MachineStep Unit
  | .word expr => expr.effect word pointer value >>= Machine.mstore pointer
  | .store8 offset expr => expr.effect word pointer value >>= Machine.mstore8 (displacedWord pointer offset)
  | .window offset expr => expr.effect word pointer value >>= Machine.mstore (displacedWord pointer offset)

section

variable {unit : CodeUnit} {frame : Frame} {wordExpr pointerExpr valueExpr : Expr} {word : MachineStep Word}
  {pointer value : Word} {source : WordSource} {machine after : Machine} {offset : Int}

/-- A folded left shift acts like a shift. -/
theorem shl_acts {expr : Expr} {effect : MachineStep Word} (bits : Nat) (h : Expr.Acts unit frame expr effect) :
    Expr.Acts unit frame (.shl (.number bits) expr) (do return Word.shiftLeft (Word.ofNat bits) (← effect)) := by
  unfold Expr.shl
  split
  · rename_i zero
    have none : Word.ofNat bits = 0#256 := Expr.literal.inj zero
    have same : ∀ word, Word.shiftLeft 0#256 word = word := fun word => BitVec.shiftLeft_zero word
    simpa only [none, same, bind_pure] using h
  · simpa using Expr.Acts.binary (fun value value' => pure (Word.shiftLeft value value')) (Expr.Acts.number bits) h rfl
      fun _ _ => rfl

/-- A folded right shift acts like a shift. -/
theorem shr_acts {expr : Expr} {effect : MachineStep Word} (bits : Nat) (h : Expr.Acts unit frame expr effect) :
    Expr.Acts unit frame (.shr (.number bits) expr) (do return Word.shiftRight (Word.ofNat bits) (← effect)) := by
  unfold Expr.shr
  split
  · rename_i zero
    have none : Word.ofNat bits = 0#256 := Expr.literal.inj zero
    have same : ∀ word, Word.shiftRight 0#256 word = word := fun word => BitVec.ushiftRight_zero word
    simpa only [none, same, bind_pure] using h
  · simpa using Expr.Acts.binary (fun value value' => pure (Word.shiftRight value value')) (Expr.Acts.number bits) h rfl
      fun _ _ => rfl

/-- The code of an address a number of bytes behind another one. -/
theorem displaced_acts (h : Expr.Acts unit frame pointerExpr (pure pointer)) (offset : Int) :
    Expr.Acts unit frame (displaced pointerExpr offset) (pure (displacedWord pointer offset)) := by
  unfold displaced
  split
  · rw [displacedWord, BitVec.add_zero]
    exact h
  · exact h.sum (.number _)
  · exact h.difference (.number _)

/-- The code of an expression takes its step. -/
theorem AccessExpr.toYul_acts (wordActs : Expr.Acts unit frame wordExpr word)
    (pointerActs : Expr.Acts unit frame pointerExpr (pure pointer))
    (valueActs : Expr.Acts unit frame valueExpr (pure value)) (form : AccessExpr) :
    Expr.Acts unit frame (form.toYul wordExpr pointerExpr valueExpr) (form.effect word pointer value) := by
  induction form with
  | word => exact wordActs
  | value => exact valueActs
  | load offset => exact (displaced_acts pointerActs offset).mloadAt
  | literal number => exact .literal number
  | shl bits expr ih => exact shl_acts bits ih
  | shr bits expr ih => exact shr_acts bits ih
  | and left right ih ih' => exact ih.common ih'
  | or left right ih ih' => exact .binary (fun x y => pure (x ||| y)) ih ih' rfl fun _ _ => rfl
  | not expr ih => exact .unary (fun x => pure (~~~x)) ih rfl fun _ => rfl
  | byte index expr ih =>
    simpa [toYul, effect] using
      Expr.Acts.binary (fun x y => pure (Word.selectByte x y)) (.number index) ih rfl fun _ _ => rfl

/-- The code of a write to memory takes its step. -/
theorem WriteForm.toYul_acts (wordActs : Expr.Acts unit frame wordExpr word)
    (pointerActs : Expr.Acts unit frame pointerExpr (pure pointer))
    (valueActs : Expr.Acts unit frame valueExpr (pure value)) (form : WriteForm) :
    Stmt.Acts unit frame (form.toYul .memory wordExpr pointerExpr valueExpr) (form.effect word pointer value)
      fun _ => frame := by
  cases form with
  | word expr => exact .mstoreAt pointerActs (expr.toYul_acts wordActs pointerActs valueActs)
  | store8 offset expr =>
    have acts := Stmt.Acts.eval .mstore8 (Expr.ArgsAct.two (displaced_acts pointerActs offset)
      (expr.toYul_acts wordActs pointerActs valueActs)) rfl
    refine Eq.mp (congrArg (fun step => Yul.Process.HasEffect _ _ step) ?_) acts
    simp [Yul.Builtin.apply, effect]
  | window offset expr =>
    exact .mstoreAt (displaced_acts pointerActs offset) (expr.toYul_acts wordActs pointerActs valueActs)

/-- The code of an address is plain. -/
theorem displaced_isPlain (plain : pointerExpr.isPlain = true) (offset : Int) :
    (displaced pointerExpr offset).isPlain = true := by
  unfold displaced
  split
  · exact plain
  · exact Expr.add_isPlain plain rfl
  · unfold Expr.sub
    split
    · exact plain
    · simp [Expr.isPlain, Expr.areAllPlain, plain, Expr.number]

/-- The code of an expression is plain. -/
theorem AccessExpr.toYul_isPlain (word : wordExpr.isPlain = true) (pointer : pointerExpr.isPlain = true)
    (value : valueExpr.isPlain = true) (form : AccessExpr) :
    (form.toYul wordExpr pointerExpr valueExpr).isPlain = true := by
  induction form with
  | word => exact word
  | value => exact value
  | load offset => simp [toYul, Expr.mload, Expr.isPlain, Expr.areAllPlain, displaced_isPlain pointer]
  | literal number => rfl
  | shl bits expr ih =>
    rw [toYul, Expr.shl]
    split
    · exact ih
    · simp [Expr.isPlain, Expr.areAllPlain, Expr.number, ih]
  | shr bits expr ih =>
    rw [toYul, Expr.shr]
    split
    · exact ih
    · simp [Expr.isPlain, Expr.areAllPlain, Expr.number, ih]
  | and left right ih ih' => simp [toYul, Expr.and, Expr.isPlain, Expr.areAllPlain, ih, ih']
  | or left right ih ih' => simp [toYul, Expr.or, Expr.isPlain, Expr.areAllPlain, ih, ih']
  | not expr ih => simp [toYul, Expr.not, Expr.isPlain, Expr.areAllPlain, ih]
  | byte index expr ih => simp [toYul, Expr.isPlain, Expr.areAllPlain, Expr.number, ih]

/-- The code of a write is plain. -/
theorem WriteForm.toYul_isPlain (word : wordExpr.isPlain = true) (pointer : pointerExpr.isPlain = true)
    (value : valueExpr.isPlain = true) (form : WriteForm) (source : WordSource) :
    (form.toYul source wordExpr pointerExpr valueExpr).isPlain = true := by
  have plain := AccessExpr.toYul_isPlain word pointer value
  cases form with
  | word expr =>
    unfold toYul
    dsimp only
    split <;> simp [Stmt.mstore, Stmt.sstore, Stmt.assignTo, Stmt.isPlain, Expr.isPlain, Expr.areAllPlain, pointer, plain]
  | store8 offset expr =>
    simp [toYul, Stmt.mstore8, Stmt.isPlain, Expr.isPlain, Expr.areAllPlain, displaced_isPlain pointer, plain]
  | window offset expr =>
    simp [toYul, Stmt.mstore, Stmt.isPlain, Expr.isPlain, Expr.areAllPlain, displaced_isPlain pointer, plain]

/-- An expression that can be lowered has its value, if the word and what is loaded are those of a window. -/
theorem AccessExpr.run_effect {form : AccessExpr} {window : Window} (lowerable : form.isLowerable source = true)
    (read : word.run machine = .ok (window.load 0) machine)
    (loads : source = .memory → ∀ offset, -32 ≤ offset → offset ≤ 32 →
      (Machine.mload (displacedWord pointer offset)).run machine = .ok (window.load offset) machine) :
    (form.effect word pointer value).run machine = .ok (form.evaluate window value) machine := by
  have small : ∀ number < 256, (Word.ofNat number).toNat = number := fun number few =>
    Word.toNat_ofNat (Nat.lt_trans few (by decide))
  induction form with
  | word => exact read
  | value | literal _ => rfl
  | load offset =>
    simp only [isLowerable, Bool.and_eq_true, beq_iff_eq, decide_eq_true_eq] at lowerable
    exact loads lowerable.1.1 offset lowerable.1.2 lowerable.2
  | shl bits expr ih =>
    simp only [isLowerable, Bool.and_eq_true, decide_eq_true_eq] at lowerable
    rw [effect, Step.bind_of_ok (ih lowerable.2), evaluate, if_pos lowerable.1, Word.shiftLeft,
      small bits lowerable.1, if_pos (show bits < 256 from lowerable.1)]
    rfl
  | shr bits expr ih =>
    simp only [isLowerable, Bool.and_eq_true, decide_eq_true_eq] at lowerable
    rw [effect, Step.bind_of_ok (ih lowerable.2), evaluate, if_pos lowerable.1, Word.shiftRight,
      small bits lowerable.1, if_pos (show bits < 256 from lowerable.1)]
    rfl
  | and left right ih ih' =>
    simp only [isLowerable, Bool.and_eq_true] at lowerable
    rw [effect, Step.bind_of_ok (ih' lowerable.2), Step.bind_of_ok (ih lowerable.1)]
    rfl
  | or left right ih ih' =>
    simp only [isLowerable, Bool.and_eq_true] at lowerable
    rw [effect, Step.bind_of_ok (ih' lowerable.2), Step.bind_of_ok (ih lowerable.1)]
    rfl
  | not expr ih =>
    rw [effect, Step.bind_of_ok (ih lowerable)]
    rfl
  | byte index expr ih =>
    simp only [isLowerable, Bool.and_eq_true, decide_eq_true_eq] at lowerable
    have inside : index < 32 := lowerable.1
    rw [effect, Step.bind_of_ok (ih lowerable.2), evaluate, Word.selectByte, small index (by omega), if_pos inside]
    rfl

/-- The three words of memory around an address. -/
def windowAt (machine : Machine) (pointer : Word) : Window := Memory.bytesAt machine.memory (pointer.toNat - 32) 96

/-- Three words are 96 bytes. -/
theorem length_windowAt (machine : Machine) (pointer : Word) : (windowAt machine pointer).length = 96 :=
  Memory.length_bytesAt _ _ _

/-- An address that is near another one. -/
theorem toNat_displacedWord (above : 32 ≤ pointer.toNat) (room : pointer.toNat + 64 ≤ memoryLimit)
    (lower : -32 ≤ offset) (upper : offset ≤ 64) :
    (displacedWord pointer offset).toNat = pointer.toNat - 32 + (32 + offset).toNat := by
  have limit : memoryLimit < 2 ^ 64 := by decide
  cases offset with
  | ofNat bytes =>
    rw [Int.ofNat_eq_natCast] at *
    have few : (Word.ofNat bytes).toNat = bytes := Word.toNat_ofNat (by omega)
    rw [← Int.ofNat_eq_natCast, displacedWord, Word.toNat_add (by omega), few, Int.ofNat_eq_natCast]
    omega
  | negSucc bytes =>
    have few : (Word.ofNat (bytes + 1)).toNat = bytes + 1 := Word.toNat_ofNat (by omega)
    rw [displacedWord, BitVec.toNat_sub_of_le (by rw [BitVec.le_def, few]; omega), few]
    omega

/-- A word of the window is the word of memory. -/
theorem load_windowAt (lower : -32 ≤ offset) (upper : offset ≤ 32) : (windowAt machine pointer).load offset =
    machine.wordAt (pointer.toNat - 32 + (32 + offset).toNat) := by
  obtain ⟨count, same⟩ : ∃ count, count = (32 + offset).toNat := ⟨_, rfl⟩
  have parts : windowAt machine pointer = Memory.bytesAt machine.memory (pointer.toNat - 32) count ++
      (Memory.bytesAt machine.memory (pointer.toNat - 32 + count) 32 ++
        Memory.bytesAt machine.memory (pointer.toNat - 32 + count + 32) (64 - count)) := by
    rw [← Memory.bytesAt_add, ← Memory.bytesAt_add, windowAt]
    congr 1
    omega
  rw [Window.load, ← same, parts, List.drop_left' (Memory.length_bytesAt _ _ _),
    List.take_left' (Memory.length_bytesAt _ _ _), Machine.wordAt, Memory.wordAt_eq_ofBytes]

/-- Loads near an address are those of the window. -/
theorem run_mload_near (above : 32 ≤ pointer.toNat) (room : pointer.toNat + 64 ≤ memoryLimit) (lower : -32 ≤ offset)
    (upper : offset ≤ 32) : (Machine.mload (displacedWord pointer offset)).run machine =
      .ok ((windowAt machine pointer).load offset) machine := by
  have place := toNat_displacedWord above room lower (by omega)
  rw [Machine.run_mload (by omega), place, load_windowAt lower upper]

/-- The middle word is the word at the address. -/
theorem load_zero_windowAt (above : 32 ≤ pointer.toNat) :
    (windowAt machine pointer).load 0 = machine.wordAt pointer.toNat := by
  rw [load_windowAt (by decide) (by decide)]
  congr 1
  omega

/-- Bytes that are put inside a window replace those of the window. -/
theorem windowAt_puts {start : Nat} {content : List UInt8}
    (puts : machine.Puts after (pointer.toNat - 32 + start) content) (inside : start + content.length ≤ 96) :
    windowAt after pointer = (windowAt machine pointer).put start content := by
  refine List.ext_getElem (by rw [Window.length_put (by rw [length_windowAt]; exact inside), length_windowAt,
    length_windowAt]) fun index below _ => ?_
  rw [length_windowAt] at below
  have byte : ∀ other : Machine, (windowAt other pointer)[index]? =
      some (Memory.byteAt other.memory (pointer.toNat - 32 + index)) := by
    intro other
    rw [windowAt, Memory.bytesAt, List.getElem?_map, List.getElem?_range below, Option.map_some]
  have size : ((windowAt machine pointer).take start).length = start := by
    rw [List.length_take, length_windowAt]
    omega
  refine Option.some.inj ?_
  rw [← List.getElem?_eq_getElem, ← List.getElem?_eq_getElem, byte, Window.put]
  by_cases between : start ≤ index ∧ index < start + content.length
  · rw [List.append_assoc, List.getElem?_append_right (by omega), List.getElem?_append_left (by omega), size]
    have held := congrArg (·[index - start]?) puts.inside
    simp only [Memory.bytesAt, List.getElem?_map,
      List.getElem?_range (show index - start < content.length from by omega), Option.map_some] at held
    rw [← held]
    congr 2
    omega
  · rw [puts.outside.memory _ (by omega), ← byte]
    by_cases before : index < start
    · rw [List.append_assoc, List.getElem?_append_left (by omega), List.getElem?_take, if_pos before]
    · rw [List.getElem?_append_right (by rw [List.length_append]; omega), List.getElem?_drop, List.length_append, size,
        show start + content.length + (index - (start + content.length)) = index from by omega]

/-- Outside the middle word a byte of the window that the word around it is the same in is the same. -/
theorem byteAt_of_around (around : (windowAt after pointer).take 32 = (windowAt machine pointer).take 32 ∧
      (windowAt after pointer).drop 64 = (windowAt machine pointer).drop 64) (above : 32 ≤ pointer.toNat) {index : Nat}
    (lower : pointer.toNat - 32 ≤ index) (upper : index < pointer.toNat + 64)
    (apart : ¬ (pointer.toNat ≤ index ∧ index < pointer.toNat + 32)) :
    Memory.byteAt after.memory index = Memory.byteAt machine.memory index := by
  have byte : ∀ other : Machine, (windowAt other pointer)[index - (pointer.toNat - 32)]? =
      some (Memory.byteAt other.memory index) := by
    intro other
    rw [windowAt, Memory.bytesAt, List.getElem?_map, List.getElem?_range (by omega), Option.map_some,
      show pointer.toNat - 32 + (index - (pointer.toNat - 32)) = index from by omega]
  refine Option.some.inj ?_
  rw [← byte, ← byte]
  by_cases before : index < pointer.toNat
  · have same := congrArg (·[index - (pointer.toNat - 32)]?) around.1
    simpa only [List.getElem?_take, if_pos (show index - (pointer.toNat - 32) < 32 from by omega)] using same
  · have same := congrArg (·[index - (pointer.toNat - 32) - 64]?) around.2
    simpa only [List.getElem?_drop,
      show 64 + (index - (pointer.toNat - 32) - 64) = index - (pointer.toNat - 32) from by omega] using same

/-- A word that is stored near an address is stored in the window, and nothing else changes. -/
theorem mstore_near (machine : Machine) (above : 32 ≤ pointer.toNat) (room : pointer.toNat + 64 ≤ memoryLimit) (lower : -32 ≤ offset)
    (upper : offset ≤ 32) (stored : Word) : ∃ after,
      (Machine.mstore (displacedWord pointer offset) stored).run machine = .ok () after ∧
      windowAt after pointer = (windowAt machine pointer).store offset stored ∧
      machine.ChangesOnly (fun index => pointer.toNat - 32 ≤ index ∧ index < pointer.toNat + 64) after := by
  have place := toNat_displacedWord above room lower (by omega)
  have size := Word.toBytes_length stored
  obtain ⟨after, ran⟩ := Machine.mstore_ok machine (displacedWord pointer offset) stored (by omega)
  obtain ⟨-, puts⟩ := Machine.puts_of_mstore ran
  rw [place] at puts
  exact ⟨after, ran, windowAt_puts puts (by omega), puts.changes fun index lower upper => by omega⟩

/-- A byte that is stored near an address is stored in the window, and nothing else changes. -/
theorem mstore8_near (machine : Machine) (above : 32 ≤ pointer.toNat) (room : pointer.toNat + 64 ≤ memoryLimit) (lower : -32 ≤ offset)
    (upper : offset ≤ 63) (stored : Word) : ∃ after,
      (Machine.mstore8 (displacedWord pointer offset) stored).run machine = .ok () after ∧
      windowAt after pointer = (windowAt machine pointer).put (32 + offset).toNat [Word.byteAt stored 31] ∧
      machine.ChangesOnly (fun index => pointer.toNat - 32 ≤ index ∧ index < pointer.toNat + 64) after := by
  have place := toNat_displacedWord above room lower (by omega)
  obtain ⟨after, ran, puts⟩ := Machine.mstore8_puts machine (displacedWord pointer offset) stored (by omega)
  rw [place] at puts
  refine ⟨after, ran, windowAt_puts puts (by rw [List.length_singleton]; omega), puts.changes fun index lower upper => ?_⟩
  rw [List.length_singleton] at upper
  omega

/-- An address is no bytes behind itself. -/
theorem displacedWord_zero (pointer : Word) : displacedWord pointer 0 = pointer := BitVec.add_zero pointer

/-- A write to memory applies its form to the window around the word, and changes nothing else. -/
theorem WriteForm.run_effect {form : WriteForm} (lowerable : form.isLowerable .memory = true)
    (above : 32 ≤ pointer.toNat) (room : pointer.toNat + 64 ≤ memoryLimit)
    (read : word.run machine = .ok (machine.wordAt pointer.toNat) machine) : ∃ after,
      (form.effect word pointer value).run machine = .ok () after ∧
      windowAt after pointer = form.apply (windowAt machine pointer) value ∧
      machine.ChangesOnly (fun index => pointer.toNat - 32 ≤ index ∧ index < pointer.toNat + 64) after := by
  rw [← load_zero_windowAt above] at read
  have evaluated : ∀ {expr : AccessExpr}, expr.isLowerable .memory = true →
      (expr.effect word pointer value).run machine = .ok (expr.evaluate (windowAt machine pointer) value) machine := fun able =>
    AccessExpr.run_effect able read fun _ _ lower upper => run_mload_near above room lower upper
  cases form with
  | word expr =>
    rw [effect, Step.bind_of_ok (evaluated lowerable)]
    nth_rewrite 1 [← displacedWord_zero pointer]
    exact mstore_near machine above room (by decide) (by decide) _
  | store8 offset expr =>
    simp only [isLowerable, beq_self_eq_true, Bool.true_and, Bool.and_eq_true, decide_eq_true_eq] at lowerable
    rw [effect, Step.bind_of_ok (evaluated lowerable.2)]
    exact mstore8_near machine above room (by omega) (by omega) _
  | window offset expr =>
    simp only [isLowerable, beq_self_eq_true, Bool.true_and, Bool.and_eq_true, decide_eq_true_eq] at lowerable
    rw [effect, Step.bind_of_ok (evaluated lowerable.2)]
    exact mstore_near machine above room lowerable.1.1 lowerable.1.2 _

/-- A write of a field to memory replaces the field of its word, and changes nothing else. -/
theorem Field.IsWrite.run_effect {field : Field} {form : WriteForm} (write : field.IsWrite .memory form)
    (above : 32 ≤ pointer.toNat) (room : pointer.toNat + 64 ≤ memoryLimit)
    (read : word.run machine = .ok (machine.wordAt pointer.toNat) machine) : ∃ after,
      (form.effect word pointer value).run machine = .ok () after ∧
      machine.Puts after pointer.toNat (Word.toBytes (field.insert (machine.wordAt pointer.toNat) value)) := by
  obtain ⟨after, ran, applied, changes⟩ := WriteForm.run_effect write.lowerable above room read
  have full := length_windowAt machine pointer
  have load := write.load value full
  have around := write.around value full
  rw [← applied] at load around
  rw [load_zero_windowAt above, load_zero_windowAt above] at load
  refine ⟨after, ran, Memory.holds_toBytes.mpr load, changes.calldata, changes.storage, fun index apart => ?_⟩
  rw [Word.toBytes_length] at apart
  by_cases near : pointer.toNat - 32 ≤ index ∧ index < pointer.toNat + 64
  · exact byteAt_of_around around above near.1 near.2 apart
  · exact changes.memory index near

end

end YulAbi
