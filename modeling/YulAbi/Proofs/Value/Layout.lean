import YulAbi.Proofs.Machine.Bytes
import YulAbi.Proofs.Shape.Size
import YulAbi.Value.Encoding

/-!
# Where the parts of encodings lie

An array is encoded like a tuple of as many elements, behind the length word if it varies
in size. Of a sequence of parts each one has a head, and its encoding stands in the head
or in the tail that the head points to. A sequence stands somewhere exactly if all its
parts do.
-/

namespace YulAbi

open Shape (headBytesSum)

namespace Value

/-- The bytes of a part that go to the tails. -/
def tailBytes (member : Shape) (encoding : List UInt8) : Nat :=
  if member.isDynamicallyEncoded then encoding.length else 0

/-- The bytes that the first of several parts put into the tails. -/
def tailsBefore : List Shape → List (List UInt8) → Nat → Nat
  | member :: members, encoding :: encodings, count + 1 =>
    tailBytes member encoding + tailsBefore members encodings count
  | _, _, _ => 0

/-- Encoded parts with their marks. -/
def markedParts (members : List Shape) (encodings : List (List UInt8)) : List (Bool × List UInt8) :=
  List.zipWith (fun member encoding => (member.isDynamicallyEncoded, encoding)) members encodings

/-- The bytes of a sequence of encoded parts. -/
def sequenceBytes (members : List Shape) (encodings : List (List UInt8)) : List UInt8 :=
  assemble (headBytesSum members) (markedParts members encodings)

/-- Whether parts are encoded one by one. -/
structure EncodesEach (members : List Shape) (values : List Value) (encodings : List (List UInt8)) : Prop where
  /-- There is one value for each part. -/
  counted : values.length = members.length
  /-- There is one encoding for each part. -/
  covered : encodings.length = members.length
  /-- Each encoding is that of the value. -/
  each : ∀ position (inside : position < members.length) (inside' : position < values.length)
    (inside'' : position < encodings.length),
    encodeAs members[position] values[position] = .ok encodings[position]

/-- Whether a part with a mark stands where its head and its tail are. -/
def PartStands (bytes : ByteArray) (dynamic : Bool) (head offset tail : Nat) (encoding : List UInt8) : Prop :=
  if dynamic then
    Memory.Holds bytes head (Word.toBytes (Word.ofNat offset)) ∧ Memory.Holds bytes tail encoding
  else Memory.Holds bytes head encoding

section

variable {members : List Shape} {values : List Value} {encodings : List (List UInt8)} {bytes : ByteArray}

/-- No part puts nothing into the tails. -/
theorem tailsBefore_zero (members : List Shape) (encodings : List (List UInt8)) :
    tailsBefore members encodings 0 = 0 := by
  cases members <;> cases encodings <;> rfl

/-- The tails grow by that of the next part. -/
theorem tailsBefore_succ {position : Nat} (inside : position < members.length)
    (inside' : position < encodings.length) :
    tailsBefore members encodings (position + 1) =
      tailsBefore members encodings position + tailBytes members[position] encodings[position] := by
  induction members generalizing encodings position with
  | nil => simp at inside
  | cons member rest ih =>
    cases encodings with
    | nil => simp at inside'
    | cons encoding others =>
      cases position with
      | zero => simp [tailsBefore, tailsBefore_zero]
      | succ position =>
        have next := ih (by simpa using inside) (by simpa using inside')
        simp only [tailsBefore, List.getElem_cons_succ] at next ⊢
        omega

/-- The heads grow by that of the next part. -/
theorem headBytesSum_take_succ {position : Nat} (inside : position < members.length) :
    headBytesSum (members.take (position + 1)) =
      headBytesSum (members.take position) + members[position].headBytes := by
  rw [List.take_succ_eq_append_getElem inside, Shape.headBytesSum_append]
  simp [headBytesSum]

/-- The sizes of heads and tails. -/
theorem length_headsAndTails (covered : encodings.length = members.length)
    (sized : ∀ position (inside : position < members.length) (inside' : position < encodings.length),
      members[position].isDynamicallyEncoded = false →
      encodings[position].length = members[position].headBytes) (offset : Nat) :
    (headsAndTails offset (markedParts members encodings)).1.length = headBytesSum members ∧
      (headsAndTails offset (markedParts members encodings)).2.length =
        tailsBefore members encodings members.length := by
  induction members generalizing encodings offset with
  | nil => simp [markedParts, headsAndTails, headBytesSum, tailsBefore]
  | cons member rest ih =>
    cases encodings with
    | nil => simp at covered
    | cons encoding others =>
      have own := sized 0 (by simp) (by simp)
      have next := fun offset => ih (by simpa using covered)
        (fun position inside inside' static =>
          sized (position + 1) (by simpa using inside) (by simpa using inside') static) offset
      simp only [List.getElem_cons_zero] at own
      simp only [markedParts] at next
      cases dynamic : member.isDynamicallyEncoded with
      | true =>
        obtain ⟨heads, tails⟩ := next (offset + encoding.length)
        simp only [markedParts, List.zipWith_cons_cons, dynamic, headsAndTails, List.length_append,
          Word.toBytes_length, heads, tails, headBytesSum, Shape.headBytes, if_true, tailsBefore,
          tailBytes, List.length_cons, wordBytes, and_self]
      | false =>
        obtain ⟨heads, tails⟩ := next offset
        simp only [markedParts, List.zipWith_cons_cons, dynamic, headsAndTails, List.length_append, heads,
          tails, own dynamic, headBytesSum, tailsBefore, tailBytes, List.length_cons, Bool.false_eq_true,
          if_false, Nat.zero_add, and_self]

/-- Heads and tails stand exactly where all parts do. -/
theorem holds_headsAndTails (covered : encodings.length = members.length)
    (sized : ∀ position (inside : position < members.length) (inside' : position < encodings.length),
      members[position].isDynamicallyEncoded = false →
      encodings[position].length = members[position].headBytes) (head offset tail : Nat) :
    Memory.Holds bytes head (headsAndTails offset (markedParts members encodings)).1 ∧
      Memory.Holds bytes tail (headsAndTails offset (markedParts members encodings)).2 ↔
      ∀ position (inside : position < members.length) (inside' : position < encodings.length),
        PartStands bytes members[position].isDynamicallyEncoded
          (head + headBytesSum (members.take position))
          (offset + tailsBefore members encodings position)
          (tail + tailsBefore members encodings position) encodings[position] := by
  induction members generalizing encodings head offset tail with
  | nil =>
    constructor
    · exact fun _ position inside => absurd inside (by simp)
    · exact fun _ => ⟨Memory.holds_nil _ _, Memory.holds_nil _ _⟩
  | cons member rest ih =>
    cases encodings with
    | nil => simp at covered
    | cons encoding others =>
      have own := sized 0 (by simp) (by simp)
      have next := fun head offset tail => ih (by simpa using covered)
        (fun position inside inside' static =>
          sized (position + 1) (by simpa using inside) (by simpa using inside') static) head offset tail
      simp only [List.getElem_cons_zero] at own
      simp only [markedParts] at next
      have split : (∀ position (inside : position < (member :: rest).length)
          (inside' : position < (encoding :: others).length),
          PartStands bytes (member :: rest)[position].isDynamicallyEncoded
            (head + headBytesSum ((member :: rest).take position))
            (offset + tailsBefore (member :: rest) (encoding :: others) position)
            (tail + tailsBefore (member :: rest) (encoding :: others) position)
            (encoding :: others)[position]) ↔
          PartStands bytes member.isDynamicallyEncoded head offset tail encoding ∧
          ∀ position (inside : position < rest.length) (inside' : position < others.length),
            PartStands bytes rest[position].isDynamicallyEncoded
              (head + member.headBytes + headBytesSum (rest.take position))
              (offset + tailBytes member encoding + tailsBefore rest others position)
              (tail + tailBytes member encoding + tailsBefore rest others position) others[position] := by
        constructor
        · intro stand
          have first := stand 0 (by simp) (by simp)
          simp only [List.getElem_cons_zero, List.take_zero, headBytesSum, tailsBefore, Nat.add_zero] at first
          refine ⟨first, fun position inside inside' => ?_⟩
          have later := stand (position + 1) (by simpa using inside) (by simpa using inside')
          simp only [List.getElem_cons_succ, List.take_succ_cons, headBytesSum, tailsBefore,
            ← Nat.add_assoc] at later
          exact later
        · rintro ⟨first, later⟩ position inside inside'
          cases position with
          | zero => simpa [headBytesSum, tailsBefore] using first
          | succ position =>
            simpa [headBytesSum, tailsBefore, Nat.add_assoc] using
              later position (by simpa using inside) (by simpa using inside')
      rw [split, ← next]
      cases dynamic : member.isDynamicallyEncoded with
      | true =>
        simp only [markedParts, List.zipWith_cons_cons, dynamic, headsAndTails, Memory.holds_append,
          Word.toBytes_length, PartStands, if_true, Shape.headBytes, tailBytes, wordBytes]
        constructor
        · rintro ⟨⟨word, heads⟩, own, tails⟩
          exact ⟨⟨word, own⟩, heads, tails⟩
        · rintro ⟨⟨word, own⟩, heads, tails⟩
          exact ⟨⟨word, heads⟩, own, tails⟩
      | false =>
        simp only [markedParts, List.zipWith_cons_cons, dynamic, headsAndTails, Memory.holds_append,
          own dynamic, PartStands, tailBytes, Bool.false_eq_true, if_false, Nat.add_zero, and_assoc]

end

end Value

end YulAbi
