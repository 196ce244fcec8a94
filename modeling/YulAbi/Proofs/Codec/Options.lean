import YulAbi.Proofs.Codec.Decoding.Bridged
import YulAbi.Proofs.Codec.Encoding.Exact
import YulAbi.Proofs.Codec.ParameterList.Routines
import YulAbi.Proofs.Codec.Session
import YulAbi.Proofs.Yul.Budget

/-!
# Options do not change what is computed

Sessions with different settings answer with routines that differ in their literals and in how
the heads of members are copied. Run on the same machine they return the same, and leave the
same memory and storage. For decoders the call data may be anything and one of the runs has to
return, with heads that do not run past the last address; for encoders there has to be a value
that may be encoded.
-/

namespace YulAbi.Codec

open Shape (headBytesSum)
open Value (Reads Stands encodeAs readAs)

section

variable {settings settings' : Settings} {unit unit' : CodeUnit} {before before' after after' : Workspace}
  {type : SolType} {name name' : String} {machine final : Machine} {source pointer target : Word} {words : List Word}
  {value : Value} {encoding : List UInt8} {limit : Nat}

/-- Routines that do what others do return the same words and leave the same memory, if those return. -/
theorem agree_of_repeats {args : List Word} {effect effect' : MachineStep (List Word)}
    (acts : after.unit.CallActs name args effect) (acts' : after'.unit.CallActs name' args effect')
    (repeats : Machine.Repeats (fun _ => False) (fun _ => False) machine effect effect')
    (returned : (after.unit.call limit name args).run machine = .ok words final) :
    ∃ final' enough,
      (∀ limit, enough ≤ limit → (after'.unit.call limit name' args).run machine = .ok words final') ∧
      final.ChangesOnly (fun _ => False) final' := by
  obtain ⟨final', ran, alike⟩ := repeats machine words final (.refl _ _) (acts.of_call_ok returned)
  obtain ⟨enough, ends⟩ := acts'.exists_enough machine
  exact ⟨final', enough, fun limit long => (ends limit long).trans ran, alike⟩

/-- Whatever the call data and the pointer, if a decoder returns then those of other settings return the same words and
leave the same memory. That heads fit is no matter where a value is encoded, as `headsFit_of_encoded` shows. -/
theorem decoders_agree (session : Session settings unit before) (session' : Session settings' unit' before')
    (answered : (decode settings type).runOn before = (.ok (.routine name), after))
    (answered' : (decode settings' type).runOn before' = (.ok (.routine name'), after'))
    (data : type.shape.isData = true) (roomy : machine.Roomy) (addressed : machine.calldata.size < 2 ^ 64)
    (fit : HeadsFit machine.calldata type.shape source)
    (returned : (after.unit.call limit name [source]).run machine = .ok words final) :
    ∃ final' enough,
      (∀ limit, enough ≤ limit → (after'.unit.call limit name' [source]).run machine = .ok words final') ∧
      final.ChangesOnly (fun _ => False) final' := by
  have acts : after.unit.CallActs name [source] (do
      let word ← decodeAt settings.bridgedReferences type.shape source
      return [word]) := session.decodes answered source
  have acts' : after'.unit.CallActs name' [source] (do
      let word ← decodeAt settings'.bridgedReferences type.shape source
      return [word]) := session'.decodes answered' source
  have agrees : Machine.Repeats (fun _ => False) (fun _ => False) machine
      (decodeAt settings.bridgedReferences type.shape source) (decodeAt settings'.bridgedReferences type.shape source) :=
    decodeAt_agrees data source machine _ roomy addressed (fun _ none => none.elim) fit
  exact agree_of_repeats acts acts' (agrees.bind fun word _ _ => .pure [word]) returned

/-- Parameters are decoded alike one after the other. The induction is on the parameters that are left. -/
theorem decodeWords_repeats {cap cap' : Nat} (first rest : List Shape)
    (data : ∀ parameter ∈ first ++ rest, parameter.isData = true) (roomy : machine.Roomy)
    (addressed : machine.calldata.size < 2 ^ 64) (fit : HeadsFit machine.calldata (.tuple (first ++ rest)) source) :
    Machine.Repeats (fun _ => False) (fun _ => False) machine (decodeWords cap source (headBytesSum first) rest)
      (decodeWords cap' source (headBytesSum first) rest) := by
  induction rest generalizing first machine with
  | nil => exact .pure []
  | cons parameter rest ih =>
    have own : parameter.isData = true := data parameter (by simp)
    have heads : headBytesSum (first ++ [parameter]) = headBytesSum first + parameter.headBytes := by
      rw [Shape.headBytesSum_append, headBytesSum, headBytesSum, Nat.add_zero]
    have inside : first.length < (first ++ parameter :: rest).length := by simp
    have part := fit.member (.inr rfl) inside
    rw [List.getElem_append_right (Nat.le_refl _), List.take_left] at part
    simp only [Nat.sub_self, List.getElem_cons_zero] at part
    refine .bind (partAt_repeats parameter source _) fun address reached found => ?_
    rw [run_partAt] at found
    cases found
    refine .bind (decodeAt_agrees own _ _ _ roomy addressed (fun _ none => none.elim) part) fun word middle decoded => ?_
    have advances := advances_of_decodeAt own roomy addressed decoded
    have same : middle.calldata = machine.calldata := advances.changes.calldata
    rw [← heads]
    exact .bind (ih (first ++ [parameter]) (by simpa using data) (advances.roomy roomy) (same ▸ addressed)
      (by rw [same]; simpa using fit)) fun _ _ _ => .pure _

/-- The same for the decoders of parameter lists. -/
theorem listDecoders_agree {members : List (Labelled SolType)} (session : Session settings unit before)
    (session' : Session settings' unit' before') (listed : decodedParameters type = pure members)
    (answered : (decodeParameterList settings type).runOn before = (.ok name, after))
    (answered' : (decodeParameterList settings' type).runOn before' = (.ok name', after'))
    (data : ∀ parameter ∈ SolType.shapes members, parameter.isData = true)
    (roomy : machine.Roomy) (addressed : machine.calldata.size < 2 ^ 64)
    (fit : HeadsFit machine.calldata (.tuple (SolType.shapes members)) source)
    (returned : (after.unit.call limit name [source]).run machine = .ok words final) :
    ∃ final' enough,
      (∀ limit, enough ≤ limit → (after'.unit.call limit name' [source]).run machine = .ok words final') ∧
      final.ChangesOnly (fun _ => False) final' :=
  agree_of_repeats (session.decodesList listed answered source) (session'.decodesList listed answered' source)
    (decodeWords_repeats [] (SolType.shapes members) data roomy addressed fit) returned

/-- The encoders of different settings answer with the same size and leave the same memory. -/
theorem encoders_agree (session : Session settings unit before) (session' : Session settings' unit' before')
    (answered : (encode settings type).runOn before = (.ok (.routine name), after))
    (answered' : (encode settings' type).runOn before' = (.ok (.routine name'), after'))
    (data : type.shape.isData = true) (read : readAs machine type.shape pointer = .ok value)
    (below : ∀ index, Reads machine type.shape pointer index → index < target.toNat)
    (encoded : encodeAs type.shape value = .ok encoding) (room : target.toNat + encoding.length ≤ memoryLimit) :
    ∃ size final final' enough,
      (∀ limit, enough ≤ limit → (after.unit.call limit name [pointer, target]).run machine = .ok [size] final ∧
        (after'.unit.call limit name' [pointer, target]).run machine = .ok [size] final') ∧
      final.ChangesOnly (fun _ => False) final' := by
  have acts : after.unit.CallActs name [pointer, target] (do
      let size ← encodeAt settings.bridgedReferences type.shape pointer target
      return [size]) := session.encodes answered pointer target
  have acts' : after'.unit.CallActs name' [pointer, target] (do
      let size ← encodeAt settings'.bridgedReferences type.shape pointer target
      return [size]) := session'.encodes answered' pointer target
  have stands : Stands machine 0 target.toNat type.shape pointer value :=
    ⟨read, fun index reads => ⟨Nat.zero_le _, below index reads⟩⟩
  obtain ⟨final, written, puts⟩ := encodeAt_writes data machine pointer target value encoding stands encoded room
  obtain ⟨final', written', puts'⟩ := encodeAt_writes data machine pointer target value encoding stands encoded room
  obtain ⟨enough, ends⟩ := acts.exists_enough machine
  obtain ⟨enough', ends'⟩ := acts'.exists_enough machine
  have alike : final.ChangesOnly (fun _ => False) final' :=
    ((Machine.ChangesOnly.refl (fun _ => False) machine).puts puts puts').mono fun _ inside => inside.1
  refine ⟨Word.ofNat encoding.length, final, final', enough + enough', fun limit long => ⟨?_, ?_⟩, alike⟩
  · rw [ends limit (by omega), Step.bind_of_ok written]
    rfl
  · rw [ends' limit (by omega), Step.bind_of_ok written']
    rfl

end

end YulAbi.Codec
