import Mathlib.Data.String.Basic
import YulAbi.Command
import YulAbi.Proofs.Codec.ParameterList.Agreement
import YulAbi.Proofs.Value.Encoded

/-!
# The arguments that are printed for a call

Call data are decoded for the first function of a name. Those that begin with its selector, with
encoded arguments behind it, are decoded to these arguments, and the record that is printed binds
the name of each parameter to the value of the last parameter of this name. So an argument is lost
exactly if a later parameter has its name, which may be a name that was made up for a parameter
without one. Call data for another function of the same name are refused.
-/

namespace YulAbi.Command

open Value (allocatedEach encodeAs)

/-! ### Records of arguments -/

/-- The value of a field of a record. -/
def fieldValue (fields : List (String × Document)) (name : String) : Option Document :=
  (fields.find? fun field => field.1 == name).map Prod.snd

section

variable {name : String} {value : Document} {fields : List (String × Document)}

/-- A field that is put is there, and the others are as before. -/
theorem fieldValue_putField (other : String) :
    fieldValue (putField name value fields) other = if name = other then some value else fieldValue fields other := by
  have found : ∀ (field : String × Document) (rest : List (String × Document)), fieldValue (field :: rest) other =
      if field.1 = other then some field.2 else fieldValue rest other := by
    intro field rest
    by_cases same : field.1 = other <;> simp [fieldValue, same]
  induction fields with
  | nil => exact found _ _
  | cons field rest ih =>
    rw [putField]
    split
    · rename_i own
      rw [found, found, ← own]
      split <;> rfl
    · split
      · exact found _ _
      · rename_i different _
        rw [found, found, ih]
        split
        · rename_i own
          rw [if_neg fun same => different (same.trans own.symm)]
        · rfl

/-- A field of a record to which one has been put is that one or an earlier one. -/
theorem mem_putField {field : String × Document} (listed : field ∈ putField name value fields) :
    field = (name, value) ∨ field ∈ fields := by
  induction fields with
  | nil => exact .inl (List.mem_singleton.mp listed)
  | cons first rest ih =>
    rw [putField] at listed
    split at listed
    · exact (List.mem_cons.mp listed).imp_right (List.mem_cons_of_mem _)
    · split at listed
      · exact List.mem_cons.mp listed
      · rcases List.mem_cons.mp listed with rfl | behind
        · exact .inr List.mem_cons_self
        · exact (ih behind).imp_right (List.mem_cons_of_mem _)

/-- Names still increase when a field is put. -/
theorem pairwise_putField (sorted : fields.Pairwise fun left right => left.1 < right.1) :
    (putField name value fields).Pairwise fun left right => left.1 < right.1 := by
  induction fields with
  | nil => exact List.pairwise_singleton _ _
  | cons first rest ih =>
    obtain ⟨above, others⟩ := List.pairwise_cons.mp sorted
    rw [putField]
    split
    · rename_i same
      exact List.pairwise_cons.mpr ⟨same ▸ above, others⟩
    · rename_i different
      split
      · rename_i less
        refine List.pairwise_cons.mpr ⟨List.forall_mem_cons.mpr ⟨less, fun field listed => ?_⟩, sorted⟩
        exact lt_trans less (above field listed)
      · rename_i notLess
        have greater : first.1 < name := lt_of_le_of_ne (not_lt.mp notLess) (Ne.symm different)
        refine List.pairwise_cons.mpr ⟨fun field listed => ?_, ih others⟩
        rcases mem_putField listed with rfl | earlier
        · exact greater
        · exact above field earlier

end

/-- The names under which the parameters from an index on are printed. -/
def argumentNames (index : Nat) : List (Labelled SolType) → List String
  | [] => []
  | parameter :: rest => argumentName index parameter.label :: argumentNames (index + 1) rest

/-- A name that was made up for a parameter may be that of another one. -/
example : argumentNames 0 [⟨some "arg1", .bool⟩, ⟨some "", .bytes⟩] = ["arg1", "arg1"] := by decide

/-- Each parameter has a name. -/
theorem length_argumentNames (index : Nat) (parameters : List (Labelled SolType)) :
    (argumentNames index parameters).length = parameters.length := by
  induction parameters generalizing index with
  | nil => rfl
  | cons parameter rest ih => exact congrArg (· + 1) (ih (index + 1))

/-- The record of named arguments that are put into it one after the other. -/
def putArguments (fields : List (String × Document)) (arguments : List (String × Value)) : List (String × Document) :=
  arguments.foldl (fun fields argument => putField argument.1 argument.2.toDocument fields) fields

section

variable {arguments : List (String × Value)} {fields : List (String × Document)}

/-- A name has the value of the last argument that has it, or the one that it had. -/
theorem fieldValue_putArguments (name : String) : fieldValue (putArguments fields arguments) name =
    ((arguments.reverse.find? fun argument => argument.1 == name).map fun argument => argument.2.toDocument).or
      (fieldValue fields name) := by
  induction arguments generalizing fields with
  | nil => rfl
  | cons argument rest ih =>
    rw [putArguments, List.foldl_cons, List.reverse_cons, List.find?_append]
    refine ih.trans ?_
    rw [fieldValue_putField]
    cases rest.reverse.find? fun argument => argument.1 == name with
    | some later => rfl
    | none => by_cases same : argument.1 = name <;> simp [same]

/-- Names increase in a record of arguments. -/
theorem pairwise_putArguments (sorted : fields.Pairwise fun left right => left.1 < right.1) :
    (putArguments fields arguments).Pairwise fun left right => left.1 < right.1 := by
  induction arguments generalizing fields with
  | nil => exact sorted
  | cons argument rest ih => exact ih (pairwise_putField sorted)

/-- Each argument has a field of its own if no two of them have one name. -/
theorem fieldValue_of_nodup (distinct : (arguments.map Prod.fst).Nodup) {argument : String × Value}
    (listed : argument ∈ arguments) :
    fieldValue (putArguments [] arguments) argument.1 = some argument.2.toDocument := by
  have found : arguments.reverse.find? (fun other => other.1 == argument.1) = some argument := by
    cases search : arguments.reverse.find? fun other => other.1 == argument.1 with
    | none => exact absurd (List.find?_eq_none.mp search argument (List.mem_reverse.mpr listed)) (by simp)
    | some other =>
      have listed' := List.mem_reverse.mp (List.mem_of_find?_eq_some search)
      have same : other.1 = argument.1 := by simpa using List.find?_some search
      rw [List.inj_on_of_nodup_map distinct listed' listed same]
  rw [fieldValue_putArguments, found]
  rfl

end

/-! ### Decoding a call -/

section

variable {settings : Settings} {machine : Machine} {parameters : List (Labelled SolType)} {values : List Value}
  {words : List Word} {low high : Nat}

/-- Arguments that stand in memory are read one after the other. -/
theorem readArguments_of_stand (stand : Codec.WordsStand machine low high (SolType.shapes parameters) words values)
    (index : Nat) (fields : List (String × Document)) :
    readArguments machine index fields (parameters.zip words) =
      .ok (putArguments fields ((argumentNames index parameters).zip values)) := by
  induction parameters generalizing index fields words values with
  | nil => rfl
  | cons parameter rest ih =>
    obtain ⟨counted, covered, each⟩ := stand
    obtain ⟨word, words, rfl⟩ := List.exists_cons_of_length_eq_add_one counted
    obtain ⟨value, values, rfl⟩ := List.exists_cons_of_length_eq_add_one covered
    have read : Value.readAs machine parameter.type.shape word = .ok value :=
      (each 0 (Nat.zero_lt_succ _) (Nat.zero_lt_succ _) (Nat.zero_lt_succ _)).read
    have others : Codec.WordsStand machine low high (SolType.shapes rest) words values :=
      ⟨Nat.succ.inj counted, Nat.succ.inj covered, fun position inside inside' inside'' =>
        each (position + 1) (Nat.succ_lt_succ inside) (Nat.succ_lt_succ inside') (Nat.succ_lt_succ inside'')⟩
    rw [List.zip_cons_cons, readArguments, read]
    exact ih others (index + 1) _

/-- A machine before anything has run has the memory that is free at first. -/
theorem free_start (calldata : ByteArray) : (Machine.start calldata).free = Machine.firstFree := by
  have same : (Machine.start calldata).free = (Machine.start .empty).free := rfl
  rw [same]
  decide +kernel

/-- Call data that hold a selector and encoded arguments are decoded to the record of these arguments, if the
decoder is generated and is not stopped for want of steps. -/
theorem decodeCall_restores {signature routine : String} {after : Workspace} {encoding : List UInt8}
    (generated : (Codec.decodeParameterList settings (.tuple parameters)).runOn (.start .empty) = (.ok routine, after))
    (data : (Shape.tuple (SolType.shapes parameters)).isData = true)
    (encoded : encodeAs (.tuple (SolType.shapes parameters)) (.tuple values) = .ok encoding)
    (addressed : 4 + encoding.length < 2 ^ 64)
    (room : Machine.firstFree + allocatedEach (SolType.shapes parameters) values ≤ memoryLimit)
    (steps : ∀ limit final, (after.unit.call Yul.standardStepLimit routine [4#256]).run
      (.start ⟨(Keccak.selectorBytes signature ++ encoding).toArray⟩) ≠ .error (.stepLimit limit) final) :
    decodeCall settings signature parameters (Keccak.selectorBytes signature ++ encoding) =
      .ok (.record (putArguments [] ((argumentNames 0 parameters).zip values))) := by
  have four := Keccak.length_selectorBytes signature
  have session : Codec.Session settings .empty (.start .empty) := .start
  have restores := (session.decodesList rfl generated).restores data encoded
  have length : (Keccak.selectorBytes signature ++ encoding).length = 4 + encoding.length := by
    rw [List.length_append, four]
  have size : (Machine.start ⟨(Keccak.selectorBytes signature ++ encoding).toArray⟩).calldata.size =
      4 + encoding.length := length
  have holds := (Memory.holds_append.mp (Memory.holds_toArray (Keccak.selectorBytes signature ++ encoding))).2
  rw [four] at holds
  obtain ⟨words, final, enough, ends, stand, -⟩ := restores
    (.start ⟨(Keccak.selectorBytes signature ++ encoding).toArray⟩) 4#256
    (by rw [free_start]; decide) (size ▸ addressed) holds (Nat.le_of_eq size.symm) (by rw [free_start]; exact room)
  -- the run ends with a budget that suffices, and the command's own run ends the same way unless it is stopped
  have called : (after.unit.call Yul.standardStepLimit routine [4#256]).run
      (.start ⟨(Keccak.selectorBytes signature ++ encoding).toArray⟩) = .ok words final := by
    rcases after.unit.call_exhausted_or_eq routine [4#256]
        (.start ⟨(Keccak.selectorBytes signature ++ encoding).toArray⟩)
        (Nat.le_max_left Yul.standardStepLimit enough) with ⟨limit, stopped, failed⟩ | same
    · exact absurd failed (steps limit stopped)
    · exact same.symm.trans (ends _ (Nat.le_max_right _ _))
  have selected : (Keccak.selectorBytes signature ++ encoding).take 4 = Keccak.selectorBytes signature :=
    List.take_left' four
  change (after.unit.call Yul.standardStepLimit routine [Word.ofNat 4])
    (.start ⟨(Keccak.selectorBytes signature ++ encoding).toArray⟩) = _ at called
  unfold decodeCall
  simp only [selected, generated, called, bne_self_eq_false, Bool.false_eq_true, if_false]
  rw [readArguments_of_stand stand]
  rfl

end

/-! ### The command -/

section

variable {files : Files} {settings : Settings} {abi function calldata signature name : String}
  {items : List Interface.Item} {types : List SolType} {parameters : List (Labelled SolType)} {bytes : List UInt8}

/-- What is printed for call data is what they are decoded to for the first function of the name. -/
theorem reflectText_eq (loaded : loadItems files abi = .ok items) (built : itemTypes items (some function) = .ok types)
    (first : firstFunction? types = some (name, parameters)) (read : Hex.toBytes? (Text.trim calldata) = some bytes)
    (pretty : Bool) : reflectText files settings abi function calldata pretty =
      (decodeCall settings (name ++ SolType.parameterListText parameters) parameters bytes).map fun call =>
        (if pretty then call.pretty else call.compact) ++ "\n" := by
  unfold reflectText
  simp only [loaded, built, first, read, bind, Except.bind]
  cases decodeCall settings (name ++ SolType.parameterListText parameters) parameters bytes <;> rfl

/-- Call data that do not begin with the selector of the first function of the name are refused, also those for
another function of this name. -/
theorem reflect_refuses_other_selectors (loaded : loadItems files abi = .ok items)
    (built : itemTypes items (some function) = .ok types) (first : firstFunction? types = some (name, parameters))
    (signed : signature = name ++ SolType.parameterListText parameters)
    (read : Hex.toBytes? (Text.trim calldata) = some bytes) (different : bytes.take 4 ≠ Keccak.selectorBytes signature)
    (pretty : Bool) : reflectText files settings abi function calldata pretty = .error (.wrongSelector signature) := by
  have refused : decodeCall settings signature parameters bytes = .error (.wrongSelector signature) := by
    unfold decodeCall
    rw [if_pos (bne_iff_ne.mpr different)]
    rfl
  rw [reflectText_eq loaded built first read, ← signed, refused]
  rfl

/-- Call data for the first function of a name are printed as a record whose names increase. It binds each name to
the value of the last parameter that has it, so each parameter has its own field if the names differ. -/
theorem reflect_prints_arguments (loaded : loadItems files abi = .ok items)
    (built : itemTypes items (some function) = .ok types) (first : firstFunction? types = some (name, parameters))
    (signed : signature = name ++ SolType.parameterListText parameters) {encoding : List UInt8} {values : List Value}
    (read : Hex.toBytes? (Text.trim calldata) = some (Keccak.selectorBytes signature ++ encoding))
    (data : (Shape.tuple (SolType.shapes parameters)).isData = true)
    (encoded : encodeAs (.tuple (SolType.shapes parameters)) (.tuple values) = .ok encoding)
    {routine : String} {after : Workspace}
    (generated : (Codec.decodeParameterList settings (.tuple parameters)).runOn (.start .empty) = (.ok routine, after))
    (addressed : 4 + encoding.length < 2 ^ 64)
    (room : Machine.firstFree + allocatedEach (SolType.shapes parameters) values ≤ memoryLimit)
    (steps : ∀ limit final, (after.unit.call Yul.standardStepLimit routine [4#256]).run
      (.start ⟨(Keccak.selectorBytes signature ++ encoding).toArray⟩) ≠ .error (.stepLimit limit) final)
    (pretty : Bool) : ∃ fields,
      reflectText files settings abi function calldata pretty =
        .ok ((if pretty then (Document.record fields).pretty else (Document.record fields).compact) ++ "\n") ∧
      (fields.Pairwise fun left right => left.1 < right.1) ∧
      (∀ name, fieldValue fields name = (((argumentNames 0 parameters).zip values).reverse.find?
        fun argument => argument.1 == name).map fun argument => argument.2.toDocument) ∧
      ((argumentNames 0 parameters).Nodup → ∀ argument ∈ (argumentNames 0 parameters).zip values,
        fieldValue fields argument.1 = some argument.2.toDocument) := by
  refine ⟨putArguments [] ((argumentNames 0 parameters).zip values), ?_, pairwise_putArguments List.Pairwise.nil,
    fun name => ?_, fun distinct argument listed => fieldValue_of_nodup ?_ listed⟩
  · rw [reflectText_eq loaded built first read, ← signed,
      decodeCall_restores generated data encoded addressed room steps]
    rfl
  · rw [fieldValue_putArguments]
    exact Option.or_none
  · obtain ⟨-, encodings, each, -⟩ := Codec.encodesEach_of_encoded data encoded
    have counted := each.counted
    rw [SolType.shapes_eq_map, List.length_map] at counted
    rwa [List.map_fst_zip (by rw [length_argumentNames, counted])]

end

/-- An interface with two functions of one name, in the only file that there is. -/
def twoFunctions : Files := fun _ => some
  ("[\x7b\"type\":\"function\",\"name\":\"f\",\"inputs\":[\x7b\"name\":\"x\",\"type\":\"uint256\"\x7d],\"stateMutability\":\"pure\"\x7d," ++
   "\x7b\"type\":\"function\",\"name\":\"f\",\"inputs\":[\x7b\"name\":\"to\",\"type\":\"address\"\x7d],\"stateMutability\":\"pure\"\x7d]")

/-- The first of these functions has one number. -/
theorem firstFunction?_twoFunctions : ∃ items types, loadItems twoFunctions "abi.json" = .ok items ∧
    itemTypes items (some "f") = .ok types ∧ firstFunction? types = some ("f", [⟨some "x", .integer false 256⟩]) := by
  -- types cannot be compared, so the parameters are compared by their labels and shapes
  have made : (((loadItems twoFunctions "abi.json").bind fun items => itemTypes items (some "f")).toOption.bind
      firstFunction?).map (fun found => (found.1, found.2.map fun parameter => (parameter.label, parameter.type.shape))) =
      some ("f", [(some "x", .integer false 256)]) := by decide +kernel
  cases loaded : loadItems twoFunctions "abi.json" with
  | error cause =>
    rw [loaded] at made
    cases made
  | ok items =>
    rw [loaded] at made
    change ((itemTypes items (some "f")).toOption.bind firstFunction?).map _ = _ at made
    cases built : itemTypes items (some "f") with
    | error cause =>
      rw [built] at made
      cases made
    | ok types =>
      rw [built] at made
      change (firstFunction? types).map _ = _ at made
      obtain ⟨⟨name, parameters⟩, first, same⟩ := Option.map_eq_some_iff.mp made
      obtain ⟨rfl, same⟩ := Prod.mk.inj same
      obtain ⟨⟨label, type⟩, rest, rfl, own, none⟩ := List.map_eq_cons_iff.mp same
      obtain ⟨rfl, shaped⟩ := Prod.mk.inj own
      obtain rfl := List.map_eq_nil_iff.mp none
      cases type <;> cases shaped
      exact ⟨items, types, rfl, built, first⟩

/-- The selector of the first of these functions. -/
theorem selectorBytes_first : Keccak.selectorBytes "f(uint256)" = [0xb3, 0xde, 0x64, 0x8b] := by decide +kernel

/-- Call data for the first of these functions are printed. -/
theorem reflect_prints_thousand : ∃ fields,
    reflectText twoFunctions .standard "abi.json" "f"
      "0xb3de648b00000000000000000000000000000000000000000000000000000000000003e8" false =
      .ok ((Document.record fields).compact ++ "\n") ∧
    fieldValue fields "x" = some (Value.word 1000).toDocument := by
  obtain ⟨items, types, loaded, built, first⟩ := firstFunction?_twoFunctions
  have read : Hex.toBytes? (Text.trim "0xb3de648b00000000000000000000000000000000000000000000000000000000000003e8") =
      some (Keccak.selectorBytes "f(uint256)" ++ Word.toBytes 1000#256) := by
    rw [selectorBytes_first]
    decide +kernel
  let decoder := (Codec.decodeParameterList .standard (.tuple [⟨some "x", .integer false 256⟩])).runOn (.start .empty)
  have generated : decoder = (.ok "abi_decode_params_tuple_uint256", decoder.2) := rfl
  have steps : ∀ limit final,
      (decoder.2.unit.call Yul.standardStepLimit "abi_decode_params_tuple_uint256" [4#256]).run
        (.start ⟨(Keccak.selectorBytes "f(uint256)" ++ Word.toBytes 1000#256).toArray⟩) ≠
          .error (.stepLimit limit) final := by
    have ends : (MachineStep.runOn
        (decoder.2.unit.call Yul.standardStepLimit "abi_decode_params_tuple_uint256" [4#256])
        (.start ⟨(Keccak.selectorBytes "f(uint256)" ++ Word.toBytes 1000#256).toArray⟩)).1.toBool = true := by
      rw [selectorBytes_first]
      decide +kernel
    intro limit final stopped
    rw [MachineStep.runOn, stopped] at ends
    cases ends
  have encoded : encodeAs (.tuple [.integer false 256]) (.tuple [.word 1000]) = .ok (Word.toBytes 1000#256) := rfl
  obtain ⟨fields, printed, -, -, own⟩ := reflect_prints_arguments loaded built first
    (by decide +kernel : "f(uint256)" = _) read rfl encoded generated (by decide) (by decide) steps false
  exact ⟨fields, printed, own (by decide) ("x", .word 1000) (by decide +kernel)⟩

/-- Call data for the second of these functions are refused, as they begin with its own selector. -/
theorem reflect_refuses_second_function :
    reflectText twoFunctions .standard "abi.json" "f"
      "0xfc68521a0000000000000000000000000000000000000000000000000000000000001234" false =
      .error (.wrongSelector "f(uint256)") := by
  obtain ⟨items, types, loaded, built, first⟩ := firstFunction?_twoFunctions
  have read : Hex.toBytes? (Text.trim "0xfc68521a0000000000000000000000000000000000000000000000000000000000001234") =
      some ([0xfc, 0x68, 0x52, 0x1a] ++ Word.toBytes 0x1234#256) := by decide +kernel
  have different : ([0xfc, 0x68, 0x52, 0x1a] ++ Word.toBytes 0x1234#256).take 4 ≠ Keccak.selectorBytes "f(uint256)" := by
    rw [selectorBytes_first]
    decide
  exact reflect_refuses_other_selectors loaded built first (by decide +kernel) read different false

end YulAbi.Command
