import YulAbi.Codec.Request
import YulAbi.Proofs.Emission.Orderly

/-!
# Names in generated code

An identifier is a letter or an underscore, followed by letters, digits and underscores. The
names of a unit are those of its routines and constants and all that stand in the routines:
parameters and return values, variables, and the constants and routines that are referred to.
Names are built in a few ways only, and each of them makes an identifier: a plain identifier is
made of any text, and more letters, digits and underscores are put behind or in front of one.
An emission is followed however it ends: also where it fails it leaves identifiers only.
-/

namespace YulAbi

namespace Identifier

/-- Whether a character may begin an identifier: an ASCII letter or the underscore. -/
def isStart (char : Char) : Bool := isPlain char && !Numeral.isDigit char

/-- Whether a text is an identifier. -/
def isIdentifier (name : String) : Bool :=
  match name.toList with
  | [] => false
  | first :: rest => isStart first && rest.all isPlain

/-- Whether all of some texts are identifiers. -/
def Identifiers (names : List String) : Prop := ∀ name ∈ names, isIdentifier name = true

/-- Whether a text may stand behind an identifier. -/
def isTail (text : String) : Bool := text.toList.all isPlain

section

variable {name text text' : String} {names names' : List String}

/-- No name at all. -/
@[simp]
theorem identifiers_nil : Identifiers [] := nofun

/-- The first name and the others. -/
@[simp]
theorem identifiers_cons : Identifiers (name :: names) ↔ isIdentifier name = true ∧ Identifiers names :=
  List.forall_mem_cons

/-- The names in front and those behind. -/
@[simp]
theorem identifiers_append : Identifiers (names ++ names') ↔ Identifiers names ∧ Identifiers names' :=
  List.forall_mem_append

/-- Texts that may stand behind an identifier may do so together. -/
@[simp]
theorem isTail_append : isTail (text ++ text') = (isTail text && isTail text') := by
  rw [isTail, String.toList_append, List.all_append]
  rfl

/-- An identifier begins with a character that may begin it. -/
theorem isIdentifier_iff : isIdentifier name = true ↔
    ∃ first rest, name.toList = first :: rest ∧ isStart first = true ∧ rest.all isPlain = true := by
  unfold isIdentifier
  cases name.toList with
  | nil => simp
  | cons first rest => simp

/-- What may begin an identifier may also stand behind it. -/
theorem isTail_of_isIdentifier (h : isIdentifier name = true) : isTail name = true := by
  obtain ⟨first, rest, chars, start, tail⟩ := isIdentifier_iff.mp h
  rw [isTail, chars, List.all_cons, (Bool.and_eq_true_iff.mp start).1, tail, Bool.and_self]

/-- An identifier with more letters, digits and underscores behind it. -/
theorem isIdentifier_append (h : isIdentifier name = true) (tail : isTail text = true) :
    isIdentifier (name ++ text) = true := by
  obtain ⟨first, rest, chars, start, plain⟩ := isIdentifier_iff.mp h
  refine isIdentifier_iff.mpr ⟨first, rest ++ text.toList, ?_, start, ?_⟩
  · rw [String.toList_append, chars, List.cons_append]
  · rw [List.all_append, plain]
    exact tail

/-- An identifier with an underscore and more behind it. -/
theorem isIdentifier_joined (h : isIdentifier name = true) (tail : isTail text = true) :
    isIdentifier (name ++ "_" ++ text) = true :=
  isIdentifier_append (isIdentifier_append h (by decide)) tail

/-- The digits of a number. -/
@[simp]
theorem isTail_repr (number : Nat) : isTail (Nat.repr number) = true := by
  rw [isTail, Nat.repr_eq_ofList_toDigits, String.toList_ofList, List.all_eq_true]
  intro char listed
  simp [isPlain, Numeral.isDigit_of_mem_toDigits listed]

/-- Texts with underscores between them. -/
theorem isTail_intercalate {texts : List String} (h : ∀ text ∈ texts, isTail text = true) :
    isTail ("_".intercalate texts) = true := by
  have plain : ∀ char ∈ ['_'].intercalate (texts.map String.toList), isPlain char = true := by
    induction texts with
    | nil => exact nofun
    | cons first rest ih =>
      obtain ⟨own, others⟩ := List.forall_mem_cons.mp h
      cases rest with
      | nil => simpa [isTail] using own
      | cons second more =>
        intro char listed
        rw [List.map_cons, List.map_cons, List.intercalate_cons_cons, List.mem_append, List.mem_append] at listed
        rcases listed with (listed | listed) | listed
        · exact List.all_eq_true.mp own char listed
        · rw [List.mem_singleton.mp listed]
          decide
        · exact ih others char listed
  rw [isTail, List.all_eq_true, String.toList_intercalate]
  exact plain

/-- Every text has a plain identifier. -/
theorem isIdentifier_sanitize (text : String) : isIdentifier (sanitize text) = true := by
  have plain : ∀ char ∈ plainChars text.toList, isPlain char = true := fun _ => isPlain_of_mem_plainChars
  have started : ∃ first rest, plainChars text.toList = first :: rest ∧ Numeral.isDigit first = false := by
    -- an underscore stands for an empty text and in front of a digit
    unfold plainChars
    dsimp only
    split
    · exact ⟨_, _, rfl, by decide⟩
    · split
      · exact ⟨_, _, rfl, by decide⟩
      · rename_i noDigit
        exact ⟨_, _, rfl, by simpa using noDigit⟩
  obtain ⟨first, rest, chars, noDigit⟩ := started
  rw [chars] at plain
  refine isIdentifier_iff.mpr ⟨first, rest, ?_, ?_, ?_⟩
  · rw [sanitize, String.toList_ofList, chars]
  · rw [isStart, plain first List.mem_cons_self, noDigit]
    rfl
  · exact List.all_eq_true.mpr fun char listed => plain char (List.mem_cons_of_mem _ listed)

/-- A fresh name for an identifier is an identifier. -/
theorem isIdentifier_choose (taken : List String) (h : isIdentifier name = true) :
    isIdentifier (FreshName.choose taken name) = true := by
  unfold FreshName.choose FreshName.candidate
  dsimp only
  split
  · exact h
  · exact isIdentifier_joined h (isTail_repr _)

end

end Identifier

open Identifier

/-! ### Names of shapes -/

namespace Shape

mutual
/-- What a shape gives to names is an identifier, whatever the names in the shape are. -/
theorem isIdentifier_fragment : (shape : Shape) → isIdentifier shape.fragment = true
  | .bool | .address | .bytes | .string | .tuple [] => by decide
  | .function _ _ => by
    rw [fragment]
    decide
  | .integer signed bits => by
    cases signed <;> exact isIdentifier_append (by decide) (isTail_repr bits)
  | .fixedBytes size => isIdentifier_append (by decide) (isTail_repr size)
  | .enumeration name _ | .userDefined name _ | .struct name _ | .error name _ | .event name _ _ _ =>
    isIdentifier_sanitize name
  | .array base none => isIdentifier_append (isIdentifier_fragment base) (by decide)
  | .array base (some length) => by
    have suffix : isTail ("_array" ++ Nat.repr length) = true := by rw [isTail_append, isTail_repr]; rfl
    exact isIdentifier_append (isIdentifier_fragment base) suffix
  | .tuple (first :: rest) =>
    isIdentifier_append (by decide) (isTail_intercalate (isTail_fragments (first :: rest)))
/-- The same for several shapes. -/
theorem isTail_fragments : (shapes : List Shape) → ∀ text ∈ fragments shapes, isTail text = true
  | [] => nofun
  | shape :: rest =>
    List.forall_mem_cons.mpr ⟨isTail_of_isIdentifier (isIdentifier_fragment shape), isTail_fragments rest⟩
end

end Shape

/-- Names that are given to shapes are identifiers if the earlier ones are. -/
theorem OwnerNames.identifiers_owner {names : OwnerNames} (h : Identifiers names.taken) (shape : Shape) :
    isIdentifier (names.owner shape).1 = true ∧ Identifiers (names.owner shape).2.taken := by
  unfold owner
  split
  case h_1 name found =>
    obtain ⟨entry, isFound, rfl⟩ := Option.map_eq_some_iff.mp found
    exact ⟨h _ (List.mem_map_of_mem (List.mem_of_find?_eq_some isFound)), h⟩
  case h_2 =>
    have fresh := isIdentifier_choose names.taken shape.isIdentifier_fragment
    exact ⟨fresh, identifiers_cons.mpr ⟨fresh, h⟩⟩

/-! ### Names in code -/

namespace Yul

mutual
/-- The names in an expression: variables, constants and routines. -/
@[simp]
def Expr.names : Expr → List String
  | .literal _ => []
  | .ident name => [name]
  | .constant name => [name]
  | .builtin _ args => Expr.namesOfAll args
  | .call name args => name :: Expr.namesOfAll args
/-- The names in several expressions. -/
@[simp]
def Expr.namesOfAll : List Expr → List String
  | [] => []
  | expr :: rest => expr.names ++ Expr.namesOfAll rest
end

mutual
/-- The names in a statement. -/
@[simp]
def Stmt.names : Stmt → List String
  | .declare names none => names
  | .declare names (some value) => names ++ value.names
  | .assign names value => names ++ value.names
  | .eval expr => expr.names
  | .branch condition body => condition.names ++ Block.names body
  | .loop start condition step body => Block.names start ++ condition.names ++ Block.names step ++ Block.names body
  | .leave => []
/-- The names in a block. -/
@[simp]
def Block.names : List Stmt → List String
  | [] => []
  | stmt :: rest => stmt.names ++ Block.names rest
end

/-- The names of and in a routine. -/
def Routine.names (routine : Routine) : List String :=
  routine.name :: (routine.params.map RoutineParameter.name ++ routine.returns.map RoutineParameter.name ++
    Block.names routine.body)

/-- A number has no names. -/
@[simp]
theorem Expr.names_number (value : Nat) : (Expr.number value).names = [] := rfl

/-- What is left out of a sum has no names. -/
@[simp]
theorem Expr.names_add (left right : Expr) : (Expr.add left right).names = left.names ++ right.names := by
  unfold Expr.add
  split
  · simp [*]
  · split
    · simp [*]
    · split <;> simp

/-- What is left out of a difference has no names. -/
@[simp]
theorem Expr.names_sub (left right : Expr) : (Expr.sub left right).names = left.names ++ right.names := by
  unfold Expr.sub
  split <;> simp [*]

/-- What is left out of a product has no names. -/
@[simp]
theorem Expr.names_mul (left right : Expr) : (Expr.mul left right).names = left.names ++ right.names := by
  unfold Expr.mul
  split
  · simp [*]
  · split
    · simp [*]
    · split <;> simp

/-- What is left out of a left shift has no names. -/
@[simp]
theorem Expr.names_shl (bits value : Expr) : (Expr.shl bits value).names = bits.names ++ value.names := by
  unfold Expr.shl
  split <;> simp [*]

/-- What is left out of a right shift has no names. -/
@[simp]
theorem Expr.names_shr (bits value : Expr) : (Expr.shr bits value).names = bits.names ++ value.names := by
  unfold Expr.shr
  split <;> simp [*]

/-- Blocks in a row. -/
@[simp]
theorem Block.names_append (first second : Block) :
    Block.names (first ++ second) = Block.names first ++ Block.names second := by
  induction first with
  | nil => rfl
  | cons stmt rest ih => simp [ih]

/-- The names of and in a routine over words. -/
@[simp]
theorem Routine.names_ofBody (name : String) (params returns : List String) (body : Block) :
    (Routine.ofBody name params returns body).names = name :: (params ++ returns ++ Block.names body) := by
  have named : ∀ names : List String, (names.map RoutineParameter.word).map RoutineParameter.name = names := by
    intro names
    rw [List.map_map]
    exact List.map_id names
  rw [Routine.names, Routine.ofBody, named, named]

end Yul

namespace CodeUnit

/-- The names of and in the routines and constants of a unit. -/
def names (unit : CodeUnit) : List String :=
  unit.routines.flatMap Yul.Routine.names ++ unit.constants.map Prod.fst

variable {unit after : CodeUnit}

/-- A routine brings its own names only. -/
theorem identifiers_addRoutine {routine : Yul.Routine} (h : Identifiers unit.names) (own : Identifiers routine.names)
    (added : unit.addRoutine routine = .ok after) : Identifiers after.names := by
  unfold addRoutine at added
  split at added
  · cases added
    simp only [names, identifiers_append, List.flatMap_append, List.flatMap_singleton] at h ⊢
    exact ⟨⟨h.1, own⟩, h.2⟩
  · split at added <;> cases added
    exact h

/-- A constant brings its own name only. -/
theorem identifiers_addConstant {name : String} {value : Word} (h : Identifiers unit.names)
    (own : isIdentifier name = true) (added : unit.addConstant name value = .ok after) : Identifiers after.names := by
  unfold addConstant at added
  split at added
  · cases added
    simp only [names, identifiers_append, List.map_append, List.map_cons, List.map_nil] at h ⊢
    exact ⟨h.1, h.2, identifiers_cons.mpr ⟨own, identifiers_nil⟩⟩
  · split at added <;> cases added
    exact h

end CodeUnit

/-! ### Emissions

An emission gives names in three ways: it adds a constant, takes the owner name of a shape, or requests
a routine. Each of them leaves nothing but identifiers if there was nothing else before, however it
ends, and so do emissions in a row as long as each needs those names only that the earlier ones have
answered with. -/

open Yul (Expr Routine)

/-- Whether all names of a workspace are identifiers: those in its code, those of shapes and those of requests. -/
structure Workspace.Spelled (workspace : Workspace) : Prop where
  /-- Names in the code. -/
  unit : Identifiers workspace.unit.names
  /-- Names of shapes. -/
  owners : Identifiers workspace.owners.taken
  /-- Names that requests were answered with. -/
  issued : Identifiers workspace.issued

/-- A workspace that starts with a unit has no other names. -/
theorem Workspace.spelled_start {unit : CodeUnit} (h : Identifiers unit.names) : (Workspace.start unit).Spelled :=
  ⟨h, identifiers_nil, identifiers_nil⟩

namespace Emission

variable {α β : Type}

/-- Whether an emission leaves identifiers only, however it ends, and all names in its answer are identifiers. -/
def Spells (emission : Emission α) (names : α → List String) : Prop :=
  ∀ before, before.Spelled → (emission.runOn before).2.Spelled ∧
    ∀ value, (emission.runOn before).1 = .ok value → Identifiers (names value)

/-- An answer leaves everything as it is. -/
theorem Spells.pure {names : α → List String} {value : α} (h : Identifiers (names value)) :
    (pure value : Emission α).Spells names := by
  intro before spelled
  refine ⟨spelled, fun answer same => ?_⟩
  cases same
  exact h

/-- A failure leaves everything as it is. -/
theorem Spells.throw {names : α → List String} (cause : GenerationError) : (throw cause : Emission α).Spells names :=
  fun _ spelled => ⟨spelled, fun _ same => nomatch same⟩

/-- A size or offset has no names. -/
theorem Spells.lift (answer : Generated α) : (liftM answer : Emission α).Spells fun _ => [] := by
  cases answer with
  | error cause => exact .throw cause
  | ok value => exact .pure identifiers_nil

/-- Emissions in a row; the later one may use the names that the earlier one has answered with. -/
theorem Spells.bind {first : Emission α} {next : α → Emission β} {names : α → List String} {names' : β → List String}
    (h : first.Spells names) (h' : ∀ value, Identifiers (names value) → (next value).Spells names') :
    (first >>= next).Spells names' := by
  intro before spelled
  obtain ⟨kept, answered⟩ := h before spelled
  rw [runOn_bind]
  rcases ran : first.runOn before with ⟨result, reached⟩
  rw [ran] at kept answered
  cases result with
  | error cause => exact ⟨kept, fun _ same => nomatch same⟩
  | ok value => exact h' value (answered value rfl) reached kept

/-- A routine whose names are identifiers. -/
theorem Spells.addRoutine {routine : Routine} (h : Identifiers routine.names) :
    (addRoutine routine).Spells fun name => [name] := by
  intro before spelled
  rw [runOn_addRoutine]
  cases added : before.unit.addRoutine routine with
  | error cause => exact ⟨spelled, fun _ same => nomatch same⟩
  | ok unit =>
    refine ⟨⟨CodeUnit.identifiers_addRoutine spelled.unit h added, spelled.owners, spelled.issued⟩, ?_⟩
    intro name same
    cases same
    exact identifiers_cons.mpr ⟨(identifiers_cons.mp h).1, identifiers_nil⟩

/-- A constant whose name is an identifier. -/
theorem Spells.addConstant {name : String} (h : isIdentifier name = true) (value : Word) :
    (addConstant name value).Spells Expr.names := by
  intro before spelled
  rw [runOn_addConstant]
  cases added : before.unit.addConstant name value with
  | error cause => exact ⟨spelled, fun _ same => nomatch same⟩
  | ok unit =>
    refine ⟨⟨CodeUnit.identifiers_addConstant spelled.unit h added, spelled.owners, spelled.issued⟩, ?_⟩
    intro reference same
    cases same
    exact identifiers_cons.mpr ⟨h, identifiers_nil⟩

/-- The owner name of a shape. -/
theorem Spells.owner (shape : Shape) : (owner shape).Spells fun name => [name] := by
  intro before spelled
  obtain ⟨own, taken⟩ := OwnerNames.identifiers_owner spelled.owners shape
  refine ⟨⟨spelled.unit, taken, spelled.issued⟩, fun name same => ?_⟩
  cases same
  exact identifiers_cons.mpr ⟨own, identifiers_nil⟩

/-- What the names of routines for an operation start with is an identifier. -/
theorem isIdentifier_stem (operation : Operation) : isIdentifier operation.stem = true := by
  cases operation <;> decide

/-- A request for a routine whose names are identifiers if its own one is. -/
theorem Spells.routineFor {operation : Operation} {shape : Shape} {generate : String → Emission Routine}
    (h : ∀ name, isIdentifier name = true → (generate name).Spells Routine.names) :
    (routineFor operation shape generate).Spells fun name => [name] := by
  intro before spelled
  rw [runOn_routineFor]
  cases remembered : before.requests.find? fun entry => entry.1 == (operation, shape) with
  | some entry =>
    refine ⟨spelled, fun name same => ?_⟩
    cases same
    have listed : entry.2 ∈ before.issued := List.mem_map_of_mem (List.mem_of_find?_eq_some remembered)
    exact identifiers_cons.mpr ⟨spelled.issued _ listed, identifiers_nil⟩
  | none =>
    obtain ⟨own, taken⟩ := OwnerNames.identifiers_owner spelled.owners shape
    have named := isIdentifier_append (isIdentifier_stem operation) (isTail_of_isIdentifier own)
    have fresh := isIdentifier_choose before.issued named
    -- the name is among those that were given while its routine is generated, so the workspace stays as required
    have generates := (h _ fresh).bind fun routine plain => .addRoutine plain
    exact generates _ ⟨spelled.unit, taken, identifiers_cons.mpr ⟨fresh, spelled.issued⟩⟩

end Emission

/-! ### Offsets and sizes -/

namespace Offsets

/-- A word under an identifier, or the word itself. -/
theorem named_spells (useNames : Bool) {name : String} (h : isIdentifier name = true) (value : Word) :
    (named useNames name value).Spells Expr.names := by
  unfold named
  split
  · exact .addConstant h value
  · exact .pure identifiers_nil

/-- A fixed constant. -/
theorem fixed_spells (useNames : Bool) (constant : FixedConstant) : (fixed useNames constant).Spells Expr.names :=
  named_spells useNames (by cases constant <;> decide) _

/-- A number of bytes. -/
theorem words_spells (useNames : Bool) (bytes : Nat) : (words useNames bytes).Spells Expr.names := by
  unfold words
  split
  · exact named_spells useNames (by decide) _
  · exact named_spells useNames (by decide) _
  · exact named_spells useNames (by decide) _
  · exact named_spells useNames (by decide) _
  · exact .pure identifiers_nil

/-- The name of a part is an identifier, whatever its label is. -/
theorem isIdentifier_memberName (type : SolType) (index : Nat) : isIdentifier (memberName type index) = true := by
  unfold memberName
  split
  · exact isIdentifier_sanitize _
  · exact isIdentifier_append (by decide) (isTail_repr index)

/-- The offset of a part. -/
theorem member_spells (useNames : Bool) (type : SolType) (index : Nat) (regime : Regime) :
    (member useNames type index regime).Spells Expr.names := by
  unfold member
  refine (Emission.Spells.lift _).bind fun offset _ => ?_
  split
  · exact .pure identifiers_nil
  · have label := isTail_of_isIdentifier (isIdentifier_memberName type index)
    have suffix : isTail regime.suffix = true := by cases regime <;> decide
    refine (Emission.Spells.owner _).bind fun owner plain => named_spells useNames ?_ _
    exact isIdentifier_joined (isIdentifier_joined (identifiers_cons.mp plain).1 label) suffix

/-- A size that belongs to a type. -/
theorem ownedSize_spells (useNames : Bool) (shape : Shape) {suffix : String} (h : isTail suffix = true) (size : Nat) :
    (ownedSize useNames shape suffix size).Spells Expr.names := by
  unfold ownedSize
  split
  · exact words_spells useNames size
  · refine (Emission.Spells.owner _).bind fun owner plain => named_spells useNames ?_ _
    exact isIdentifier_joined (identifiers_cons.mp plain).1 h

/-- The size of the memory that a composite owns. -/
theorem memoryHead_spells (useNames : Bool) (shape : Shape) : (memoryHead useNames shape).Spells Expr.names :=
  (Emission.Spells.lift _).bind fun size _ => ownedSize_spells useNames shape (by decide) size

/-- The size of the region of encoded heads. -/
theorem callHead_spells (useNames : Bool) (shape : Shape) : (callHead useNames shape).Spells Expr.names :=
  (Emission.Spells.lift _).bind fun size _ => ownedSize_spells useNames shape (by decide) size

end Offsets

/-! ### Requests -/

/-- The name of the routine that values are decoded or encoded by, if there is one. -/
@[simp]
def Handling.names : Handling → List String
  | .inline => []
  | .routine name => [name]

namespace Codec

variable {settings : Settings}

/-- A task that does not apply is never answered. -/
theorem unsupported_spells {α : Type} (shape : Shape) (task : Task) (names : α → List String) :
    (unsupported shape task : Emission α).Spells names :=
  .throw _

/-- The routine for values of a shape. -/
theorem handlingOf_spells (operation : Operation) (task : Task) (shape : Shape) {generate : String → Emission Routine}
    (h : ∀ name, isIdentifier name = true → (generate name).Spells Routine.names) :
    (handlingOf operation task shape generate).Spells Handling.names := by
  unfold handlingOf
  split
  · exact .pure identifiers_nil
  · split
    · exact (Emission.Spells.routineFor h).bind fun name plain => .pure plain
    · exact unsupported_spells shape task _

/-- The length of bytes rounded up. -/
theorem paddedBytesSize_spells {length : Expr} (h : Identifiers length.names) :
    (paddedBytesSize settings length).Spells Expr.names := by
  refine (Offsets.fixed_spells _ _).bind fun almostTwo added => ?_
  refine (Offsets.fixed_spells _ _).bind fun mask masked => .pure ?_
  simp [Expr.and, h, added, masked]

/-- The full size of the tail of an element. -/
theorem elementTailSize_spells (element : Shape) {length : Expr} (h : Identifiers length.names) :
    (elementTailSize settings element length).Spells Expr.names := by
  unfold elementTailSize
  split
  · exact paddedBytesSize_spells h
  · exact paddedBytesSize_spells h
  · split
    · exact .pure (by simp [h])
    · exact unsupported_spells _ _ _
  · exact unsupported_spells _ _ _

/-- The address of a head word. -/
@[simp]
theorem names_headSlot (head : Expr) : (headSlot head).names = head.names ++ ["i"] := by simp [headSlot]

end Codec

end YulAbi
