import YulAbi.Packing.Accessors
import YulAbi.Proofs.Codec.Session
import YulAbi.Proofs.Naming.Codec

/-!
# Every emitted name is an identifier

A unit is filled step by step: a generator serves requests, with success or without, it gives
way to another one that begins anew, and accessors of layouts are added. The names of types,
members, errors and events may be any texts, and so may the labels of fields and the names of
functions that are cast. Every step leaves identifiers only, and so does every sequence of them.
-/

namespace YulAbi

open Identifier
open Yul (Expr Stmt Routine)

/-! ### Accessors -/

/-- The address a number of bytes behind a pointer has the names of the pointer. -/
theorem names_displaced (pointer : Expr) (offset : Int) : (displaced pointer offset).names = pointer.names := by
  unfold displaced
  split <;> simp

section

variable {word pointer value : Expr} (located : Identifiers pointer.names) (valued : Identifiers value.names)

include located valued

/-- Code that reads a field or builds its word has the names that it is given. -/
theorem AccessExpr.identifiers_toYul (held : Identifiers word.names) (expr : AccessExpr) :
    Identifiers (expr.toYul word pointer value).names := by
  induction expr with
  | word => exact held
  | value => exact valued
  | load offset => simpa [toYul, Expr.mload, names_displaced] using located
  | literal => exact identifiers_nil
  | shl _ _ ih | shr _ _ ih => simpa [toYul] using ih
  | not _ ih => simpa [toYul, Expr.not] using ih
  | byte _ _ ih => simpa [toYul] using ih
  | and _ _ ih ih' => simpa [toYul, Expr.and] using And.intro ih ih'
  | or _ _ ih ih' => simpa [toYul, Expr.or] using And.intro ih ih'

/-- Code that writes a field has the names that it is given. -/
theorem WriteForm.identifiers_toYul (held : Identifiers word.names) (source : WordSource) (form : WriteForm) :
    Identifiers (form.toYul source word pointer value).names := by
  cases form with
  | word expr =>
    have made := AccessExpr.identifiers_toYul located valued held expr
    simp only [toYul]
    split
    · simpa [Stmt.mstore] using And.intro located made
    · simpa [Stmt.sstore] using And.intro located made
    · simpa [Stmt.assignTo] using And.intro (identifiers_cons.mp held).1 made
    · simpa using made
  | store8 offset expr =>
    have made := AccessExpr.identifiers_toYul located valued held expr
    simpa [toYul, Stmt.mstore8, names_displaced] using And.intro located made
  | window offset expr =>
    have made := AccessExpr.identifiers_toYul located valued held expr
    simpa [toYul, Stmt.mstore, names_displaced] using And.intro located made

end

namespace Packing

/-- The name of the first parameter of accessors is an identifier. -/
theorem isIdentifier_baseName (source : WordSource) : isIdentifier (baseName source) = true := by
  cases source <;> decide

/-- The place of a word has the name of the first parameter only. -/
theorem identifiers_wordLocation (source : WordSource) (slot : Nat) :
    Identifiers (wordLocation source slot).names := by
  cases source <;> simp +decide [wordLocation, slotLocation, baseName]

/-- A word has the names of its place. -/
theorem identifiers_wordAt (source : WordSource) {location : Expr} (located : Identifiers location.names) :
    Identifiers (wordAt source location).names := by
  cases source <;> simp +decide [wordAt, Expr.mload, Expr.sload, located]

section

variable {name : String} (plain : isIdentifier name = true) (source : WordSource) (placement : Placement)

include plain

/-- The names of and in a getter. -/
theorem identifiers_getter (read : AccessExpr) : Identifiers (getter source placement read name).names := by
  have located := identifiers_wordLocation source placement.slot
  have valued : Identifiers (Expr.ident "value").names := by simp +decide
  have made := AccessExpr.identifiers_toYul located valued (identifiers_wordAt source located) read
  unfold getter
  dsimp only
  split <;> simp +decide [Stmt.assignTo, Expr.signextend, plain, isIdentifier_baseName, made]

/-- The names of and in a setter. -/
theorem identifiers_setter (write : WriteForm) : Identifiers (setter source placement write name).names := by
  have located := identifiers_wordLocation source placement.slot
  have valued : Identifiers (Expr.ident "value").names := by simp +decide
  have held := identifiers_wordAt source located
  unfold setter
  split
  · rename_i expr
    have made := AccessExpr.identifiers_toYul located valued held expr
    simp +decide [Stmt.assignTo, plain, made]
  · have made := WriteForm.identifiers_toYul located valued held source write
    simp +decide [plain, isIdentifier_baseName, made]

end

/-- The accessors of one field. -/
theorem emitFieldAccessors_spells {owner : String} (plain : isIdentifier owner = true) (source : WordSource)
    (model : CostModel) (placement : Placement) :
    (emitFieldAccessors owner source model placement).Spells id := by
  have label := isTail_of_isIdentifier (isIdentifier_sanitize placement.label)
  have suffix := isTail_of_isIdentifier (isIdentifier_joined plain label)
  refine (Emission.Spells.lift _).bind fun field _ => ?_
  refine (Emission.Spells.lift _).bind fun read _ => ?_
  refine (Emission.Spells.addRoutine (identifiers_getter ?_ _ _ _)).bind fun getterName got => ?_
  · exact isIdentifier_append (by decide) suffix
  refine (Emission.Spells.lift _).bind fun write _ => ?_
  refine (Emission.Spells.addRoutine (identifiers_setter ?_ _ _ _)).bind fun setterName set => .pure ?_
  · exact isIdentifier_append (by decide) suffix
  exact identifiers_append.mpr ⟨got, set⟩

/-- The accessors of several fields. -/
theorem emitEach_spells {owner : String} (plain : isIdentifier owner = true) (source : WordSource) (model : CostModel)
    (placements : List Placement) : (emitEach owner source model placements).Spells id := by
  induction placements with
  | nil => exact .pure identifiers_nil
  | cons placement rest ih =>
    refine (emitFieldAccessors_spells plain source model placement).bind fun names own => ?_
    exact ih.bind fun others later => .pure (identifiers_append.mpr ⟨own, later⟩)

/-- The accessors of a layout. -/
theorem emitAccessors_spells (layout : PackedLayout) (source : WordSource) (model : CostModel) :
    (emitAccessors layout source model).Spells id :=
  (Emission.Spells.owner layout.root).bind fun _ owner =>
    emitEach_spells (identifiers_cons.mp owner).1 source model layout.placements

end Packing

/-! ### Steps -/

/-- Every request. -/
theorem Codec.Request.serve_spells (settings : Settings) (request : Codec.Request) :
    (request.serve settings).Spells fun _ => [] := by
  cases request with
  | decode type => exact (decode_spells type).bind fun _ _ => .pure identifiers_nil
  | encode type => exact (encode_spells type).bind fun _ _ => .pure identifiers_nil
  | decodeParameters type => exact (decodeParameterList_spells type).bind fun _ _ => .pure identifiers_nil
  | encodeParameters type => exact (encodeParameterList_spells type).bind fun _ _ => .pure identifiers_nil
  | encodeError type => exact (encodeError_spells type).bind fun _ _ => .pure identifiers_nil
  | encodeEvent type => exact (encodeEvent_spells type).bind fun _ _ => .pure identifiers_nil
  | decoderSignature type =>
    have signature : (Codec.decoderSignature settings type).Spells fun _ => [] := by
      refine (decode_spells type).bind fun handling _ => ?_
      cases handling with
      | inline => exact unsupported_spells _ _ _
      | routine name => exact (Emission.Spells.lift _).bind fun _ _ => .pure identifiers_nil
    exact signature.bind fun _ _ => .pure identifiers_nil
  | parameterDecoderSignature type =>
    have signature : (Codec.parameterDecoderSignature settings type).Spells fun _ => [] := by
      refine (decodeParameterList_spells type).bind fun name _ => ?_
      refine (decodedParameters_spells type).bind fun members _ => ?_
      exact (Emission.Spells.lift _).bind fun _ _ => .pure identifiers_nil
    exact signature.bind fun _ _ => .pure identifiers_nil
  | cast source target => exact (cast_spells source target).bind fun _ _ => .pure identifiers_nil

/-- What is done with a unit. -/
inductive GeneratorStep where
  /-- The generator at work serves a request. -/
  | request (settings : Settings) (request : Codec.Request)
  /-- Another generator takes over, which has given no names yet. -/
  | restart
  /-- The accessors of a layout are added, behind those of other shapes that have been given names before. -/
  | accessors (named : List Shape) (layout : PackedLayout) (source : WordSource) (model : CostModel)

namespace GeneratorStep

/-- The names of shapes that are given names one after the other. -/
def ownersOf (shapes : List Shape) : OwnerNames :=
  shapes.foldl (fun names shape => (names.owner shape).2) .empty

/-- What a step leaves, whether it fails or not. -/
def perform (workspace : Workspace) : GeneratorStep → Workspace
  | .request settings asked => ((asked.serve settings).runOn workspace).2
  | .restart => .start workspace.unit
  | .accessors named layout source model =>
    let emitted := (Packing.emitAccessors layout source model).runOn ⟨workspace.unit, ownersOf named, []⟩
    ⟨emitted.2.unit, workspace.owners, workspace.requests⟩

/-- What several steps leave that begin with an empty unit. -/
def performAll (steps : List GeneratorStep) : Workspace := steps.foldl perform (.start .empty)

/-- Names that are given to any shapes are identifiers. -/
theorem identifiers_ownersOf (shapes : List Shape) : Identifiers (ownersOf shapes).taken := by
  have given : ∀ names : OwnerNames, Identifiers names.taken →
      Identifiers (shapes.foldl (fun names shape => (names.owner shape).2) names).taken := by
    induction shapes with
    | nil => exact fun _ taken => taken
    | cons shape rest ih => exact fun names taken => ih _ (OwnerNames.identifiers_owner taken shape).2
  exact given .empty identifiers_nil

/-- A step leaves identifiers only. -/
theorem spelled_perform {workspace : Workspace} (h : workspace.Spelled) (step : GeneratorStep) :
    (perform workspace step).Spelled := by
  cases step with
  | request settings asked => exact (asked.serve_spells settings workspace h).1
  | restart => exact Workspace.spelled_start h.unit
  | accessors named layout source model =>
    have start : Workspace.Spelled ⟨workspace.unit, ownersOf named, []⟩ :=
      ⟨h.unit, identifiers_ownersOf named, identifiers_nil⟩
    exact ⟨(Packing.emitAccessors_spells layout source model _ start).1.unit, h.owners, h.issued⟩

/-- Steps leave identifiers only. -/
theorem spelled_performAll (steps : List GeneratorStep) : (performAll steps).Spelled := by
  have kept : ∀ workspace : Workspace, workspace.Spelled → (steps.foldl perform workspace).Spelled := by
    induction steps with
    | nil => exact fun _ spelled => spelled
    | cons step rest ih => exact fun workspace spelled => ih _ (spelled_perform spelled step)
  exact kept _ (Workspace.spelled_start identifiers_nil)

/-- Whatever texts types, members, errors, events and labels are named by, and whatever is requested and added in
which order and fails or not: all names in a unit that was empty at first are identifiers, those of routines,
constants, parameters, return values and variables, and those by which routines and constants are referred to. -/
theorem emitted_names_are_identifiers (steps : List GeneratorStep) :
    ∀ name ∈ (performAll steps).unit.names, isIdentifier name = true :=
  (spelled_performAll steps).unit

/-- Requests for types, parts, an error and functions whose names are no identifiers. -/
def unnamable : List GeneratorStep :=
  [.request .standard (.decode (.struct "a b" [⟨some "1", .bytes⟩, ⟨some "x;", .bytes⟩])), .restart,
   .request .standard (.encodeError (.error "\n" [⟨none, .integer false 256⟩])),
   .request .standard (.cast ⟨"f(", [], [], .pure⟩ ⟨"", [], [], .pure⟩)]

/-- The names that these requests lead to are identifiers, for example that of the offset of a part. -/
theorem unnamable_names :
    (performAll unnamable).unit.routines.map Routine.name =
      ["abi_decode_bytes", "abi_decode_a_b", "abi_encode_params_tuple_uint256", "abi_encode_error__", "cast_f__to__"] ∧
    "a_b_x__cd_offset" ∈ (performAll unnamable).unit.names ∧ isIdentifier "a_b_x__cd_offset" = true :=
  ⟨by decide +kernel, by decide +kernel, emitted_names_are_identifiers unnamable _ (by decide +kernel)⟩

end GeneratorStep

end YulAbi
