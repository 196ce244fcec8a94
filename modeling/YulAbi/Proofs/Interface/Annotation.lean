import YulAbi.Interface.TypeString
import YulAbi.Proofs.Arena.Described
import YulAbi.Proofs.Arena.Geometry

/-!
# Source types of parameters

An annotation with the source type turns tuples into structs and elementary types into enumerations or user-defined
types, at any depth, and has no influence on what is accepted. The canonical type string stays the same as long as
enumerations stand for integers of 8 bits only. This is not checked: an enumeration may stand for any elementary type,
and its type string is `uint8` all the same.
-/

namespace YulAbi

namespace Interface

mutual
/-- A parameter without annotations, down to its innermost components. -/
def Parameter.bare : Parameter → Parameter
  | .mk name type components _ indexed => .mk name type (bareAll components) none indexed
/-- Parameters without annotations. -/
def bareAll : List Parameter → List Parameter
  | [] => []
  | parameter :: rest => parameter.bare :: bareAll rest
end

mutual
/-- Whether a description is another one up to what annotations change, where something holds of all that enumerations
stand for. -/
inductive Annotates (replaceable : Description → Prop) : Description → Description → Prop where
  /-- Nothing is changed. -/
  | kept (description : Description) : Annotates replaceable description description
  /-- An enumeration of unknown members. -/
  | enumeration {description : Description} (name : String) (stands : replaceable description) :
    Annotates replaceable description (.enumeration name [])
  /-- A user-defined type around what was there. -/
  | userDefined (description : Description) (name : String) :
    Annotates replaceable description (.userDefined name description)
  /-- Elements of an array are changed. -/
  | array {plain full : Description} (length : Option Nat) (elements : Annotates replaceable plain full) :
    Annotates replaceable (.array plain length) (.array full length)
  /-- Members of a tuple are changed. -/
  | tuple {plain full : List (Member Description)} (members : AnnotatesAll replaceable plain full) :
    Annotates replaceable (.tuple plain) (.tuple full)
  /-- A tuple becomes a struct. -/
  | struct {plain full : List (Member Description)} (name : String) (members : AnnotatesAll replaceable plain full) :
    Annotates replaceable (.tuple plain) (.struct name full)
/-- Whether members are other ones up to what annotations change. -/
inductive AnnotatesAll (replaceable : Description → Prop) :
    List (Member Description) → List (Member Description) → Prop where
  /-- There are none. -/
  | nil : AnnotatesAll replaceable [] []
  /-- Names stay, and every type may be changed. -/
  | cons {plain full : Description} {rest others : List (Member Description)} (name : String)
    (type : Annotates replaceable plain full) (more : AnnotatesAll replaceable rest others) :
    AnnotatesAll replaceable (⟨name, plain⟩ :: rest) (⟨name, full⟩ :: others)
end

/-- Whether two attempts are refused for the same reason, or succeed with related results. -/
def Agree {α β : Type} (related : α → β → Prop) : Except TypeStringError α → Except TypeStringError β → Prop
  | .ok result, .ok other => related result other
  | .error cause, .error cause' => cause = cause'
  | _, _ => False

section

variable {α β γ δ : Type} {related : α → β → Prop} {related' : γ → δ → Prop}
  {attempt : Except TypeStringError α} {attempt' : Except TypeStringError β}

/-- Attempts that agree may be continued alike. -/
theorem Agree.bind {next : α → Except TypeStringError γ} {next' : β → Except TypeStringError δ}
    (h : Agree related attempt attempt') (continued : ∀ result other, related result other →
      Agree related' (next result) (next' other)) : Agree related' (attempt >>= next) (attempt' >>= next') := by
  cases attempt <;> cases attempt' <;> simp only [Agree] at h
  · exact h
  · exact continued _ _ h

/-- Results of attempts that agree may be changed alike. -/
theorem Agree.map {change : α → γ} {change' : β → δ} (h : Agree related attempt attempt')
    (changed : ∀ result other, related result other → related' (change result) (change' other)) :
    Agree related' (attempt.map change) (attempt'.map change') := by
  cases attempt <;> cases attempt' <;> simp only [Agree] at h
  · exact h
  · exact changed _ _ h

/-- The results of one attempt may be changed to related ones. -/
theorem Agree.of_map {change : α → γ} {change' : α → δ}
    (changed : ∀ result, related' (change result) (change' result)) :
    Agree related' (attempt.map change) (attempt.map change') := by
  cases attempt
  · exact rfl
  · exact changed _

end

/-- What an annotation makes of an elementary type. -/
theorem annotate_annotates (description : Description) (name : String) (internalType : Option String) :
    Annotates (·.isElementary = true) description (annotate description name internalType) := by
  cases internalType with
  | none => exact .kept description
  | some internal =>
    rw [annotate]
    split
    · exact .kept description
    · rename_i changes
      have elementary : description.isElementary = true := by
        simpa using (not_or.mp changes).2
      split
      · exact .enumeration _ elementary
      · split
        · exact .kept description
        · split
          · exact .kept description
          · exact .userDefined description _

/-- What an annotation makes of a tuple. -/
theorem ofComponents_annotates {plain full : List (Member Description)} {replaceable : Description → Prop}
    (members : AnnotatesAll replaceable plain full) (internalType : Option String) :
    Annotates replaceable (ofComponents plain none) (ofComponents full internalType) := by
  have bare : ofComponents plain none = .tuple plain := rfl
  rw [bare, ofComponents]
  split
  · exact .struct _ members
  · exact .tuple members

/-- A type string is read alike with and without annotations. The induction is on the number of suffixes that may be
peeled off, which annotations have as well. -/
theorem parseWithin_agree {fuel : Nat} {chars : List Char} {hasComponents : Bool}
    {plain full : Except TypeStringError (List (Member Description))} {internalType : Option String}
    (members : Agree (AnnotatesAll (·.isElementary = true)) plain full) :
    Agree (Annotates (·.isElementary = true)) (parseWithin fuel chars hasComponents plain none)
      (parseWithin fuel chars hasComponents full internalType) := by
  induction fuel generalizing chars internalType with
  | zero => exact rfl
  | succ fuel ih =>
    simp only [parseWithin]
    split
    · split
      · exact rfl
      · split
        · exact rfl
        · exact ih.bind fun _ _ elements => .array _ elements
    · split
      · exact annotate_annotates _ _ internalType
      · split
        · split
          · exact members.map fun _ _ known => ofComponents_annotates known internalType
          · exact rfl
        · exact .of_map fun _ => annotate_annotates _ _ internalType

/-- Whether there are components does not depend on annotations. -/
theorem isEmpty_bareAll (components : List Parameter) : (bareAll components).isEmpty = components.isEmpty := by
  cases components <;> rfl

mutual
/-- A parameter is described alike with and without annotations. -/
theorem Parameter.describe_agree : ∀ parameter : Parameter,
    Agree (Annotates (·.isElementary = true)) parameter.bare.describe parameter.describe
  | .mk name type components internalType indexed => by
    rw [Parameter.bare, Parameter.describe, Parameter.describe, isEmpty_bareAll]
    exact parseWithin_agree (describeMembers_agree components)
/-- Members are described alike with and without annotations. -/
theorem describeMembers_agree : ∀ parameters : List Parameter,
    Agree (AnnotatesAll (·.isElementary = true)) (describeMembers (bareAll parameters)) (describeMembers parameters)
  | [] => .nil
  | .mk name type components internalType indexed :: rest => by
    rw [bareAll, describeMembers, describeMembers]
    exact (Parameter.describe_agree _).bind fun _ _ own =>
      (describeMembers_agree rest).bind fun _ _ others => .cons name own others
end

mutual
/-- The canonical type string does not depend on annotations where enumerations stand for integers of 8 bits. -/
theorem Annotates.abiType : ∀ {plain full : Description}, Annotates (· = .uint 8) plain full →
    full.shape.abiType = plain.shape.abiType
  | _, _, .kept _ => rfl
  | _, _, .enumeration _ stands => by rw [stands]; rfl
  | _, _, .userDefined _ _ => rfl
  | _, _, .array length elements => congrArg (· ++ Shape.arraySuffix length) elements.abiType
  | _, _, .tuple members => congrArg (fun types => "(" ++ ",".intercalate types ++ ")") members.abiTypes
  | _, _, .struct _ members => congrArg (fun types => "(" ++ ",".intercalate types ++ ")") members.abiTypes
/-- The canonical type strings of members do not depend on annotations either. -/
theorem AnnotatesAll.abiTypes : ∀ {plain full : List (Member Description)}, AnnotatesAll (· = .uint 8) plain full →
    Shape.abiTypes (Description.memberShapes full) = Shape.abiTypes (Description.memberShapes plain)
  | _, _, .nil => rfl
  | _, _, .cons _ type more => congrArg₂ List.cons type.abiType more.abiTypes
end

/-- A type string is accepted whatever the annotations are, and what they change are tuples and elementary types. -/
theorem parseTypeString_agree (type : String) (components : List Parameter) (internalType : Option String) :
    Agree (Annotates (·.isElementary = true)) (parseTypeString type (bareAll components) none)
      (parseTypeString type components internalType) := by
  have agree := Parameter.describe_agree (.mk "" type components internalType false)
  rwa [Parameter.bare] at agree

/-- An enumeration may stand for an integer of any width. -/
example : parseTypeString "uint256" [] (some "enum E") = .ok (.enumeration "E" []) := rfl

/-- What is built with annotations has the canonical type string of what is built without them if enumerations stand for
integers of 8 bits. -/
theorem abiType_of_annotates {plain full : Description} (annotated : Annotates (· = .uint 8) plain full)
    {arena arena' later later' : Arena} {root root' : NodeId} (made : arena.Made) (made' : arena'.Made)
    (run : (Construction.build plain).runOn arena = (.ok root, later))
    (run' : (Construction.build full).runOn arena' = (.ok root', later')) :
    later'.abiType root' = later.abiType root := by
  have raised := (Construction.build_ends plain made.sound).of_ok run
  have raised' := (Construction.build_ends full made'.sound).of_ok run'
  rw [raised.sound.abiType_eq raised.presents.has.1, raised'.sound.abiType_eq raised'.presents.has.1,
    raised.presents.has.2, raised'.presents.has.2, annotated.abiType]

end Interface

end YulAbi
