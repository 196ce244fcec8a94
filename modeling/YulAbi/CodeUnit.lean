import YulAbi.Yul.Routine

/-!
# Code units

A unit collects routines and named constants in the order in which they are added.
It is written once: adding what is already there changes nothing, and adding
something else under a name in use is refused.
-/

namespace YulAbi

open Yul (Routine)

/-- Routines and constants in the order in which they were added. -/
structure CodeUnit where
  /-- Routines. -/
  routines : List Routine
  /-- Names and values of constants. -/
  constants : List (String × Word)

namespace CodeUnit

/-- A unit without content. -/
def empty : CodeUnit := ⟨[], []⟩

/-- The routine of a name. -/
def routine? (unit : CodeUnit) (name : String) : Option Routine :=
  unit.routines.find? fun routine => routine.name == name

/-- The value of a constant. -/
def constant? (unit : CodeUnit) (name : String) : Option Word :=
  (unit.constants.find? fun entry => entry.1 == name).map Prod.snd

/-- Adds a routine; an equal one of that name is kept and another one is a conflict. -/
def addRoutine (unit : CodeUnit) (routine : Routine) : Generated CodeUnit :=
  match unit.routine? routine.name with
  | none => .ok ⟨unit.routines ++ [routine], unit.constants⟩
  | some existing => if existing = routine then .ok unit else .error (.routineConflict routine.name)

/-- Adds a constant; the same value under that name is kept and another one is a conflict. -/
def addConstant (unit : CodeUnit) (name : String) (value : Word) : Generated CodeUnit :=
  match unit.constant? name with
  | none => .ok ⟨unit.routines, unit.constants ++ [(name, value)]⟩
  | some existing =>
    if existing = value then .ok unit else .error (.constantConflict name existing value)

/-- A routine that has been added is found under its name. -/
theorem routine?_addRoutine {unit after : CodeUnit} {routine : Routine}
    (h : unit.addRoutine routine = .ok after) : after.routine? routine.name = some routine := by
  unfold addRoutine at h
  split at h
  case h_1 absent =>
    cases h
    simp only [routine?, List.find?_append] at absent ⊢
    simp [absent]
  case h_2 existing found =>
    split at h <;> cases h
    simp_all

/-- A routine keeps its name when another one is added. -/
theorem routine?_addRoutine_of_some {unit after : CodeUnit} {routine existing : Routine} {name : String}
    (h : unit.addRoutine routine = .ok after) (found : unit.routine? name = some existing) :
    after.routine? name = some existing := by
  unfold addRoutine at h
  split at h
  · cases h
    simp only [routine?, List.find?_append] at found ⊢
    simp [found]
  · split at h <;> cases h
    exact found

/-- A routine that is there already may be added again without effect. -/
theorem addRoutine_of_some {unit : CodeUnit} {routine : Routine}
    (found : unit.routine? routine.name = some routine) : unit.addRoutine routine = .ok unit := by
  simp [addRoutine, found]

/-- A constant that has been added has its value. -/
theorem constant?_addConstant {unit after : CodeUnit} {name : String} {value : Word}
    (h : unit.addConstant name value = .ok after) : after.constant? name = some value := by
  unfold addConstant at h
  split at h
  case h_1 absent =>
    cases h
    simp only [constant?, Option.map_eq_none_iff, List.find?_append] at absent ⊢
    simp [absent]
  case h_2 existing found =>
    split at h <;> cases h
    simp_all

/-- A constant keeps its value when another one is added. -/
theorem constant?_addConstant_of_some {unit after : CodeUnit} {name other : String} {value existing : Word}
    (h : unit.addConstant name value = .ok after) (found : unit.constant? other = some existing) :
    after.constant? other = some existing := by
  unfold addConstant at h
  split at h
  · cases h
    simp only [constant?, Option.map_eq_some_iff, List.find?_append] at found ⊢
    obtain ⟨entry, isFound, rfl⟩ := found
    exact ⟨entry, by simp [isFound], rfl⟩
  · split at h <;> cases h
    exact found

/-- A constant that is there already may be added again without effect. -/
theorem addConstant_of_some {unit : CodeUnit} {name : String} {value : Word}
    (found : unit.constant? name = some value) : unit.addConstant name value = .ok unit := by
  simp [addConstant, found]

/-- The line that defines a constant. -/
def constantLine (entry : String × Word) : Line :=
  .text ("uint256 constant " ++ entry.1 ++ " = " ++ literalText entry.2 ++ ";")

/-- The lines of several routines, an empty line between any two. -/
def routineLines (memorySafe : Bool) (routines : List Routine) : Lines :=
  routines.foldl (fun lines routine => Lines.appendApart lines (routine.toLines memorySafe)) []

/-- The function that holds the Yul routines in one assembly block. -/
def containerLines (container : String) (memorySafe : Bool) (routines : List Routine) : Lines :=
  [.text ("function " ++ container ++ "() pure \x7b"),
    .nested [.text (Routine.assemblyHead memorySafe), .nested (routineLines memorySafe routines),
      .text "\x7d"],
    .text "\x7d"]

/-- All lines: constants, then Solidity functions, then the Yul routines inside a function. -/
def toLines (unit : CodeUnit) (container : String) (memorySafe : Bool) : Lines :=
  let constants := unit.constants.map constantLine
  let functions := unit.routines.filter fun routine => routine.kind == .solidity
  let opening := functions.foldl
    (fun lines routine => Lines.appendApart lines (routine.toLines memorySafe)) constants
  let routines := unit.routines.filter fun routine => routine.kind == .yul
  if routines.isEmpty then opening
  else Lines.appendApart opening (containerLines container memorySafe routines)

/-- The text of the unit, indented by four spaces. -/
def render (unit : CodeUnit) (container : String) (memorySafe : Bool) : String :=
  (unit.toLines container memorySafe).render "    "

end CodeUnit

end YulAbi
