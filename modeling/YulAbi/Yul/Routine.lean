import YulAbi.Description
import YulAbi.Yul.Text

/-!
# Routines

A routine has parameters, return values and a body of Yul code. It is written as a
Yul function, or as a Solidity function whose body is one assembly block; types and
mutability show in the latter only, but two routines are equal only if they agree
in all of it.
-/

namespace YulAbi.Yul

/-- How a routine is written. -/
inductive RoutineKind where
  /-- A Yul function, to stand inside an assembly block. -/
  | yul
  /-- A Solidity function around an assembly block. -/
  | solidity
  deriving DecidableEq, Repr

/-- A parameter or return value. -/
structure RoutineParameter where
  /-- Name in the body. -/
  name : String
  /-- Solidity type. -/
  type : String
  deriving DecidableEq, Repr

/-- A parameter of the type of plain words. -/
def RoutineParameter.word (name : String) : RoutineParameter := ⟨name, "uint256"⟩

/-- A routine. -/
structure Routine where
  /-- Name under which it is called. -/
  name : String
  /-- How it is written. -/
  kind : RoutineKind
  /-- Parameters in order. -/
  params : List RoutineParameter
  /-- Return values in order. -/
  returns : List RoutineParameter
  /-- Mutability of a Solidity function. -/
  mutability : Mutability
  /-- Code that assigns the return values. -/
  body : Block
  deriving DecidableEq

namespace Routine

/-- A pure Yul function over words. -/
def ofBody (name : String) (params returns : List String) (body : Block) : Routine :=
  ⟨name, .yul, params.map .word, returns.map .word, .pure, body⟩

/-- The names of parameters, separated by commas. -/
def nameList (params : List RoutineParameter) : String :=
  ", ".intercalate (params.map RoutineParameter.name)

/-- The types and names of parameters, separated by commas. -/
def typedList (params : List RoutineParameter) : String :=
  ", ".intercalate (params.map fun param => param.type ++ " " ++ param.name)

/-- The line that opens an assembly block. -/
def assemblyHead (memorySafe : Bool) : String :=
  "assembly" ++ (if memorySafe then " (\"memory-safe\")" else "") ++ " \x7b"

/-- The line that opens the routine. -/
def head (routine : Routine) : String :=
  match routine.kind with
  | .yul =>
    let returns := if routine.returns.isEmpty then "" else " -> " ++ nameList routine.returns
    "function " ++ routine.name ++ "(" ++ nameList routine.params ++ ")" ++ returns ++ " \x7b"
  | .solidity =>
    let returns :=
      if routine.returns.isEmpty then "" else " returns (" ++ typedList routine.returns ++ ")"
    "function " ++ routine.name ++ "(" ++ typedList routine.params ++ ")" ++
      routine.mutability.headerSuffix ++ returns ++ " \x7b"

/-- The lines of a routine; an assembly block is annotated if it is memory-safe. -/
def toLines (routine : Routine) (memorySafe : Bool) : Lines :=
  let body := Block.toLines routine.body
  match routine.kind with
  | .yul => [.text routine.head, .nested body, .text "\x7d"]
  | .solidity =>
    [.text routine.head,
      .nested [.text (assemblyHead memorySafe), .nested body, .text "\x7d"], .text "\x7d"]

end Routine

end YulAbi.Yul
