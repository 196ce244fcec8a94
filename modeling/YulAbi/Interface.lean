import YulAbi.Description

/-!
# Contract interfaces

The items of a JSON interface as the compiler writes them: parameters carry a
type string, the components of tuples and an optional annotation with the source
type. Functions, errors and events have a type of their own; the constructor and
the two special entry points do not.
-/

namespace YulAbi.Interface

/-- A parameter or a component of a tuple. -/
inductive Parameter where
  /-- A parameter with its name, type string, components, source type and topic flag. -/
  | mk (name type : String) (components : List Parameter) (internalType : Option String)
    (indexed : Bool)

namespace Parameter

/-- Name, possibly empty. -/
def name : Parameter → String
  | .mk name _ _ _ _ => name

/-- Type string. -/
def type : Parameter → String
  | .mk _ type _ _ _ => type

/-- Components, for tuples and arrays of tuples. -/
def components : Parameter → List Parameter
  | .mk _ _ components _ _ => components

/-- Source type, if the compiler gave it. -/
def internalType : Parameter → Option String
  | .mk _ _ _ internalType _ => internalType

/-- Whether an event parameter is a topic. -/
def indexed : Parameter → Bool
  | .mk _ _ _ _ indexed => indexed

end Parameter

/-- The entry points that have no type of their own. -/
inductive Special where
  /-- Runs once, at creation. -/
  | constructor
  /-- Runs when no function matches. -/
  | fallback
  /-- Runs on plain transfers. -/
  | receive
  deriving DecidableEq

/-- The keyword of a special entry point. -/
def Special.keyword : Special → String
  | .constructor => "constructor"
  | .fallback => "fallback"
  | .receive => "receive"

/-- An item of a contract interface. -/
inductive Item where
  /-- A function with its inputs and outputs. -/
  | function (name : String) (inputs outputs : List Parameter) (mutability : Mutability)
  /-- An error. -/
  | error (name : String) (inputs : List Parameter)
  /-- An event. -/
  | event (name : String) (inputs : List Parameter) (anonymous : Bool)
  /-- A constructor, fallback or receive entry. -/
  | special (kind : Special) (inputs : List Parameter) (mutability : Mutability)

/-- The name of an item that has one. -/
def Item.name? : Item → Option String
  | .function name .. => some name
  | .error name _ => some name
  | .event name .. => some name
  | .special .. => none

end YulAbi.Interface
