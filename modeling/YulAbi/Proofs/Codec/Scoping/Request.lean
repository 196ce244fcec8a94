import YulAbi.Codec.Request
import YulAbi.Proofs.Emission.Orderly
import YulAbi.Proofs.Shape.Failures
import YulAbi.Proofs.Yul.Scoping

/-!
# Scoping of requests

Two things are said of every part of the generator at once: it leaves the workspace in order
however it ends, and what it answers with when it succeeds holds in every later unit. The
second one depends on promises that are kept, the first one does not, because it has to hold
when an earlier request has failed.

What the generator promises about the text of a routine is that it is there, that it finds
everything it needs, and that it takes and returns as many words as its request says. Offsets
and sizes need nothing but their constants.
-/

namespace YulAbi

namespace Emission

/-- Whether an emission leaves everything in order, gives answers of a kind, and gives what holds in
every later unit as long as promises are kept. -/
structure Delivers {α : Type} (foreign : Yul.Routine → Prop) (promise : Promise) (pending : List RequestKey)
    (emission : Emission α) (answer : α → Prop) (post : CodeUnit → α → Prop) : Prop where
  /-- However it ends, everything is in order. -/
  orderly : Orderly foreign emission answer
  /-- If it succeeds, it gives something. -/
  gives : Gives promise pending emission post

section

variable {α β : Type} {foreign : Yul.Routine → Prop} {promise : Promise} {pending : List RequestKey}

/-- An answer delivers itself. -/
theorem Delivers.pure {answer : α → Prop} {post : CodeUnit → α → Prop} {value : α} (h : answer value)
    (h' : ∀ unit, post unit value) : Delivers foreign promise pending (pure value) answer post :=
  ⟨.pure h, .pure h'⟩

/-- A failure that is no conflict delivers anything. -/
theorem Delivers.throw {answer : α → Prop} {post : CodeUnit → α → Prop} {cause : GenerationError}
    (clean : ∀ name, cause ≠ .routineConflict name) :
    Delivers foreign promise pending (throw cause) answer post :=
  ⟨.throw clean, .throw cause⟩

/-- A size or offset delivers itself. -/
theorem Delivers.lift {answer : Generated α} (clean : Measures answer) :
    Delivers foreign promise pending (liftM answer) (fun _ => True) fun _ value => answer = .ok value :=
  ⟨.lift clean.routines, .lift answer⟩

/-- What the first of two emissions delivers may be used for what the second one has to deliver. -/
theorem Delivers.andThen {first : Emission α} {next : α → Emission β} {some : α → Prop} {answer : β → Prop}
    {post : CodeUnit → α → Prop} {goal : CodeUnit → β → Prop}
    (h : Delivers foreign promise pending first some post)
    (h' : ∀ value, Delivers foreign promise pending (next value) answer
      fun unit result => post unit value → goal unit result) :
    Delivers foreign promise pending (first >>= next) answer goal :=
  ⟨h.orderly.bind fun value => (h' value).orderly, h.gives.andThen fun value => (h' value).gives⟩

/-- What an emission delivers may be weakened. -/
theorem Delivers.weaken {emission : Emission α} {answer : α → Prop} {post weaker : CodeUnit → α → Prop}
    (h : Delivers foreign promise pending emission answer post)
    (weaken : ∀ unit value, post unit value → weaker unit value) :
    Delivers foreign promise pending emission answer weaker :=
  ⟨h.orderly, h.gives.weaken weaken⟩

/-- The routine of a request is what its promise says, if it is generated so. -/
theorem Delivers.routineFor {operation : Operation} {shape : Shape}
    {generate : String → Emission Yul.Routine} (settled : (operation, shape) ∉ pending)
    (generated : ∀ name, Delivers foreign promise ((operation, shape) :: pending) (generate name)
      (fun routine => routine.name = name) fun unit routine => routine.name = name ∧
        (unit.routine? name = some routine → promise unit (operation, shape) name)) :
    Delivers foreign promise pending (routineFor operation shape generate) (fun _ => True)
      fun unit name => promise unit (operation, shape) name :=
  ⟨.routineFor fun name => (generated name).orderly, .routineFor settled fun name => (generated name).gives⟩

end

end Emission

/-! ### Closed and scoped routines -/

open Yul (Expr Stmt Block Routine)

/-- Whether an expression finds everything that it needs wherever it stands. -/
abbrev Yul.Expr.Closed (unit : CodeUnit) (expr : Expr) : Prop := ∀ visible, expr.Scoped unit visible 1

namespace Offsets

variable {foreign : Yul.Routine → Prop} {promise : Promise} {pending : List RequestKey}

/-- A word, named or not, needs nothing but its constant. -/
theorem named_delivers (useNames : Bool) (name : String) (value : Word) :
    Emission.Delivers foreign promise pending (named useNames name value) (fun _ => True)
      fun unit expr => expr.Closed unit := by
  unfold named
  cases useNames with
  | false => exact .pure trivial fun unit visible => rfl
  | true =>
    refine ⟨.addConstant name value, (Emission.Gives.addConstant name value).weaken fun unit expr given visible => ?_⟩
    obtain ⟨rfl, bound⟩ := given
    exact ⟨⟨value, bound⟩, rfl⟩

/-- A fixed constant. -/
theorem fixed_delivers (useNames : Bool) (constant : FixedConstant) :
    Emission.Delivers foreign promise pending (fixed useNames constant) (fun _ => True)
      fun unit expr => expr.Closed unit :=
  named_delivers useNames constant.name constant.value

/-- A number of bytes. -/
theorem words_delivers (useNames : Bool) (bytes : Nat) :
    Emission.Delivers foreign promise pending (words useNames bytes) (fun _ => True)
      fun unit expr => expr.Closed unit := by
  unfold words
  split
  · exact named_delivers useNames _ _
  · exact named_delivers useNames _ _
  · exact named_delivers useNames _ _
  · exact named_delivers useNames _ _
  · exact .pure trivial fun unit visible => Expr.scoped_number bytes

/-- A word that is named after a shape. -/
theorem owned_delivers (useNames : Bool) (shape : Shape) (name : String → String) (value : Word) :
    Emission.Delivers foreign promise pending (do
      let owner ← Emission.owner shape
      named useNames (name owner) value) (fun _ => True) fun unit expr => expr.Closed unit :=
  Emission.Delivers.andThen ⟨.owner shape, .owner shape⟩ fun _ =>
    (named_delivers useNames _ _).weaken fun _ _ closed _ => closed

/-- The offset of a part, in bytes. -/
theorem member_delivers (useNames : Bool) (type : SolType) (index : Nat) {regime : Regime}
    (unpacked : regime ≠ .packed) :
    Emission.Delivers foreign promise pending (member useNames type index regime) (fun _ => True)
      fun unit expr => expr.Closed unit := by
  refine (Emission.Delivers.lift (Shape.memberOffset_measures unpacked type.shape index)).andThen fun offset => ?_
  refine Emission.Delivers.weaken ?_ fun _ _ closed _ => closed
  split
  · exact .pure trivial fun unit visible => Expr.scoped_number offset
  · exact owned_delivers useNames type.shape
      (fun owner => owner ++ "_" ++ memberName type index ++ "_" ++ regime.suffix) _

/-- A size that belongs to a type. -/
theorem ownedSize_delivers (useNames : Bool) (shape : Shape) (suffix : String) (size : Nat) :
    Emission.Delivers foreign promise pending (ownedSize useNames shape suffix size) (fun _ => True)
      fun unit expr => expr.Closed unit := by
  unfold ownedSize
  split
  · exact words_delivers useNames size
  · exact owned_delivers useNames shape (fun owner => owner ++ "_" ++ suffix) _

/-- The size of the memory that a composite owns directly. -/
theorem memoryHead_delivers (useNames : Bool) (shape : Shape) :
    Emission.Delivers foreign promise pending (memoryHead useNames shape) (fun _ => True)
      fun unit expr => expr.Closed unit :=
  (Emission.Delivers.lift (Shape.memorySize_measures shape)).andThen fun size =>
    (ownedSize_delivers useNames shape _ size).weaken fun _ _ closed _ => closed

/-- The size of the region of encoded heads. -/
theorem callHead_delivers (useNames : Bool) (shape : Shape) :
    Emission.Delivers foreign promise pending (callHead useNames shape) (fun _ => True)
      fun unit expr => expr.Closed unit :=
  (Emission.Delivers.lift (Shape.headRegion_measures shape)).andThen fun size =>
    (ownedSize_delivers useNames shape _ size).weaken fun _ _ closed _ => closed

end Offsets


/-- Whether the routine of a handling, if it has one, may be called with a number of words for one. -/
def Handling.Callable (unit : CodeUnit) (taken : Nat) : Handling → Prop
  | .inline => True
  | .routine name => ∃ routine, unit.routine? name = some routine ∧ routine.params.length = taken ∧
    routine.returns.length = 1

namespace Codec

/-- The number of words that the routine of a request takes. -/
def parameterCount (key : RequestKey) : Nat :=
  match key.1 with
  | .decode => 1
  | .encode => 2
  | .decodeParameters => 1
  | .encodeParameters => key.2.members.length + 1
  | .encodeError => key.2.members.length + 1

/-- The number of words that the routine of a request returns. -/
def resultCount (key : RequestKey) : Nat :=
  match key.1 with
  | .decodeParameters => key.2.members.length
  | _ => 1

/-- Whether a routine finds everything that it needs and takes and returns as many words as a request
says. -/
structure Fits (key : RequestKey) (name : String) (unit : CodeUnit) (routine : Routine) : Prop where
  /-- The name. -/
  named : routine.name = name
  /-- Nothing is missing. -/
  inner : routine.Scoped unit
  /-- The number of parameters. -/
  taken : routine.params.length = parameterCount key
  /-- The number of results. -/
  given : routine.returns.length = resultCount key

/-- The promise that the routine of a request is there and fits it. -/
def scopingPromise : Promise := fun unit key name =>
  ∃ routine, unit.routine? name = some routine ∧ Fits key name unit routine

section

variable {foreign : Routine → Prop} {promise : Promise} {pending : List RequestKey} {settings : Settings}
  {unit : CodeUnit} {visible : List String}

/-- A call of a handling's routine is scoped if its arguments are. -/
theorem scoped_call {name : String} {args : List Expr}
    (h : (Handling.routine name).Callable unit args.length) (inner : Expr.ArgsScoped unit visible args) :
    (Expr.call name args).Scoped unit visible 1 := ⟨h, inner⟩

/-- The slot of the element with the index `i`. -/
@[simp]
theorem scoped_headSlot (head : Expr) :
    (headSlot head).Scoped unit visible 1 ↔ head.Scoped unit visible 1 ∧ "i" ∈ visible := by
  simp [headSlot]

/-- The size of padded bytes needs what their length needs. -/
theorem paddedBytesSize_delivers (length : Expr) :
    Emission.Delivers foreign promise pending (paddedBytesSize settings length) (fun _ => True)
      fun unit size => ∀ visible, length.Scoped unit visible 1 → size.Scoped unit visible 1 := by
  refine (Offsets.fixed_delivers _ .almostTwoWords).andThen fun almostTwo => ?_
  refine (Offsets.fixed_delivers _ .fullWordMask).andThen fun mask => .pure trivial ?_
  intro unit masked counted visible inner
  simp [inner, masked visible, counted visible]

/-- A task that does not apply is no conflict. -/
theorem unsupported_delivers {α : Type} (shape : Shape) (task : Task) (answer : α → Prop)
    (post : CodeUnit → α → Prop) :
    Emission.Delivers foreign promise pending (unsupported shape task) answer post :=
  .throw fun _ same => nomatch same

/-- The size of a tail needs what its length needs. -/
theorem elementTailSize_delivers (element : Shape) (length : Expr) :
    Emission.Delivers foreign promise pending (elementTailSize settings element length) (fun _ => True)
      fun unit size => ∀ visible, length.Scoped unit visible 1 → size.Scoped unit visible 1 := by
  unfold elementTailSize
  split
  · exact paddedBytesSize_delivers length
  · exact paddedBytesSize_delivers length
  · split
    · exact .pure trivial fun unit visible inner => by simp [inner]
    · exact unsupported_delivers _ _ _ _
  · exact unsupported_delivers _ _ _ _

/-- The request for a routine delivers one that fits. -/
theorem routineFor_delivers {operation : Operation} {shape : Shape} {generate : String → Emission Routine}
    (settled : (operation, shape) ∉ pending)
    (generated : ∀ name, Emission.Delivers foreign scopingPromise ((operation, shape) :: pending) (generate name)
      (fun routine => routine.name = name) (Fits (operation, shape) name)) :
    Emission.Delivers foreign scopingPromise pending (Emission.routineFor operation shape generate)
      (fun _ => True) fun unit name => scopingPromise unit (operation, shape) name :=
  .routineFor settled fun name => (generated name).weaken fun _ routine fits =>
    ⟨fits.named, fun found => ⟨routine, found, fits⟩⟩

/-- The answer to a request for a decoder or an encoder may be called. -/
theorem handlingOf_delivers {operation : Operation} {shape : Shape} {generate : String → Emission Routine}
    (task : Task) (settled : (operation, shape) ∉ pending) (one : resultCount (operation, shape) = 1)
    (generated : ∀ name, Emission.Delivers foreign scopingPromise ((operation, shape) :: pending) (generate name)
      (fun routine => routine.name = name) (Fits (operation, shape) name)) :
    Emission.Delivers foreign scopingPromise pending (handlingOf operation task shape generate) (fun _ => True)
      fun unit handling => handling.Callable unit (parameterCount (operation, shape)) := by
  unfold handlingOf
  split
  · exact .pure trivial fun unit => trivial
  · split
    · refine (routineFor_delivers settled generated).andThen fun name => .pure trivial fun unit promised => ?_
      obtain ⟨routine, found, fits⟩ := promised
      exact ⟨routine, found, fits.taken, fits.given.trans one⟩
    · exact unsupported_delivers _ _ _ _

/-- Whether an emission asks for the routine of a shape and generates one that fits. -/
def Requests (foreign : Routine → Prop) (pending : List RequestKey) (operation : Operation) (task : Task)
    (shape : Shape) (emission : Emission Handling) : Prop :=
  ∃ generate : String → Emission Routine, emission = handlingOf operation task shape generate ∧
    ∀ name, Emission.Delivers foreign scopingPromise ((operation, shape) :: pending) (generate name)
      (fun routine => routine.name = name) (Fits (operation, shape) name)

/-- What was asked for is delivered. -/
theorem Requests.delivers {operation : Operation} {task : Task} {shape : Shape} {emission : Emission Handling}
    (h : Requests foreign pending operation task shape emission) (settled : (operation, shape) ∉ pending)
    (one : resultCount (operation, shape) = 1) :
    Emission.Delivers foreign scopingPromise pending emission (fun _ => True)
      fun unit handling => handling.Callable unit (parameterCount (operation, shape)) := by
  obtain ⟨generate, rfl, generated⟩ := h
  exact handlingOf_delivers task settled one generated

end

end Codec

end YulAbi
