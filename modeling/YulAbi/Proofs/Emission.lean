import Mathlib.Data.List.Nodup
import YulAbi.Emission
import YulAbi.SolType

/-!
# What emissions keep

A unit is extended by everything that is added to it. Every request that is remembered
stands for a promise about its routine, and the promise has to hold in every later unit
too. While the routine of a request is being generated its promise is pending. An
emission that succeeds keeps all promises that are not pending and may add others.
Emissions that fail are not covered here.

Shapes get smaller from a type to its parts, so the request of a part is never pending while
the routine of the type is generated.
-/

namespace YulAbi

namespace CodeUnit

/-- Whether everything in a unit is in another one under the same names. -/
structure Extends (unit later : CodeUnit) : Prop where
  /-- Routines stay. -/
  routines : ∀ name routine, unit.routine? name = some routine → later.routine? name = some routine
  /-- Constants stay. -/
  constants : ∀ name value, unit.constant? name = some value → later.constant? name = some value

/-- A unit extends itself. -/
theorem Extends.refl (unit : CodeUnit) : unit.Extends unit := ⟨fun _ _ h => h, fun _ _ h => h⟩

/-- Extensions of extensions are extensions. -/
theorem Extends.trans {first second third : CodeUnit} (h : first.Extends second)
    (h' : second.Extends third) : first.Extends third :=
  ⟨fun name routine found => h'.routines name routine (h.routines name routine found),
    fun name value found => h'.constants name value (h.constants name value found)⟩

/-- Another routine does not change constants. -/
theorem constant?_addRoutine {unit after : CodeUnit} {routine : Yul.Routine}
    (h : unit.addRoutine routine = .ok after) (name : String) :
    after.constant? name = unit.constant? name := by
  unfold addRoutine at h
  split at h
  · cases h
    rfl
  · split at h <;> cases h
    rfl

/-- Another constant does not change routines. -/
theorem routine?_addConstant {unit after : CodeUnit} {added : String} {value : Word}
    (h : unit.addConstant added value = .ok after) (name : String) :
    after.routine? name = unit.routine? name := by
  unfold addConstant at h
  split at h
  · cases h
    rfl
  · split at h <;> cases h
    rfl

/-- Another constant does not change those with other names. -/
theorem constant?_addConstant_of_ne {unit after : CodeUnit} {name other : String} {value : Word} (apart : other ≠ name)
    (h : unit.addConstant name value = .ok after) : after.constant? other = unit.constant? other := by
  unfold addConstant at h
  split at h
  · cases h
    rw [constant?, constant?, List.find?_append, List.find?_cons_of_neg (by simpa using apart.symm)]
    simp
  · split at h <;> cases h
    rfl

/-- A routine extends the unit that it is added to. -/
theorem Extends.of_addRoutine {unit after : CodeUnit} {routine : Yul.Routine}
    (h : unit.addRoutine routine = .ok after) : unit.Extends after :=
  ⟨fun _ _ found => routine?_addRoutine_of_some h found,
    fun name _ found => (constant?_addRoutine h name).trans found⟩

/-- A constant extends the unit that it is added to. -/
theorem Extends.of_addConstant {unit after : CodeUnit} {name : String} {value : Word}
    (h : unit.addConstant name value = .ok after) : unit.Extends after :=
  ⟨fun other _ found => (routine?_addConstant h other).trans found,
    fun _ _ found => constant?_addConstant_of_some h found⟩

end CodeUnit

/-- What an operation is requested for. -/
abbrev RequestKey := Operation × Shape

/-- What the name of a request stands for in a unit. -/
abbrev Promise := CodeUnit → RequestKey → String → Prop

/-- Whether all promises but the pending ones are kept. -/
structure Workspace.Keeps (promise : Promise) (pending : List RequestKey) (workspace : Workspace) :
    Prop where
  /-- No request is remembered twice. -/
  distinct : (workspace.requests.map Prod.fst).Nodup
  /-- The promise of a request holds now and later. -/
  kept : ∀ key name, (key, name) ∈ workspace.requests → key ∉ pending →
    ∀ unit, workspace.unit.Extends unit → promise unit key name

/-- Whether a workspace comes from another one by additions. -/
structure Workspace.Follows (before after : Workspace) : Prop where
  /-- Code is only added. -/
  unit : before.unit.Extends after.unit
  /-- Requests are not forgotten. -/
  requests : ∀ entry ∈ before.requests, entry ∈ after.requests

/-- A workspace follows itself. -/
theorem Workspace.Follows.refl (workspace : Workspace) : workspace.Follows workspace :=
  ⟨.refl _, fun _ h => h⟩

/-- What follows a follower follows. -/
theorem Workspace.Follows.trans {first second third : Workspace} (h : first.Follows second)
    (h' : second.Follows third) : first.Follows third :=
  ⟨h.unit.trans h'.unit, fun entry member => h'.requests entry (h.requests entry member)⟩

/-- A workspace that starts with a unit has made no promises. -/
theorem Workspace.keeps_start (promise : Promise) (pending : List RequestKey) (unit : CodeUnit) :
    (Workspace.start unit).Keeps promise pending :=
  ⟨by simp [Workspace.start], fun _ _ member => by simp [Workspace.start] at member⟩

/-- A promise stays pending when more promises are. -/
theorem Workspace.Keeps.morePending {promise : Promise} {pending : List RequestKey}
    {workspace : Workspace} (h : workspace.Keeps promise pending) (key : RequestKey) :
    workspace.Keeps promise (key :: pending) :=
  ⟨h.distinct, fun other name member settled =>
    h.kept other name member fun waits => settled (List.mem_cons_of_mem _ waits)⟩

/-- A request that is reserved is pending. -/
theorem Workspace.Keeps.reserve {promise : Promise} {pending : List RequestKey} {workspace : Workspace}
    (h : workspace.Keeps promise pending) {key : RequestKey} (name : String)
    (fresh : workspace.requests.find? (fun entry => entry.1 == key) = none) :
    Workspace.Keeps promise (key :: pending)
      ⟨workspace.unit, workspace.owners, (key, name) :: workspace.requests⟩ := by
  refine ⟨?_, fun other otherName member settled => ?_⟩
  · rw [List.map_cons, List.nodup_cons]
    refine ⟨fun member => ?_, h.distinct⟩
    obtain ⟨entry, present, same⟩ := List.mem_map.mp member
    have differs := List.find?_eq_none.mp fresh entry present
    exact differs (by simp [same])
  · rcases List.mem_cons.mp member with same | present
    · cases same
      exact absurd List.mem_cons_self settled
    · exact (h.morePending key).kept other otherName present settled

namespace Emission

section

variable {α β : Type} {promise : Promise} {pending : List RequestKey}

/-- A sequence ends as its first step does if that fails, and as the rest does otherwise. -/
theorem runOn_bind (first : Emission α) (next : α → Emission β) (before : Workspace) :
    (first >>= next).runOn before =
      match first.runOn before with
      | (.ok value, reached) => (next value).runOn reached
      | (.error cause, reached) => (.error cause, reached) := by
  unfold runOn ExceptT.run StateT.run
  simp only [bind, ExceptT.bind, ExceptT.mk, StateT.bind, ExceptT.bindCont]
  cases first before with
  | mk result reached => cases result <;> rfl

/-- A sequence succeeds exactly if its first step does and then the rest. -/
theorem runOn_bind_ok {first : Emission α} {next : α → Emission β} {before after : Workspace} {value : β} :
    (first >>= next).runOn before = (.ok value, after) ↔
      ∃ middle reached, first.runOn before = (.ok middle, reached) ∧
        (next middle).runOn reached = (.ok value, after) := by
  rw [runOn_bind]
  constructor
  · intro h
    split at h
    · rename_i middle reached ended
      exact ⟨middle, reached, ended, h⟩
    · cases h
  · rintro ⟨middle, reached, first, second⟩
    rw [first]
    exact second

/-- What adding a routine does to a workspace. -/
theorem runOn_addRoutine (routine : Yul.Routine) (before : Workspace) :
    (addRoutine routine).runOn before =
      match before.unit.addRoutine routine with
      | .ok unit => (.ok routine.name, ⟨unit, before.owners, before.requests⟩)
      | .error cause => (.error cause, before) := by
  change ((liftM (before.unit.addRoutine routine) : Emission CodeUnit) >>= fun unit => (do
    set (⟨unit, before.owners, before.requests⟩ : Workspace)
    return routine.name)).runOn before = _
  cases before.unit.addRoutine routine <;> rfl

/-- What adding a constant does to a workspace. -/
theorem runOn_addConstant (name : String) (value : Word) (before : Workspace) :
    (addConstant name value).runOn before =
      match before.unit.addConstant name value with
      | .ok unit => (.ok (.constant name), ⟨unit, before.owners, before.requests⟩)
      | .error cause => (.error cause, before) := by
  change ((liftM (before.unit.addConstant name value) : Emission CodeUnit) >>= fun unit => (do
    set (⟨unit, before.owners, before.requests⟩ : Workspace)
    return Yul.Expr.constant name)).runOn before = _
  cases before.unit.addConstant name value <;> rfl

/-- Whether an emission that succeeds keeps what was promised and answers with something that holds in
every later unit. -/
def Gives (promise : Promise) (pending : List RequestKey) (emission : Emission α)
    (post : CodeUnit → α → Prop) : Prop :=
  ∀ before after value, emission.runOn before = (.ok value, after) → before.Keeps promise pending →
    after.Keeps promise pending ∧ before.Follows after ∧
      ∀ unit, after.unit.Extends unit → post unit value

/-- An answer keeps everything. -/
theorem Gives.pure {post : CodeUnit → α → Prop} {value : α} (h : ∀ unit, post unit value) :
    Gives promise pending (pure value) post := by
  intro before after result ended keeps
  cases ended
  exact ⟨keeps, .refl _, fun unit _ => h unit⟩

/-- An emission that fails gives nothing. -/
theorem Gives.throw {post : CodeUnit → α → Prop} (cause : GenerationError) :
    Gives promise pending (throw cause) post := by
  intro before after result ended keeps
  cases ended

/-- A size or offset that exists is what it is. -/
theorem Gives.lift (answer : Generated α) :
    Gives promise pending (liftM answer) fun _ value => answer = .ok value := by
  intro before after result ended keeps
  cases answer with
  | error cause => cases ended
  | ok value =>
    cases ended
    exact ⟨keeps, .refl _, fun _ _ => rfl⟩

/-- Emissions in a row give what both give. -/
theorem Gives.bind {first : Emission α} {next : α → Emission β} {post : CodeUnit → α → Prop}
    {others : α → CodeUnit → β → Prop} {both : CodeUnit → β → Prop}
    (h : Gives promise pending first post) (h' : ∀ value, Gives promise pending (next value) (others value))
    (combine : ∀ unit value result, post unit value → others value unit result → both unit result) :
    Gives promise pending (first >>= next) both := by
  intro before after result ended keeps
  obtain ⟨value, reached, begun, continued⟩ := runOn_bind_ok.mp ended
  obtain ⟨kept, follows, given⟩ := h before reached value begun keeps
  obtain ⟨kept', follows', given'⟩ := h' value reached after result continued kept
  refine ⟨kept', follows.trans follows', fun unit extends' => ?_⟩
  exact combine unit value result (given unit (follows'.unit.trans extends')) (given' unit extends')

/-- What the first of two emissions gives may be used for what the second one has to give. -/
theorem Gives.andThen {first : Emission α} {next : α → Emission β} {post : CodeUnit → α → Prop}
    {goal : CodeUnit → β → Prop} (h : Gives promise pending first post)
    (h' : ∀ value, Gives promise pending (next value) fun unit result => post unit value → goal unit result) :
    Gives promise pending (first >>= next) goal :=
  h.bind h' fun _ _ _ given continued => continued given

/-- What an emission gives may be weakened. -/
theorem Gives.weaken {emission : Emission α} {post weaker : CodeUnit → α → Prop}
    (h : Gives promise pending emission post)
    (weaken : ∀ unit value, post unit value → weaker unit value) :
    Gives promise pending emission weaker := by
  intro before after result ended keeps
  obtain ⟨kept, follows, given⟩ := h before after result ended keeps
  exact ⟨kept, follows, fun unit extends' => weaken unit result (given unit extends')⟩

/-- A routine that is added is found under its name. -/
theorem Gives.addRoutine (routine : Yul.Routine) :
    Gives promise pending (addRoutine routine) fun unit name =>
      name = routine.name ∧ unit.routine? routine.name = some routine := by
  intro before after result ended keeps
  rw [runOn_addRoutine] at ended
  cases added : before.unit.addRoutine routine with
  | error cause =>
    rw [added] at ended
    cases ended
  | ok unit =>
    rw [added] at ended
    cases ended
    have extended := CodeUnit.Extends.of_addRoutine added
    refine ⟨⟨keeps.distinct, ?_⟩, ⟨extended, fun _ h => h⟩, ?_⟩
    · intro key name member settled later extends'
      exact keeps.kept key name member settled later (extended.trans extends')
    · intro later extends'
      exact ⟨rfl, extends'.routines _ _ (CodeUnit.routine?_addRoutine added)⟩

/-- A constant that is added has its value. -/
theorem Gives.addConstant (name : String) (value : Word) :
    Gives promise pending (addConstant name value) fun unit expr =>
      expr = .constant name ∧ unit.constant? name = some value := by
  intro before after result ended keeps
  rw [runOn_addConstant] at ended
  cases added : before.unit.addConstant name value with
  | error cause =>
    rw [added] at ended
    cases ended
  | ok unit =>
    rw [added] at ended
    cases ended
    have extended := CodeUnit.Extends.of_addConstant added
    refine ⟨⟨keeps.distinct, ?_⟩, ⟨extended, fun _ h => h⟩, ?_⟩
    · intro key name member settled later extends'
      exact keeps.kept key name member settled later (extended.trans extends')
    · intro later extends'
      exact ⟨rfl, extends'.constants _ _ (CodeUnit.constant?_addConstant added)⟩

/-- An owner name promises nothing. -/
theorem Gives.owner (shape : Shape) : Gives promise pending (owner shape) fun _ _ => True := by
  intro before after result ended keeps
  cases ended
  exact ⟨⟨keeps.distinct, keeps.kept⟩, ⟨.refl _, fun _ h => h⟩, fun _ _ => trivial⟩

/-- Whether an emission gives something if it starts where something else is known for good. -/
def GivesKnowing (promise : Promise) (pending : List RequestKey) (known : CodeUnit → Prop)
    (emission : Emission α) (post : CodeUnit → α → Prop) : Prop :=
  ∀ before after value, emission.runOn before = (.ok value, after) → before.Keeps promise pending →
    (∀ unit, before.unit.Extends unit → known unit) → after.Keeps promise pending ∧ before.Follows after ∧
      ∀ unit, after.unit.Extends unit → post unit value

/-- What is given in any case is given knowing something. -/
theorem Gives.knowing {emission : Emission α} {post : CodeUnit → α → Prop}
    (h : Gives promise pending emission post) (known : CodeUnit → Prop) :
    GivesKnowing promise pending known emission post :=
  fun before after value ended keeps _ => h before after value ended keeps

/-- What is given knowing nothing is given in any case. -/
theorem GivesKnowing.gives {emission : Emission α} {post : CodeUnit → α → Prop}
    (h : GivesKnowing promise pending (fun _ => True) emission post) : Gives promise pending emission post :=
  fun before after value ended keeps => h before after value ended keeps fun _ _ => trivial

/-- What the first of two emissions gives is known to the second one. -/
theorem GivesKnowing.andThen {known : CodeUnit → Prop} {first : Emission α} {next : α → Emission β}
    {post : CodeUnit → α → Prop} {goal : CodeUnit → β → Prop} (h : GivesKnowing promise pending known first post)
    (h' : ∀ value, GivesKnowing promise pending (fun unit => known unit ∧ post unit value) (next value) goal) :
    GivesKnowing promise pending known (first >>= next) goal := by
  intro before after result ended keeps knows
  obtain ⟨value, reached, begun, continued⟩ := runOn_bind_ok.mp ended
  obtain ⟨kept, follows, given⟩ := h before reached value begun keeps knows
  obtain ⟨kept', follows', given'⟩ := h' value reached after result continued kept fun unit extends' =>
    ⟨knows unit (follows.unit.trans extends'), given unit extends'⟩
  exact ⟨kept', follows.trans follows', given'⟩

/-- What an emission gives may be weakened. -/
theorem GivesKnowing.weaken {known : CodeUnit → Prop} {emission : Emission α} {post weaker : CodeUnit → α → Prop}
    (h : GivesKnowing promise pending known emission post)
    (weaken : ∀ unit value, post unit value → weaker unit value) :
    GivesKnowing promise pending known emission weaker := by
  intro before after result ended keeps knows
  obtain ⟨kept, follows, given⟩ := h before after result ended keeps knows
  exact ⟨kept, follows, fun unit extends' => weaken unit result (given unit extends')⟩

/-- The routine of a request has been made for it, now or before. Its promise is pending while it is
generated, and kept once the routine is there. -/
theorem GivesKnowing.routineFor {known : CodeUnit → Prop} {operation : Operation} {shape : Shape}
    {generate : String → Emission Yul.Routine} (settled : (operation, shape) ∉ pending)
    (generated : ∀ name, Gives promise ((operation, shape) :: pending) (generate name)
      fun unit routine => routine.name = name ∧
        (unit.routine? name = some routine → known unit → promise unit (operation, shape) name)) :
    GivesKnowing promise pending known (routineFor operation shape generate)
      fun unit name => promise unit (operation, shape) name := by
  intro before after result ended keeps knows
  obtain ⟨current, reached, got, ended⟩ := runOn_bind_ok.mp ended
  cases got
  cases remembered : before.requests.find? fun entry => entry.1 == (operation, shape) with
  | some entry =>
    obtain ⟨key, name⟩ := entry
    simp only [remembered] at ended
    cases ended
    have same : key = (operation, shape) := by simpa using List.find?_some remembered
    subst same
    refine ⟨keeps, .refl _, fun unit extends' => ?_⟩
    exact keeps.kept _ _ (List.mem_of_find?_eq_some remembered) settled unit extends'
  | none =>
    simp only [remembered] at ended
    obtain ⟨ownerName, named, owned, ended⟩ := runOn_bind_ok.mp ended
    cases owned
    obtain ⟨current, reached, got, ended⟩ := runOn_bind_ok.mp ended
    cases got
    obtain ⟨done, reserved, set, ended⟩ := runOn_bind_ok.mp ended
    cases set
    obtain ⟨routine, filled, made, ended⟩ := runOn_bind_ok.mp ended
    have reserves := keeps.reserve (FreshName.choose (before.requests.map Prod.snd)
      (operation.stem ++ (before.owners.owner shape).1)) remembered
    obtain ⟨kept, follows, given⟩ := generated _ _ _ _ made ⟨reserves.distinct, reserves.kept⟩
    obtain ⟨kept', follows', added⟩ := Gives.addRoutine routine filled after result ended kept
    obtain ⟨named, -⟩ := given _ (.refl _)
    obtain ⟨answered, -⟩ := added _ (.refl _)
    have grown : before.unit.Extends after.unit := follows.unit.trans follows'.unit
    have served : ∀ unit, after.unit.Extends unit → promise unit (operation, shape) result := by
      intro unit extends'
      obtain ⟨-, promised⟩ := given unit (follows'.unit.trans extends')
      obtain ⟨-, found⟩ := added unit extends'
      rw [answered, named]
      exact promised (named ▸ found) (knows unit (grown.trans extends'))
    refine ⟨⟨kept'.distinct, fun other name member settled' unit extends' => ?_⟩,
      ⟨grown, fun entry member => ?_⟩, served⟩
    · by_cases same : other = (operation, shape)
      · subst same
        have reserved := follows'.requests _ (follows.requests _ List.mem_cons_self)
        have equal := List.inj_on_of_nodup_map kept'.distinct member reserved rfl
        rw [(Prod.mk.inj equal).2, ← named, ← answered]
        exact served unit extends'
      · exact kept'.kept other name member (by simp [same, settled']) unit extends'
    · exact follows'.requests _ (follows.requests _ (List.mem_cons_of_mem _ member))

/-- The same where nothing else is known. -/
theorem Gives.routineFor {operation : Operation} {shape : Shape}
    {generate : String → Emission Yul.Routine} (settled : (operation, shape) ∉ pending)
    (generated : ∀ name, Gives promise ((operation, shape) :: pending) (generate name)
      fun unit routine => routine.name = name ∧
        (unit.routine? name = some routine → promise unit (operation, shape) name)) :
    Gives promise pending (routineFor operation shape generate)
      fun unit name => promise unit (operation, shape) name :=
  (GivesKnowing.routineFor settled fun name => (generated name).weaken fun _ _ given =>
    ⟨given.1, fun found _ => given.2 found⟩).gives

end

end Emission

end YulAbi

namespace YulAbi.Codec

/-! ### Requests of parts -/

section

variable {pending : List RequestKey}

/-- Whether all pending requests are for larger shapes. -/
def PendingAbove (pending : List RequestKey) (shape : Shape) : Prop :=
  ∀ key ∈ pending, sizeOf shape < sizeOf key.2

/-- A request for a smaller shape is not pending. -/
theorem PendingAbove.settled {shape : Shape} (h : PendingAbove pending shape) (operation : Operation) :
    (operation, shape) ∉ pending := by
  intro waits
  exact absurd (h _ waits) (Nat.lt_irrefl _)

/-- While a shape is generated all pending requests are above its parts. -/
theorem PendingAbove.part {shape part : Shape} (h : PendingAbove pending shape)
    (smaller : sizeOf part < sizeOf shape) (operation : Operation) :
    PendingAbove ((operation, shape) :: pending) part := by
  intro key waits
  rcases List.mem_cons.mp waits with same | waits
  · rw [same]
    exact smaller
  · exact Nat.lt_trans smaller (h key waits)

end

/-- A member of a struct is smaller than the struct. -/
theorem sizeOf_lt_struct {shape : Shape} {members : List Shape} (listed : shape ∈ members) (name : String) :
    sizeOf shape < sizeOf (Shape.struct name members) := by
  have := List.sizeOf_lt_of_mem listed
  simp
  omega

/-- A member of a tuple is smaller than the tuple. -/
theorem sizeOf_lt_tuple {shape : Shape} {members : List Shape} (listed : shape ∈ members) :
    sizeOf shape < sizeOf (Shape.tuple members) := by
  have := List.sizeOf_lt_of_mem listed
  simp
  omega

/-- The parts of a parameter list are below the list that is pending. -/
theorem pendingAbove_members (operation : Operation) (members : List (Labelled SolType)) :
    ∀ shape ∈ SolType.shapes members, PendingAbove [(operation, (SolType.tuple members).shape)] shape := by
  intro shape listed key waits
  rw [List.mem_singleton.mp waits]
  exact sizeOf_lt_tuple listed

end YulAbi.Codec
