import YulAbi.Proofs.Emission.Orderly

/-!
# Units are written once

Routines and constants are put into a unit in any order and under any names. Whatever is there
already stays in front of what is added, so what a name is bound to and where it is listed never
changes, and an insertion that was answered or refused once is answered or refused the same way
ever after. Putting everything in a second time therefore repeats all answers and changes nothing.
-/

namespace YulAbi

open Yul (Routine Expr)

namespace CodeUnit

/-- Whether a later unit lists what a unit lists, in the same order, and then perhaps more. -/
structure Opens (unit later : CodeUnit) : Prop where
  /-- Routines are added behind the others. -/
  routines : unit.routines <+: later.routines
  /-- Constants are added behind the others. -/
  constants : unit.constants <+: later.constants

section

variable {unit after later : CodeUnit}

/-- A unit opens itself. -/
theorem Opens.refl (unit : CodeUnit) : unit.Opens unit := ⟨List.prefix_rfl, List.prefix_rfl⟩

/-- What opens a unit opens those that the unit opens. -/
theorem Opens.trans (h : unit.Opens after) (h' : after.Opens later) : unit.Opens later :=
  ⟨h.routines.trans h'.routines, h.constants.trans h'.constants⟩

/-- What a unit finds is found in every unit that it opens. -/
theorem Opens.extends (h : unit.Opens later) : unit.Extends later := by
  refine ⟨fun name routine found => h.routines.find?_eq_some found, fun name value found => ?_⟩
  obtain ⟨entry, listed, same⟩ := Option.map_eq_some_iff.mp found
  exact Option.map_eq_some_iff.mpr ⟨entry, h.constants.find?_eq_some listed, same⟩

end

end CodeUnit

/-- What may be put into a unit. -/
inductive Insertion where
  /-- A routine, under its own name. -/
  | routine (content : Routine)
  /-- A constant under a name. -/
  | constant (name : String) (value : Word)

namespace Insertion

/-- Puts something into the unit of a run, and answers with the name of the routine or with the
reference to the constant. -/
def perform : Insertion → Emission (String ⊕ Expr)
  | .routine content => do return .inl (← Emission.addRoutine content)
  | .constant name value => do return .inr (← Emission.addConstant name value)

/-- The answer to an insertion into a unit, and the unit afterwards. -/
def into (insertion : Insertion) (unit : CodeUnit) : Generated (String ⊕ Expr) × CodeUnit :=
  let ended := insertion.perform.runOn (.start unit)
  (ended.1, ended.2.unit)

/-- Puts things into a unit one after the other, also behind refusals, and collects the answers. -/
def intoAll : List Insertion → CodeUnit → List (Generated (String ⊕ Expr)) × CodeUnit
  | [], unit => ([], unit)
  | insertion :: rest, unit =>
    let ended := insertion.into unit
    let others := intoAll rest ended.2
    (ended.1 :: others.1, others.2)

/-- The answer to an insertion that is not refused. -/
def reference : Insertion → String ⊕ Expr
  | .routine content => .inl content.name
  | .constant name _ => .inr (.constant name)

/-- Whether a unit has nothing under the name of an insertion. -/
def IsFree (unit : CodeUnit) : Insertion → Prop
  | .routine content => unit.routine? content.name = none
  | .constant name _ => unit.constant? name = none

/-- Whether a unit has what was inserted under its name. -/
def IsBound (unit : CodeUnit) : Insertion → Prop
  | .routine content => unit.routine? content.name = some content
  | .constant name value => unit.constant? name = some value

/-- Where a unit lists the name of an insertion. -/
def place? (unit : CodeUnit) : Insertion → Option Nat
  | .routine content => unit.routines.findIdx? fun other => other.name == content.name
  | .constant name _ => unit.constants.findIdx? fun entry => entry.1 == name

/-- The place behind all that a unit lists of the kind of an insertion. -/
def nextPlace (unit : CodeUnit) : Insertion → Nat
  | .routine _ => unit.routines.length
  | .constant _ _ => unit.constants.length

/-- Whether a unit has what was inserted under its name, and lists it at a place. -/
def StandsAt (unit : CodeUnit) (place : Nat) (insertion : Insertion) : Prop :=
  insertion.IsBound unit ∧ insertion.place? unit = some place

/-- The unit with something more in it. -/
def add (unit : CodeUnit) : Insertion → Generated CodeUnit
  | .routine content => unit.addRoutine content
  | .constant name value => unit.addConstant name value

section

variable {insertion : Insertion} {unit after later : CodeUnit} {cause : GenerationError} {place : Nat}

/-- An insertion answers with its reference, or is refused and leaves the unit as it is. -/
theorem into_eq (insertion : Insertion) (unit : CodeUnit) :
    insertion.into unit =
      match insertion.add unit with
      | .ok after => (.ok insertion.reference, after)
      | .error cause => (.error cause, unit) := by
  cases insertion with
  | routine content =>
    simp only [into, perform, add, Emission.runOn_bind, Emission.runOn_addRoutine, Workspace.start]
    cases unit.addRoutine content <;> rfl
  | constant name value =>
    simp only [into, perform, add, Emission.runOn_bind, Emission.runOn_addConstant, Workspace.start]
    cases unit.addConstant name value <;> rfl

/-- What a unit opens with stays bound. -/
theorem IsBound.opens (h : insertion.IsBound unit) (opens : unit.Opens later) : insertion.IsBound later := by
  cases insertion with
  | routine content => exact opens.extends.routines _ _ h
  | constant name value => exact opens.extends.constants _ _ h

/-- A name that is listed stays where it is. -/
theorem place?_opens (listed : insertion.place? unit = some place) (opens : unit.Opens later) :
    insertion.place? later = some place := by
  cases insertion with
  | routine content =>
    obtain ⟨more, extended⟩ := opens.routines
    rw [place?] at listed ⊢
    rw [← extended, List.findIdx?_append, listed, Option.some_or]
  | constant name value =>
    obtain ⟨more, extended⟩ := opens.constants
    rw [place?] at listed ⊢
    rw [← extended, List.findIdx?_append, listed, Option.some_or]

/-- What stands somewhere stands there in every unit that comes later. -/
theorem StandsAt.opens (h : insertion.StandsAt unit place) (opens : unit.Opens later) :
    insertion.StandsAt later place :=
  ⟨h.1.opens opens, place?_opens h.2 opens⟩

/-- A name that is bound is not free. -/
theorem IsBound.not_isFree (h : insertion.IsBound unit) : ¬ insertion.IsFree unit := by
  intro free
  cases insertion with
  | routine content => cases h.symm.trans free
  | constant name value => cases h.symm.trans free

/-- What is bound is listed somewhere. -/
theorem IsBound.exists_standsAt (h : insertion.IsBound unit) : ∃ place, insertion.StandsAt unit place := by
  have listed : (insertion.place? unit).isSome := by
    cases insertion with
    | routine content =>
      obtain ⟨member, same⟩ := CodeUnit.mem_of_routine?_eq_some h
      rw [place?, List.findIdx?_isSome, List.any_eq_true]
      exact ⟨content, member, by simp⟩
    | constant name value =>
      obtain ⟨entry, found, -⟩ := Option.map_eq_some_iff.mp h
      rw [place?, List.findIdx?_isSome, List.any_eq_true]
      exact ⟨entry, List.mem_of_find?_eq_some found, by simpa using List.find?_some found⟩
  obtain ⟨place, same⟩ := Option.isSome_iff_exists.mp listed
  exact ⟨place, h, same⟩

/-- An insertion under a free name is not refused, and it stands behind everything that was there. -/
theorem add_of_isFree (free : insertion.IsFree unit) :
    ∃ after, insertion.add unit = .ok after ∧ unit.Opens after ∧
      insertion.StandsAt after (insertion.nextPlace unit) := by
  cases insertion with
  | routine content =>
    have added : unit.addRoutine content = .ok ⟨unit.routines ++ [content], unit.constants⟩ := by
      simp [CodeUnit.addRoutine, show unit.routine? content.name = none from free]
    refine ⟨_, added, ⟨List.prefix_append _ _, List.prefix_rfl⟩, CodeUnit.routine?_addRoutine added, ?_⟩
    have absent : unit.routines.findIdx? (fun other => other.name == content.name) = none :=
      List.findIdx?_eq_none_iff.mpr fun other member => by simpa using List.find?_eq_none.mp free other member
    rw [place?, List.findIdx?_append, absent]
    simp [nextPlace]
  | constant name value =>
    have added : unit.addConstant name value = .ok ⟨unit.routines, unit.constants ++ [(name, value)]⟩ := by
      simp [CodeUnit.addConstant, show unit.constant? name = none from free]
    refine ⟨_, added, ⟨List.prefix_rfl, List.prefix_append _ _⟩, CodeUnit.constant?_addConstant added, ?_⟩
    have unlisted := List.find?_eq_none.mp (Option.map_eq_none_iff.mp free)
    have absent : unit.constants.findIdx? (fun entry => entry.1 == name) = none :=
      List.findIdx?_eq_none_iff.mpr fun entry member => by simpa using unlisted entry member
    rw [place?, List.findIdx?_append, absent]
    simp [nextPlace]

/-- What is bound already may be inserted again without effect. -/
theorem add_of_isBound (bound : insertion.IsBound unit) : insertion.add unit = .ok unit := by
  cases insertion with
  | routine content => exact CodeUnit.addRoutine_of_some bound
  | constant name value => exact CodeUnit.addConstant_of_some bound

/-- What is neither bound nor free is refused, in every later unit for the same reason. -/
theorem add_of_taken (free : ¬ insertion.IsFree unit) (bound : ¬ insertion.IsBound unit) :
    ∃ cause, ∀ later, unit.Opens later → insertion.add later = .error cause := by
  cases insertion with
  | routine content =>
    obtain ⟨existing, found⟩ := Option.ne_none_iff_exists'.mp free
    have different : existing ≠ content := fun same => bound (same ▸ found)
    refine ⟨.routineConflict content.name, fun later opens => ?_⟩
    simp only [add, CodeUnit.addRoutine, opens.extends.routines _ _ found, if_neg different]
  | constant name value =>
    obtain ⟨existing, found⟩ := Option.ne_none_iff_exists'.mp free
    have different : existing ≠ value := fun same => bound (same ▸ found)
    refine ⟨.constantConflict name existing value, fun later opens => ?_⟩
    simp only [add, CodeUnit.addConstant, opens.extends.constants _ _ found, if_neg different]

/-- How an insertion ends: as the first one under its name, as a repetition, or refused. -/
inductive Ends (insertion : Insertion) (unit : CodeUnit) : Generated (String ⊕ Expr) → CodeUnit → Prop where
  /-- The name was free, and what is inserted is listed last. -/
  | first {after : CodeUnit} (free : insertion.IsFree unit) (opens : unit.Opens after)
    (stands : insertion.StandsAt after (insertion.nextPlace unit)) :
    Ends insertion unit (.ok insertion.reference) after
  /-- The name is bound to what is inserted. -/
  | again (bound : insertion.IsBound unit) : Ends insertion unit (.ok insertion.reference) unit
  /-- The name is bound to something else. -/
  | refused {cause : GenerationError}
    (lasting : ∀ later, unit.Opens later → insertion.into later = (.error cause, later)) :
    Ends insertion unit (.error cause) unit

/-- Every insertion ends in one of the three ways. -/
theorem ends (insertion : Insertion) (unit : CodeUnit) :
    insertion.Ends unit (insertion.into unit).1 (insertion.into unit).2 := by
  by_cases free : insertion.IsFree unit
  · obtain ⟨after, added, opens, stands⟩ := add_of_isFree free
    rw [into_eq, added]
    exact .first free opens stands
  · by_cases bound : insertion.IsBound unit
    · rw [into_eq, add_of_isBound bound]
      exact .again bound
    · obtain ⟨cause, lasting⟩ := add_of_taken free bound
      rw [into_eq, lasting unit (.refl unit)]
      exact .refused fun later opens => by rw [into_eq, lasting later opens]

/-- A refusal leaves the unit as it is. -/
theorem into_of_error (failed : (insertion.into unit).1 = .error cause) : (insertion.into unit).2 = unit := by
  have ended := insertion.ends unit
  generalize insertion.into unit = outcome at ended failed ⊢
  obtain ⟨answer, after⟩ := outcome
  cases ended with
  | refused lasting => rfl
  | _ => cases failed

/-- An insertion that is answered stands somewhere, behind everything else if its name was free. -/
theorem into_of_ok {answer : String ⊕ Expr} (answered : (insertion.into unit).1 = .ok answer) :
    answer = insertion.reference ∧ ∃ place, insertion.StandsAt (insertion.into unit).2 place ∧
      (insertion.IsFree unit → place = insertion.nextPlace unit) := by
  have ended := insertion.ends unit
  generalize insertion.into unit = outcome at ended answered ⊢
  obtain ⟨result, after⟩ := outcome
  cases ended with
  | first free opens stands =>
    cases answered
    exact ⟨rfl, _, stands, fun _ => rfl⟩
  | again bound =>
    cases answered
    obtain ⟨place, stands⟩ := bound.exists_standsAt
    exact ⟨rfl, place, stands, fun free => absurd free bound.not_isFree⟩
  | refused lasting => cases answered

/-- An insertion takes nothing away. -/
theorem opens_into (insertion : Insertion) (unit : CodeUnit) : unit.Opens (insertion.into unit).2 := by
  have ended := insertion.ends unit
  generalize insertion.into unit = outcome at ended ⊢
  obtain ⟨answer, after⟩ := outcome
  cases ended with
  | first free opens stands => exact opens
  | again bound => exact .refl _
  | refused lasting => exact .refl _

/-- An insertion ends the same way again in every later unit, which it leaves as it is. -/
theorem into_again (insertion : Insertion) (opens : (insertion.into unit).2.Opens later) :
    insertion.into later = ((insertion.into unit).1, later) := by
  have ended := insertion.ends unit
  generalize insertion.into unit = outcome at ended opens
  obtain ⟨answer, after⟩ := outcome
  cases ended with
  | first free _ stands => rw [into_eq, add_of_isBound (stands.1.opens opens)]
  | again bound => rw [into_eq, add_of_isBound (bound.opens opens)]
  | refused lasting => exact lasting later opens

/-- What is bound after a success was bound before or has been inserted. -/
theorem bound_or_inserted {inserted : Insertion} (added : inserted.add unit = .ok after)
    (bound : insertion.IsBound after) : insertion.IsBound unit ∨ insertion = inserted := by
  cases inserted with
  | routine content =>
    rcases CodeUnit.addRoutine_cases added with ⟨-, rfl⟩ | ⟨-, rfl⟩
    · cases insertion with
      | constant name value => exact .inl bound
      | routine other =>
        rcases Option.or_eq_some_iff.mp (List.find?_append.symm.trans bound) with found | ⟨-, found⟩
        · exact .inl found
        · exact .inr (congrArg routine (List.mem_singleton.mp (List.mem_of_find?_eq_some found)))
    · exact .inl bound
  | constant name value =>
    rcases CodeUnit.addConstant_cases added with ⟨-, rfl⟩ | rfl
    · cases insertion with
      | routine content => exact .inl bound
      | constant name' value' =>
        obtain ⟨entry, found, same⟩ := Option.map_eq_some_iff.mp bound
        rcases Option.or_eq_some_iff.mp (List.find?_append.symm.trans found) with found' | ⟨-, found'⟩
        · exact .inl (Option.map_eq_some_iff.mpr ⟨entry, found', same⟩)
        · have named := List.find?_some found'
          rw [List.mem_singleton.mp (List.mem_of_find?_eq_some found')] at named same
          simp only [beq_iff_eq] at named same
          exact .inr (by rw [named, same])
    · exact .inl bound

/-- What is bound by an insertion only has been inserted by it, under a name that was free. -/
theorem inserted_of_bound {inserted : Insertion} (unbound : ¬ insertion.IsBound unit)
    (bound : insertion.IsBound (inserted.into unit).2) : insertion = inserted ∧ insertion.IsFree unit := by
  cases added : inserted.add unit with
  | error cause =>
    rw [into_eq, added] at bound
    exact absurd bound unbound
  | ok after =>
    rw [into_eq, added] at bound
    have same := (bound_or_inserted added bound).resolve_left unbound
    refine ⟨same, by_contra fun taken => ?_⟩
    obtain ⟨cause, refused⟩ := add_of_taken taken unbound
    rw [← same, refused unit (.refl unit)] at added
    cases added

/-! ### Insertions in a row -/

/-- Insertions in two rows are insertions in one row. -/
theorem intoAll_append (earlier later : List Insertion) (unit : CodeUnit) :
    intoAll (earlier ++ later) unit =
      ((intoAll earlier unit).1 ++ (intoAll later (intoAll earlier unit).2).1,
        (intoAll later (intoAll earlier unit).2).2) := by
  induction earlier generalizing unit with
  | nil => rfl
  | cons insertion rest ih => simp only [List.cons_append, intoAll, ih]

/-- Insertions take nothing away. -/
theorem opens_intoAll (insertions : List Insertion) (unit : CodeUnit) : unit.Opens (intoAll insertions unit).2 := by
  induction insertions generalizing unit with
  | nil => exact .refl unit
  | cons insertion rest ih => exact (opens_into insertion unit).trans (ih _)

/-- What insertions in a row lead to opens what more of them lead to. -/
theorem opens_append (earlier later : List Insertion) (unit : CodeUnit) :
    (intoAll earlier unit).2.Opens (intoAll (earlier ++ later) unit).2 := by
  rw [intoAll_append]
  exact opens_intoAll later _

/-- Insertions in a row end the same way again in every later unit, which they leave as it is. -/
theorem intoAll_again (insertions : List Insertion) (opens : (intoAll insertions unit).2.Opens later) :
    intoAll insertions later = ((intoAll insertions unit).1, later) := by
  induction insertions generalizing unit with
  | nil => rfl
  | cons insertion rest ih =>
    have middle := (opens_intoAll rest (insertion.into unit).2).trans opens
    simp only [intoAll, into_again insertion middle, ih opens]

/-- Whatever stands in the end stood there from the start, or it was inserted when its name was free and it
was listed last. -/
theorem exists_first (insertions : List Insertion) (stands : insertion.StandsAt (intoAll insertions unit).2 place) :
    insertion.StandsAt unit place ∨ ∃ earlier later, insertions = earlier ++ insertion :: later ∧
      insertion.IsFree (intoAll earlier unit).2 ∧ place = insertion.nextPlace (intoAll earlier unit).2 := by
  induction insertions generalizing unit with
  | nil => exact .inl stands
  | cons first rest ih =>
    -- what stood behind the first insertion stood there before, or it is the first insertion itself
    rcases ih stands with stood | ⟨earlier, later, same, free, last⟩
    · by_cases bound : insertion.IsBound unit
      · obtain ⟨place', stood'⟩ := bound.exists_standsAt
        have equal := (stood'.opens (opens_into first unit)).2.symm.trans stood.2
        exact .inl (Option.some_inj.mp equal ▸ stood')
      · obtain ⟨rfl, free⟩ := inserted_of_bound bound stood.1
        obtain ⟨after, added, -, stands'⟩ := add_of_isFree free
        rw [into_eq, added] at stood
        exact .inr ⟨[], rest, rfl, free, Option.some_inj.mp (stood.2.symm.trans stands'.2)⟩
    · exact .inr ⟨first :: earlier, later, by rw [same, List.cons_append], free, last⟩

end

/-- Insertions into a unit, in any order and with any names. One that is refused leaves the unit as it was, and
one that is answered is bound, behind everything else if its name was free. What is bound and listed at a place
stays bound and listed at that place; it is there from the start, or since the first insertion under its name
was answered. Putting everything in again is answered and refused the same way and changes nothing. -/
theorem insertions_are_written_once (insertions : List Insertion) (unit : CodeUnit) :
    (∀ earlier insertion later, insertions = earlier ++ insertion :: later →
      let before := (intoAll earlier unit).2
      (∀ cause, (insertion.into before).1 = .error cause → (insertion.into before).2 = before) ∧
      (∀ answer, (insertion.into before).1 = .ok answer → answer = insertion.reference ∧
        ∃ place, insertion.StandsAt (insertion.into before).2 place ∧
          (insertion.IsFree before → place = insertion.nextPlace before))) ∧
    (∀ earlier later, insertions = earlier ++ later → ∀ (insertion : Insertion) (place : Nat),
      insertion.StandsAt (intoAll earlier unit).2 place → insertion.StandsAt (intoAll insertions unit).2 place) ∧
    (∀ (insertion : Insertion) (place : Nat), insertion.StandsAt (intoAll insertions unit).2 place →
      insertion.StandsAt unit place ∨ ∃ earlier later, insertions = earlier ++ insertion :: later ∧
        let before := (intoAll earlier unit).2
        insertion.IsFree before ∧ (insertion.into before).1 = .ok insertion.reference ∧
          place = insertion.nextPlace before) ∧
    intoAll insertions (intoAll insertions unit).2 = intoAll insertions unit := by
  refine ⟨fun earlier insertion later _ => ⟨fun cause failed => ?_, fun answer answered => ?_⟩,
    fun earlier later same insertion place stands => ?_, fun insertion place stands => ?_, ?_⟩
  · exact into_of_error failed
  · exact into_of_ok answered
  · exact stands.opens (same ▸ opens_append earlier later unit)
  · refine (exists_first insertions stands).imp_right ?_
    rintro ⟨earlier, later, same, free, last⟩
    obtain ⟨after, added, -⟩ := add_of_isFree free
    exact ⟨earlier, later, same, free, by rw [into_eq, added], last⟩
  · exact intoAll_again insertions (.refl _)

/-- Two routines and two constants, each two with one name. -/
def contested : List Insertion :=
  [.constant "OneWord" 32#256, .routine (.ofBody "id" ["x"] ["y"] [.assignTo "y" (.ident "x")]),
    .constant "OneWord" 33#256, .routine (.ofBody "id" ["x"] ["y"] [])]

/-- The second value of a constant is refused and leaves the unit as it was; the first one is listed first,
and the first routine stays the one of its name. -/
theorem contested_insertions :
    (intoAll contested .empty).1 = [.ok (.inr (.constant "OneWord")), .ok (.inl "id"),
      .error (.constantConflict "OneWord" 32#256 33#256), .error (.routineConflict "id")] ∧
    (intoAll (contested.take 3) .empty).2 = (intoAll (contested.take 2) .empty).2 ∧
    StandsAt (intoAll contested .empty).2 0 (.constant "OneWord" 32#256) ∧
    intoAll contested (intoAll contested .empty).2 = intoAll contested .empty := by
  obtain ⟨step, lasts, -, again⟩ := insertions_are_written_once contested .empty
  have refused := (step (contested.take 2) _ (contested.drop 3) rfl).1 (.constantConflict "OneWord" 32#256 33#256) rfl
  exact ⟨rfl, refused, lasts (contested.take 1) (contested.drop 1) rfl _ 0 ⟨rfl, rfl⟩, again⟩

end Insertion

end YulAbi
