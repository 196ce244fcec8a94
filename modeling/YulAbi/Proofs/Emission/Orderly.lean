import YulAbi.Proofs.Emission
import YulAbi.Proofs.Text

/-!
# What every emission leaves in order

A workspace is in order if no request and no name is used twice and if every routine of
the unit has the name of a request, apart from routines that came from elsewhere. An
emission leaves it in order however it ends, also when it fails halfway. The names that
were given out before it are not its own: if one of them has no routine yet, it has none
afterwards either. That is why a routine that is generated under a fresh name never meets
another one there, even if other requests were served in between.

A request that was answered is remembered, and a constant that was added is there with
its value. An emission that consists of requests and constants and has succeeded once
therefore gives the same answer from then on and does nothing else.
-/

namespace YulAbi

namespace CodeUnit

/-- A routine that is found is one of the unit and has the name. -/
theorem mem_of_routine?_eq_some {unit : CodeUnit} {name : String} {routine : Yul.Routine}
    (found : unit.routine? name = some routine) : routine ∈ unit.routines ∧ routine.name = name := by
  refine ⟨List.mem_of_find?_eq_some found, ?_⟩
  simpa using List.find?_some found

/-- A routine is found under its name if no other one has it. -/
theorem routine?_of_mem {unit : CodeUnit} (distinct : (unit.routines.map Yul.Routine.name).Nodup)
    {routine : Yul.Routine} (listed : routine ∈ unit.routines) :
    unit.routine? routine.name = some routine := by
  cases found : unit.routine? routine.name with
  | none =>
    have differs := List.find?_eq_none.mp found routine listed
    simp at differs
  | some other =>
    obtain ⟨listed', same⟩ := mem_of_routine?_eq_some found
    rw [List.inj_on_of_nodup_map distinct listed' listed same]

/-- Adding a routine puts it behind the others or changes nothing. -/
theorem addRoutine_cases {unit after : CodeUnit} {routine : Yul.Routine}
    (h : unit.addRoutine routine = .ok after) :
    (unit.routine? routine.name = none ∧ after = ⟨unit.routines ++ [routine], unit.constants⟩) ∨
      (unit.routine? routine.name = some routine ∧ after = unit) := by
  unfold addRoutine at h
  split at h
  case h_1 absent =>
    cases h
    exact .inl ⟨absent, rfl⟩
  case h_2 existing found =>
    split at h
    case isTrue same =>
      cases h
      exact .inr ⟨same ▸ found, rfl⟩
    case isFalse => cases h

/-- A routine is refused only where another one has its name. -/
theorem exists_of_addRoutine_eq_error {unit : CodeUnit} {routine : Yul.Routine} {cause : GenerationError}
    (h : unit.addRoutine routine = .error cause) :
    cause = .routineConflict routine.name ∧ ∃ existing, unit.routine? routine.name = some existing := by
  unfold addRoutine at h
  split at h
  case h_1 => cases h
  case h_2 existing found =>
    split at h
    case isTrue => cases h
    case isFalse =>
      cases h
      exact ⟨rfl, existing, found⟩

/-- Adding a constant puts it behind the others or changes nothing. -/
theorem addConstant_cases {unit after : CodeUnit} {name : String} {value : Word}
    (h : unit.addConstant name value = .ok after) :
    (unit.constant? name = none ∧ after = ⟨unit.routines, unit.constants ++ [(name, value)]⟩) ∨ after = unit := by
  unfold addConstant at h
  split at h
  case h_1 absent =>
    cases h
    exact .inl ⟨absent, rfl⟩
  case h_2 existing found =>
    split at h <;> cases h
    exact .inr rfl

end CodeUnit

/-- The names that requests were answered with or will be. -/
def Workspace.issued (workspace : Workspace) : List String := workspace.requests.map Prod.snd

/-- Whether names and requests are used once only, for constants too, and routines have the names of
requests, apart from those that came from elsewhere. -/
structure Workspace.Orderly (foreign : Yul.Routine → Prop) (workspace : Workspace) : Prop where
  /-- No request is remembered twice. -/
  keys : (workspace.requests.map Prod.fst).Nodup
  /-- No name is given out twice. -/
  names : workspace.issued.Nodup
  /-- No two routines have one name. -/
  routines : (workspace.unit.routines.map Yul.Routine.name).Nodup
  /-- No two constants have one name. -/
  constants : (workspace.unit.constants.map Prod.fst).Nodup
  /-- Routines have names that were given out. -/
  owned : ∀ routine ∈ workspace.unit.routines, ¬ foreign routine → routine.name ∈ workspace.issued

/-- Whether a workspace follows another one without giving routines to names that were given out. -/
structure Workspace.Grows (before after : Workspace) : Prop extends before.Follows after where
  /-- A name that waits for its routine still waits. -/
  untouched : ∀ name ∈ before.issued, before.unit.routine? name = none → after.unit.routine? name = none

section

variable {foreign : Yul.Routine → Prop} {before after first second third : Workspace}

/-- Names that were given out stay given out. -/
theorem Workspace.Follows.issued (h : before.Follows after) {name : String} (listed : name ∈ before.issued) :
    name ∈ after.issued := by
  obtain ⟨entry, member, rfl⟩ := List.mem_map.mp listed
  exact List.mem_map_of_mem (h.requests entry member)

/-- A workspace grows to itself. -/
theorem Workspace.Grows.refl (workspace : Workspace) : workspace.Grows workspace :=
  ⟨.refl workspace, fun _ _ absent => absent⟩

/-- Growth adds up. -/
theorem Workspace.Grows.trans (h : first.Grows second) (h' : second.Grows third) : first.Grows third :=
  ⟨h.toFollows.trans h'.toFollows, fun name listed absent =>
    h'.untouched name (h.issued listed) (h.untouched name listed absent)⟩

/-- A workspace that starts with an empty unit is in order. -/
theorem Workspace.orderly_start (foreign : Yul.Routine → Prop) :
    (Workspace.start .empty).Orderly foreign :=
  ⟨by simp [Workspace.start], by simp [Workspace.start, Workspace.issued],
    by simp [Workspace.start, CodeUnit.empty], by simp [Workspace.start, CodeUnit.empty],
    by simp [Workspace.start, CodeUnit.empty]⟩

/-- A request that is remembered is found. -/
theorem Workspace.Orderly.find?_eq_some (h : before.Orderly foreign) {key : RequestKey} {name : String}
    (listed : (key, name) ∈ before.requests) :
    before.requests.find? (fun entry => entry.1 == key) = some (key, name) := by
  cases found : before.requests.find? fun entry => entry.1 == key with
  | none =>
    have differs := List.find?_eq_none.mp found (key, name) listed
    simp at differs
  | some entry =>
    have same : entry.1 = key := by simpa using List.find?_some found
    rw [List.inj_on_of_nodup_map h.keys (List.mem_of_find?_eq_some found) listed same]

/-- A new request with a fresh name leaves the workspace in order. -/
theorem Workspace.Orderly.reserve (h : before.Orderly foreign) {key : RequestKey} {name : String}
    (absent : before.requests.find? (fun entry => entry.1 == key) = none) (fresh : name ∉ before.issued)
    (owners : OwnerNames) :
    Workspace.Orderly foreign ⟨before.unit, owners, (key, name) :: before.requests⟩ := by
  refine ⟨?_, List.nodup_cons.mpr ⟨fresh, h.names⟩, h.routines, h.constants, fun routine listed own => ?_⟩
  · rw [List.map_cons, List.nodup_cons]
    refine ⟨fun member => ?_, h.keys⟩
    obtain ⟨entry, present, same⟩ := List.mem_map.mp member
    exact List.find?_eq_none.mp absent entry present (by simp [same])
  · exact List.mem_cons_of_mem _ (h.owned routine listed own)

/-- A routine that has a name which was given out, or that comes from elsewhere, leaves the workspace
in order. -/
theorem Workspace.Orderly.addRoutine (h : before.Orderly foreign) {routine : Yul.Routine}
    (owned : ¬ foreign routine → routine.name ∈ before.issued) {unit : CodeUnit}
    (added : before.unit.addRoutine routine = .ok unit) :
    Workspace.Orderly foreign ⟨unit, before.owners, before.requests⟩ := by
  rcases CodeUnit.addRoutine_cases added with ⟨absent, rfl⟩ | ⟨-, rfl⟩
  · refine ⟨h.keys, h.names, ?_, h.constants, fun other listed own => ?_⟩
    · rw [List.map_append, List.nodup_append']
      refine ⟨h.routines, by simp, fun name listed listed' => ?_⟩
      obtain ⟨other, member, rfl⟩ := List.mem_map.mp listed
      have differs := List.find?_eq_none.mp absent other member
      simp at listed'
      simp [listed'] at differs
    · rcases List.mem_append.mp listed with listed | listed
      · exact h.owned other listed own
      · rw [List.mem_singleton.mp listed] at own ⊢
        exact owned own
  · exact h

/-- A constant leaves the workspace in order. -/
theorem Workspace.Orderly.addConstant (h : before.Orderly foreign) {name : String} {value : Word} {unit : CodeUnit}
    (added : before.unit.addConstant name value = .ok unit) :
    Workspace.Orderly foreign ⟨unit, before.owners, before.requests⟩ := by
  rcases CodeUnit.addConstant_cases added with ⟨absent, rfl⟩ | rfl
  · refine ⟨h.keys, h.names, h.routines, ?_, h.owned⟩
    rw [List.map_append, List.nodup_append']
    refine ⟨h.constants, by simp, fun other listed listed' => ?_⟩
    obtain ⟨entry, member, rfl⟩ := List.mem_map.mp listed
    have differs := List.find?_eq_none.mp (Option.map_eq_none_iff.mp absent) entry member
    simp at listed'
    simp [listed'] at differs
  · exact h

/-- A routine under a name that was not given out touches no name that was. -/
theorem Workspace.Grows.addRoutine (h : before.Grows after) {routine : Yul.Routine}
    (fresh : routine.name ∉ before.issued) {unit : CodeUnit} (added : after.unit.addRoutine routine = .ok unit) :
    before.Grows ⟨unit, after.owners, after.requests⟩ := by
  refine ⟨⟨h.unit.trans (.of_addRoutine added), h.requests⟩, fun name listed absent => ?_⟩
  have waits := h.untouched name listed absent
  have different : routine.name ≠ name := fun same => fresh (same ▸ listed)
  rcases CodeUnit.addRoutine_cases added with ⟨-, rfl⟩ | ⟨-, rfl⟩
  · simp only [CodeUnit.routine?, List.find?_append] at waits ⊢
    simp [waits, different]
  · exact waits

/-- A routine that is found under a name which was fresh and has been given out since then comes from
elsewhere. -/
theorem Workspace.Orderly.foreign_of_fresh (h : first.Orderly foreign) {name : String}
    (fresh : name ∉ first.issued) (grows : second.Grows third) (same : second.unit = first.unit)
    (reserved : name ∈ second.issued) {existing : Yul.Routine} (found : third.unit.routine? name = some existing) :
    foreign existing := by
  cases earlier : first.unit.routine? name with
  | none =>
    rw [grows.untouched name reserved (same ▸ earlier)] at found
    cases found
  | some old =>
    have kept := grows.unit.routines name old (same ▸ earlier)
    rw [found] at kept
    cases kept
    obtain ⟨present, named⟩ := CodeUnit.mem_of_routine?_eq_some earlier
    by_contra own
    exact fresh (named ▸ h.owned existing present own)

end

namespace Emission

/-- How an emission ends that starts in order. -/
structure Ended {α : Type} (foreign : Yul.Routine → Prop) (answer : α → Prop) (before : Workspace)
    (result : Generated α) (after : Workspace) : Prop where
  /-- Everything is in order. -/
  orderly : after.Orderly foreign
  /-- Nothing is taken away and no name is touched. -/
  grows : before.Grows after
  /-- Answers are of a kind. -/
  answered : ∀ value, result = .ok value → answer value
  /-- Conflicts are with routines from elsewhere. -/
  conflict : ∀ name, result = .error (.routineConflict name) →
    ∃ routine ∈ after.unit.routines, foreign routine ∧ routine.name = name

/-- Whether an emission leaves everything in order however it ends, and gives answers of a kind. -/
def Orderly {α : Type} (foreign : Yul.Routine → Prop) (emission : Emission α) (answer : α → Prop) : Prop :=
  ∀ before, before.Orderly foreign → ∀ result after, emission.runOn before = (result, after) →
    Ended foreign answer before result after

section

variable {α β : Type} {foreign : Yul.Routine → Prop}

/-- An answer leaves everything as it is. -/
theorem Orderly.pure {answer : α → Prop} {value : α} (h : answer value) :
    Orderly foreign (pure value) answer := by
  intro before orderly result after ended
  cases ended
  refine ⟨orderly, .refl _, fun given same => ?_, fun name failed => nomatch failed⟩
  cases same
  exact h

/-- An answer or failure that is no conflict leaves everything as it is. -/
theorem Orderly.lift {answer : Generated α} (clean : ∀ name, answer ≠ .error (.routineConflict name)) :
    Orderly foreign (liftM answer) fun _ => True := by
  intro before orderly result after ended
  have same : (liftM answer : Emission α).runOn before = (answer, before) := by cases answer <;> rfl
  rw [same] at ended
  cases ended
  exact ⟨orderly, .refl _, fun _ _ => trivial, fun name failed => absurd failed (clean name)⟩

/-- A failure that is no conflict leaves everything as it is. -/
theorem Orderly.throw {answer : α → Prop} {cause : GenerationError} (clean : ∀ name, cause ≠ .routineConflict name) :
    Orderly foreign (throw cause) answer := by
  intro before orderly result after ended
  cases ended
  refine ⟨orderly, .refl _, fun _ same => (nomatch same), fun name failed => ?_⟩
  cases failed
  exact absurd rfl (clean name)

/-- Emissions in a row. -/
theorem Orderly.bind {first : Emission α} {next : α → Emission β} {some : α → Prop} {answer : β → Prop}
    (h : Orderly foreign first some) (h' : ∀ value, Orderly foreign (next value) answer) :
    Orderly foreign (first >>= next) answer := by
  intro before orderly result after ended
  rw [runOn_bind] at ended
  rcases begun : first.runOn before with ⟨result', reached⟩
  rw [begun] at ended
  have start := h before orderly result' reached begun
  cases result' with
  | error cause =>
    cases ended
    exact ⟨start.orderly, start.grows, fun _ same => (nomatch same), fun name failed => by
      cases failed
      exact start.conflict name rfl⟩
  | ok value =>
    have rest := h' value reached start.orderly result after ended
    exact ⟨rest.orderly, start.grows.trans rest.grows, rest.answered, rest.conflict⟩

/-- A constant leaves requests and routines as they are. -/
theorem Orderly.addConstant (name : String) (value : Word) :
    Orderly foreign (addConstant name value) fun _ => True := by
  intro before orderly result after ended
  rw [runOn_addConstant] at ended
  cases added : before.unit.addConstant name value with
  | error cause =>
    rw [added] at ended
    cases ended
    refine ⟨orderly, .refl _, fun _ _ => trivial, fun other failed => ?_⟩
    cases failed
    unfold CodeUnit.addConstant at added
    split at added
    · cases added
    · split at added <;> cases added
  | ok unit =>
    rw [added] at ended
    cases ended
    refine ⟨orderly.addConstant added, ⟨⟨.of_addConstant added, fun _ listed => listed⟩, ?_⟩,
      fun _ _ => trivial, fun other failed => nomatch failed⟩
    intro name listed absent
    rw [← absent]
    exact CodeUnit.routine?_addConstant added name

/-- An owner name leaves requests and routines as they are. -/
theorem Orderly.owner (shape : Shape) : Orderly foreign (owner shape) fun _ => True := by
  intro before orderly result after ended
  cases ended
  exact ⟨⟨orderly.keys, orderly.names, orderly.routines, orderly.constants, orderly.owned⟩,
    ⟨⟨.refl _, fun _ listed => listed⟩, fun _ _ absent => absent⟩, fun _ _ => trivial,
    fun name failed => nomatch failed⟩

/-- Looking at the workspace leaves it as it is. -/
theorem runOn_get (before : Workspace) : (get : Emission Workspace).runOn before = (.ok before, before) := rfl

/-- What a request does: it answers with the name that is remembered, or reserves a fresh one and
adds what is generated. -/
theorem runOn_routineFor (operation : Operation) (shape : Shape) (generate : String → Emission Yul.Routine)
    (before : Workspace) :
    (routineFor operation shape generate).runOn before =
      match before.requests.find? fun entry => entry.1 == (operation, shape) with
      | some entry => (.ok entry.2, before)
      | none =>
        let owned := before.owners.owner shape
        let name := FreshName.choose before.issued (operation.stem ++ owned.1)
        (generate name >>= addRoutine).runOn
          ⟨before.unit, owned.2, ((operation, shape), name) :: before.requests⟩ := by
  unfold routineFor
  rw [runOn_bind, runOn_get]
  dsimp only
  cases before.requests.find? fun entry => entry.1 == (operation, shape) with
  | some entry => rfl
  | none => rfl

/-- A request leaves everything in order if generating its routine does. -/
theorem Orderly.routineFor {operation : Operation} {shape : Shape} {generate : String → Emission Yul.Routine}
    (generated : ∀ name, Orderly foreign (generate name) fun routine => routine.name = name) :
    Orderly foreign (routineFor operation shape generate) fun _ => True := by
  intro before orderly result after ended
  rw [runOn_routineFor] at ended
  cases remembered : before.requests.find? fun entry => entry.1 == (operation, shape) with
  | some entry =>
    rw [remembered] at ended
    cases ended
    exact ⟨orderly, .refl _, fun _ _ => trivial, fun name failed => nomatch failed⟩
  | none =>
    rw [remembered] at ended
    simp only at ended
    generalize (before.owners.owner shape).1 = ownerName at ended
    generalize (before.owners.owner shape).2 = owners at ended
    have fresh := FreshName.choose_notMem before.issued (operation.stem ++ ownerName)
    generalize FreshName.choose before.issued (operation.stem ++ ownerName) = name at ended fresh
    have reserved := orderly.reserve remembered fresh owners
    have reserves : before.Grows ⟨before.unit, owners, ((operation, shape), name) :: before.requests⟩ :=
      ⟨⟨.refl _, fun _ listed => List.mem_cons_of_mem _ listed⟩, fun _ _ absent => absent⟩
    rw [runOn_bind] at ended
    rcases made : (generate name).runOn
      ⟨before.unit, owners, ((operation, shape), name) :: before.requests⟩ with ⟨result', filled⟩
    rw [made] at ended
    have middle := generated name _ reserved result' filled made
    have grows := reserves.trans middle.grows
    cases result' with
    | error cause =>
      cases ended
      refine ⟨middle.orderly, grows, fun _ same => (nomatch same), fun other failed => ?_⟩
      cases failed
      exact middle.conflict other rfl
    | ok routine =>
      have named : routine.name = name := middle.answered routine rfl
      have issued : name ∈ filled.issued := middle.grows.issued List.mem_cons_self
      simp only [runOn_addRoutine] at ended
      cases added : filled.unit.addRoutine routine with
      | ok unit =>
        rw [added] at ended
        cases ended
        exact ⟨middle.orderly.addRoutine (fun _ => named ▸ issued) added, grows.addRoutine (named ▸ fresh) added,
          fun _ _ => trivial, fun _ failed => nomatch failed⟩
      | error cause =>
        rw [added] at ended
        cases ended
        refine ⟨middle.orderly, grows, fun _ same => (nomatch same), fun other failed => ?_⟩
        cases failed
        obtain ⟨same, existing, found⟩ := CodeUnit.exists_of_addRoutine_eq_error added
        cases same
        obtain ⟨listed, named'⟩ := CodeUnit.mem_of_routine?_eq_some found
        rw [named] at found
        exact ⟨existing, listed, orderly.foreign_of_fresh fresh middle.grows rfl List.mem_cons_self found, named'⟩

end

end Emission

/-! ### Emissions that were served before -/

namespace Emission

/-- Whether an emission leaves everything in order, and whether it gives the same answer and changes
nothing in every workspace that comes after a success, where also something holds. -/
structure Settles {α : Type} (foreign : Yul.Routine → Prop) (emission : Emission α)
    (post : Workspace → α → Prop) : Prop where
  /-- However it ends, everything is in order. -/
  orderly : Orderly foreign emission fun _ => True
  /-- After a success it is settled. -/
  settled : ∀ before value after, before.Orderly foreign → emission.runOn before = (.ok value, after) →
    ∀ later, later.Orderly foreign → after.Grows later →
      emission.runOn later = (.ok value, later) ∧ post later value

section

variable {α β : Type} {foreign : Yul.Routine → Prop}

/-- An answer is settled. -/
theorem Settles.pure {post : Workspace → α → Prop} {value : α} (h : ∀ workspace, post workspace value) :
    Settles foreign (pure value) post := by
  refine ⟨.pure trivial, fun before answer after _ ended later _ _ => ?_⟩
  cases ended
  exact ⟨rfl, h later⟩

/-- A failure never succeeds. -/
theorem Settles.throw {post : Workspace → α → Prop} {cause : GenerationError}
    (clean : ∀ name, cause ≠ .routineConflict name) : Settles foreign (throw cause) post :=
  ⟨.throw clean, fun _ _ _ _ ended => nomatch ended⟩

/-- What holds after the first of two emissions may be used for what has to hold after the second. -/
theorem Settles.andThen {first : Emission α} {next : α → Emission β} {post : Workspace → α → Prop}
    {goal : Workspace → β → Prop} (h : Settles foreign first post)
    (h' : ∀ value, Settles foreign (next value) fun workspace result => post workspace value → goal workspace result) :
    Settles foreign (first >>= next) goal := by
  refine ⟨h.orderly.bind fun value => (h' value).orderly, fun before result after start ended later lasting grown => ?_⟩
  obtain ⟨value, reached, begun, finished⟩ := runOn_bind_ok.mp ended
  have middle := h.orderly before start _ reached begun
  have final := (h' value).orderly reached middle.orderly _ after finished
  obtain ⟨same, holds⟩ := h.settled before value reached start begun later lasting (final.grows.trans grown)
  obtain ⟨same', holds'⟩ := (h' value).settled reached result after middle.orderly finished later lasting grown
  rw [runOn_bind, same]
  exact ⟨same', holds' holds⟩

/-- What holds may be weakened. -/
theorem Settles.weaken {emission : Emission α} {post weaker : Workspace → α → Prop}
    (h : Settles foreign emission post) (weaken : ∀ workspace value, post workspace value → weaker workspace value) :
    Settles foreign emission weaker := by
  refine ⟨h.orderly, fun before value after start ended later lasting grown => ?_⟩
  obtain ⟨same, holds⟩ := h.settled before value after start ended later lasting grown
  exact ⟨same, weaken later value holds⟩

/-- A constant that was added is there with its value. -/
theorem Settles.addConstant (name : String) (value : Word) :
    Settles foreign (addConstant name value) fun _ _ => True := by
  refine ⟨.addConstant name value, fun before result after _ ended later _ grown => ⟨?_, trivial⟩⟩
  rw [runOn_addConstant] at ended ⊢
  cases added : before.unit.addConstant name value with
  | error cause =>
    rw [added] at ended
    cases ended
  | ok unit =>
    rw [added] at ended
    cases ended
    have bound := grown.unit.constants name value (CodeUnit.constant?_addConstant added)
    rw [CodeUnit.addConstant_of_some bound]

/-- The answer to a request is remembered. -/
theorem mem_requests_of_routineFor {operation : Operation} {shape : Shape}
    {generate : String → Emission Yul.Routine} {before after : Workspace} {name : String}
    (generated : ∀ name, Orderly foreign (generate name) fun routine => routine.name = name)
    (orderly : before.Orderly foreign)
    (ended : (routineFor operation shape generate).runOn before = (.ok name, after)) :
    ((operation, shape), name) ∈ after.requests := by
  rw [runOn_routineFor] at ended
  cases remembered : before.requests.find? fun entry => entry.1 == (operation, shape) with
  | some entry =>
    rw [remembered] at ended
    cases ended
    have same : entry.1 = (operation, shape) := by simpa using List.find?_some remembered
    rw [← same]
    exact List.mem_of_find?_eq_some remembered
  | none =>
    rw [remembered] at ended
    obtain ⟨routine, filled, made, added⟩ := runOn_bind_ok.mp ended
    have fresh := FreshName.choose_notMem before.issued (operation.stem ++ (before.owners.owner shape).1)
    have reserved := orderly.reserve remembered fresh (before.owners.owner shape).2
    have middle := generated _ _ reserved _ _ made
    have named := middle.answered routine rfl
    have kept := middle.grows.requests _ List.mem_cons_self
    rw [runOn_addRoutine] at added
    split at added <;> cases added
    rw [named]
    exact kept

/-- A request that was answered is remembered, so it is settled. -/
theorem Settles.routineFor {operation : Operation} {shape : Shape} {generate : String → Emission Yul.Routine}
    (generated : ∀ name, Orderly foreign (generate name) fun routine => routine.name = name) :
    Settles foreign (routineFor operation shape generate)
      fun workspace name => ((operation, shape), name) ∈ workspace.requests := by
  refine ⟨.routineFor generated, fun before name after orderly ended later lasting grown => ?_⟩
  have remembered := grown.requests _ (mem_requests_of_routineFor generated orderly ended)
  rw [runOn_routineFor, lasting.find?_eq_some remembered]
  exact ⟨rfl, remembered⟩

end

end Emission

end YulAbi
