import Mathlib.Data.List.Forall2
import YulAbi.Yul.Interpreter

/-!
# Variables of runs

How scopes are opened and closed and how declarations change what is found under a
name: the variable itself and no other one. Statements change values and add variables, but
they never take one away: every scope that was open has all the names that it had. So what is
visible somewhere in a block is visible in the rest of it.
-/

namespace YulAbi.Yul

/-- The variables in a new innermost scope. -/
def Frame.opened (frame : Frame) : Frame := ⟨frame.routine, [] :: frame.scopes⟩

/-- The variables without the innermost scope. -/
def Frame.closed (frame : Frame) : Frame := ⟨frame.routine, frame.scopes.drop 1⟩

/-- The variables with several declarations in the innermost scope. -/
def Frame.declareAll (frame : Frame) (entries : List (String × Word)) : Frame :=
  entries.foldl (fun current entry => current.declare entry.1 entry.2) frame

/-- The variables that a routine starts with. -/
def Routine.entry (routine : Routine) (args : List Word) : Frame :=
  ((Frame.mk routine.name [[]]).declareAll ((routine.params.map RoutineParameter.name).zip args)).declareAll
    (routine.returns.map fun result => (result.name, 0#256))

/-- The variables with a counter in a scope of its own. -/
def Frame.counting (frame : Frame) (counter : String) (index : Word) : Frame :=
  ⟨frame.routine, [(counter, index)] :: frame.scopes⟩

/-- Declarations one after the other. -/
theorem Frame.declareAll_append (frame : Frame) (entries others : List (String × Word)) :
    frame.declareAll (entries ++ others) = (frame.declareAll entries).declareAll others :=
  List.foldl_append

/-- A variable that is declared is found. -/
theorem Scope.find?_declare_self (scope : Scope) (name : String) (value : Word) :
    (scope.declare name value).find? name = some value := by
  simp [Scope.declare, Scope.find?]

/-- Other variables of a scope are found as before. -/
theorem Scope.find?_declare_of_ne {name other : String} (scope : Scope) (value : Word)
    (different : other ≠ name) : (scope.declare name value).find? other = scope.find? other := by
  have filtered : List.find? (fun entry => entry.1 == other) (scope.filter fun entry => entry.1 != name) =
      List.find? (fun entry => entry.1 == other) scope := by
    rw [List.find?_filter]
    congr 1
    funext entry
    by_cases same : entry.1 = other <;> simp [same, different]
  unfold Scope.declare Scope.find?
  rw [List.find?_cons_of_neg (by simp [Ne.symm different]), filtered]

/-- Other variables are found as before a declaration. -/
theorem Frame.find?_declare_of_ne {name other : String} (frame : Frame) (value : Word)
    (different : other ≠ name) : (frame.declare name value).find? other = frame.find? other := by
  obtain ⟨routine, scopes⟩ := frame
  cases scopes with
  | nil => rfl
  | cons scope rest =>
    simp only [Frame.declare, Frame.find?, List.findSome?_cons,
      Scope.find?_declare_of_ne scope value different]

/-- A variable that is declared in a scope is found. -/
theorem Frame.find?_declare_self {frame : Frame} (name : String) (value : Word)
    (inside : frame.scopes ≠ []) : (frame.declare name value).find? name = some value := by
  obtain ⟨routine, scopes⟩ := frame
  cases scopes with
  | nil => exact absurd rfl inside
  | cons scope rest =>
    simp only [Frame.declare, Frame.find?, List.findSome?_cons, Scope.find?_declare_self]

/-- An empty scope hides nothing. -/
theorem Frame.find?_opened (frame : Frame) (name : String) :
    frame.opened.find? name = frame.find? name := by
  simp [Frame.opened, Frame.find?, Scope.find?, List.findSome?_cons]

/-- The counter of a loop is its index. -/
theorem Frame.find?_counting (frame : Frame) (counter : String) (index : Word) :
    (frame.counting counter index).find? counter = some index := by
  simp [Frame.counting, Frame.find?, Scope.find?]

/-- The counter of a loop hides no other variable. -/
theorem Frame.find?_counting_of_ne {counter other : String} (frame : Frame) (index : Word)
    (different : other ≠ counter) : (frame.counting counter index).find? other = frame.find? other := by
  simp [Frame.counting, Frame.find?, Scope.find?, Ne.symm different]

/-- A declaration ends with its scope. -/
theorem Frame.closed_declare (frame : Frame) (name : String) (value : Word) :
    (frame.declare name value).closed = frame.closed := by
  obtain ⟨routine, scopes⟩ := frame
  cases scopes <;> rfl

/-- A declaration keeps scopes open. -/
theorem Frame.scopes_declare_ne_nil {frame : Frame} (inside : frame.scopes ≠ []) (name : String)
    (value : Word) : (frame.declare name value).scopes ≠ [] := by
  obtain ⟨routine, scopes⟩ := frame
  cases scopes with
  | nil => exact absurd rfl inside
  | cons scope rest => simp [Frame.declare]

/-- A declaration stays in its routine. -/
theorem Frame.routine_declare (frame : Frame) (name : String) (value : Word) :
    (frame.declare name value).routine = frame.routine := by
  obtain ⟨routine, scopes⟩ := frame
  cases scopes <;> rfl

/-- The latest of two declarations of a name in one scope counts. -/
theorem Scope.declare_declare (scope : Scope) (name : String) (value later : Word) :
    (scope.declare name value).declare name later = scope.declare name later := by
  simp [Scope.declare, List.filter_filter]

/-- An assignment passes over a scope without the variable. -/
theorem Frame.assignIn_cons {name : String} {scope : Scope} (absent : scope.find? name = none)
    (value : Word) {scopes assigned : List Scope} (h : Frame.assignIn name value scopes = some assigned) :
    Frame.assignIn name value (scope :: scopes) = some (scope :: assigned) := by
  simp [Frame.assignIn, Scope.assign?, absent, h]

/-- An assignment to a variable of the innermost scope is like its declaration. -/
theorem Frame.assignIn_declare {frame : Frame} (inside : frame.scopes ≠ []) (name : String)
    (value later : Word) :
    Frame.assignIn name later (frame.declare name value).scopes =
      some (frame.declare name later).scopes := by
  obtain ⟨routine, scopes⟩ := frame
  cases scopes with
  | nil => exact absurd rfl inside
  | cons scope rest =>
    simp [Frame.declare, Frame.assignIn, Scope.assign?, Scope.find?_declare_self,
      Scope.declare_declare]

/-- Whether two sets of variables agree on some names. -/
def Frame.AgreesOn (names : List String) (frame other : Frame) : Prop :=
  ∀ name ∈ names, other.find? name = frame.find? name

section

variable {names : List String} {frame other third : Frame}

/-- Variables agree with themselves. -/
theorem Frame.AgreesOn.refl (names : List String) (frame : Frame) : frame.AgreesOn names frame :=
  fun _ _ => rfl

/-- Agreement passes on. -/
theorem Frame.AgreesOn.trans (h : frame.AgreesOn names other) (h' : other.AgreesOn names third) :
    frame.AgreesOn names third :=
  fun name member => (h' name member).trans (h name member)

/-- Agreement is about each name. -/
theorem Frame.AgreesOn.mono {fewer : List String} (h : frame.AgreesOn names other)
    (fewer_names : fewer ⊆ names) : frame.AgreesOn fewer other :=
  fun name member => h name (fewer_names member)

/-- A declaration of another variable changes nothing. -/
theorem Frame.AgreesOn.declare (h : frame.AgreesOn names other) (name : String) (value : Word)
    (apart : name ∉ names) : frame.AgreesOn names (other.declare name value) := by
  intro listed member
  have different : listed ≠ name := by
    rintro rfl
    exact apart member
  rw [find?_declare_of_ne other value different]
  exact h listed member

/-- A new scope changes nothing. -/
theorem Frame.AgreesOn.opened (h : frame.AgreesOn names other) : frame.AgreesOn names other.opened :=
  fun name member => (find?_opened other name).trans (h name member)

/-- A counter with another name changes nothing. -/
theorem Frame.AgreesOn.counting (h : frame.AgreesOn names other) {counter : String} (index : Word)
    (apart : counter ∉ names) : frame.AgreesOn names (other.counting counter index) := by
  intro listed member
  have different : listed ≠ counter := by
    rintro rfl
    exact apart member
  rw [find?_counting_of_ne other index different]
  exact h listed member

end

/-! ### Names that stay visible -/

/-- Whether one scope has all names of another one. -/
def Scope.Within (scope larger : Scope) : Prop :=
  ∀ name, (scope.find? name).isSome = true → (larger.find? name).isSome = true

/-- Whether all of several names are those of variables. -/
def Frame.Declares (frame : Frame) (names : List String) : Prop :=
  ∀ name ∈ names, (frame.find? name).isSome = true

/-- Whether later variables have all names in every scope that was open. -/
def Frame.Grows (frame later : Frame) : Prop :=
  List.Forall₂ Scope.Within frame.scopes later.scopes

/-- A declaration takes no name away. -/
theorem Scope.within_declare (scope : Scope) (name : String) (value : Word) :
    scope.Within (scope.declare name value) := by
  intro other found
  by_cases same : other = name
  · subst same
    rw [find?_declare_self]
    rfl
  · rwa [find?_declare_of_ne scope value same]

section

variable {frame later latest : Frame} {names others : List String}

/-- Variables grow to themselves. -/
theorem Frame.Grows.refl (frame : Frame) : frame.Grows frame :=
  List.forall₂_same.mpr fun _ _ _ found => found

/-- Growth adds up. -/
theorem Frame.Grows.trans (h : frame.Grows later) (h' : later.Grows latest) : frame.Grows latest := by
  unfold Frame.Grows at h h' ⊢
  generalize frame.scopes = scopes at h
  generalize later.scopes = middle at h h'
  generalize latest.scopes = last at h'
  induction h generalizing last with
  | nil => exact h'
  | cons within _ ih =>
    cases h' with
    | cons within' rest => exact .cons (fun name found => within' name (within name found)) (ih _ rest)

/-- Scopes stay open. -/
theorem Frame.Grows.inside (h : frame.Grows later) (inside : frame.scopes ≠ []) : later.scopes ≠ [] := by
  unfold Frame.Grows at h
  intro empty
  rw [empty, List.forall₂_nil_right_iff] at h
  exact inside h

/-- Names stay visible. -/
theorem Frame.Grows.declares (h : frame.Grows later) (visible : frame.Declares names) :
    later.Declares names := by
  intro name listed
  have found := visible name listed
  unfold Frame.find? Frame.Grows at *
  generalize frame.scopes = scopes at h found
  generalize later.scopes = larger at h ⊢
  induction h with
  | nil => exact found
  | @cons scope wider rest more within grown ih =>
    rw [List.findSome?_cons] at found ⊢
    cases here : wider.find? name with
    | some value => rfl
    | none =>
      cases before : scope.find? name with
      | some value => simpa [here] using within name (by simp [before])
      | none => exact ih (by simpa [before] using found)

/-- A declaration adds to the innermost scope. -/
theorem Frame.grows_declare (frame : Frame) (name : String) (value : Word) :
    frame.Grows (frame.declare name value) := by
  obtain ⟨routine, scopes⟩ := frame
  cases scopes with
  | nil => exact .refl _
  | cons scope rest =>
    exact .cons (scope.within_declare name value) (List.forall₂_same.mpr fun _ _ _ found => found)

/-- Declarations add to the innermost scope. -/
theorem Frame.grows_declareAll (frame : Frame) (entries : List (String × Word)) :
    frame.Grows (frame.declareAll entries) := by
  induction entries generalizing frame with
  | nil => exact .refl _
  | cons entry rest ih => exact (frame.grows_declare entry.1 entry.2).trans (ih _)

/-- Variables that are declared in a scope are visible. -/
theorem Frame.declares_declareAll (entries : List (String × Word)) (inside : frame.scopes ≠ []) :
    (frame.declareAll entries).Declares (entries.map Prod.fst) := by
  induction entries generalizing frame with
  | nil => simp [Frame.Declares]
  | cons entry rest ih =>
    intro name listed
    have inside' := (frame.grows_declare entry.1 entry.2).inside inside
    rcases List.mem_cons.mp listed with rfl | listed
    · have here : (frame.declare entry.1 entry.2).Declares [entry.1] := by
        intro name listed
        rw [List.mem_singleton.mp listed, Frame.find?_declare_self _ _ inside]
        rfl
      exact (Frame.grows_declareAll _ rest).declares here _ List.mem_cons_self
    · exact ih inside' name listed

/-- Names from two lists are visible if both are. -/
theorem Frame.Declares.append (h : frame.Declares names) (h' : frame.Declares others) :
    frame.Declares (names ++ others) := by
  intro name listed
  rcases List.mem_append.mp listed with listed | listed
  · exact h name listed
  · exact h' name listed

/-- A visible variable can be assigned to, and every scope keeps its names. -/
theorem Frame.exists_assignIn {name : String} (value : Word) {scopes : List Scope}
    (found : (scopes.findSome? fun scope => scope.find? name).isSome = true) :
    ∃ assigned, Frame.assignIn name value scopes = some assigned ∧
      List.Forall₂ Scope.Within scopes assigned := by
  induction scopes with
  | nil => cases found
  | cons scope rest ih =>
    unfold Frame.assignIn Scope.assign?
    cases here : scope.find? name with
    | some current =>
      exact ⟨_, rfl, .cons (scope.within_declare name value)
        (List.forall₂_same.mpr fun _ _ _ found => found)⟩
    | none =>
      rw [List.findSome?_cons, here] at found
      obtain ⟨assigned, done, within⟩ := ih found
      simp only [Option.isSome_none, Bool.false_eq_true, if_false, done, Option.map_some]
      exact ⟨_, rfl, .cons (fun _ found => found) within⟩

/-- What grows in a new scope grows without it. -/
theorem Frame.Grows.closed (h : frame.opened.Grows later) : frame.Grows later.closed := by
  unfold Frame.Grows Frame.opened at h
  cases scopes : later.scopes with
  | nil =>
    rw [scopes] at h
    cases h
  | cons scope rest =>
    rw [scopes] at h
    cases h with
    | cons within grown =>
      unfold Frame.Grows Frame.closed
      rw [scopes]
      exact grown

/-- What is visible is visible in a new scope. -/
theorem Frame.Declares.opened (h : frame.Declares names) : frame.opened.Declares names := by
  intro name listed
  rw [Frame.find?_opened]
  exact h name listed

end

end YulAbi.Yul
