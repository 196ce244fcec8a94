import YulAbi.Offsets
import YulAbi.Proofs.Emission.Orderly

/-!
# Emissions that give out the same names

The names of routines come from the shapes that are requested, in the order of the requests.
An emission that only asks for constants names nothing new, if the shapes that it names them
after have their names already. So two emissions may differ in their constants, one may do more
of this kind than the other, and still both give out the same names if both succeed.

The relation is followed through both emissions at once: steps that name nothing are taken on
either side, and requests are taken together.
-/

namespace YulAbi

/-- Whether two workspaces have given out the same names for the same things. -/
structure Workspace.NamedAlike (first second : Workspace) : Prop where
  /-- Shapes have the same names. -/
  owners : first.owners = second.owners
  /-- Requests have the same names. -/
  requests : first.requests = second.requests

/-- Whether some shapes have names. -/
def Workspace.HasNamed (shapes : List Shape) (workspace : Workspace) : Prop :=
  ∀ shape ∈ shapes, ∃ name, workspace.owners.find? shape = some name

section

variable {first second third : Workspace}

/-- Names are the same both ways. -/
theorem Workspace.NamedAlike.symm (h : first.NamedAlike second) : second.NamedAlike first :=
  ⟨h.owners.symm, h.requests.symm⟩

/-- Names are the same in a row. -/
theorem Workspace.NamedAlike.trans (h : first.NamedAlike second) (h' : second.NamedAlike third) :
    first.NamedAlike third :=
  ⟨h.owners.trans h'.owners, h.requests.trans h'.requests⟩

/-- The same shapes have names. -/
theorem Workspace.NamedAlike.hasNamed (h : first.NamedAlike second) {shapes : List Shape}
    (named : first.HasNamed shapes) : second.HasNamed shapes := by
  rwa [Workspace.HasNamed, ← h.owners]

end

/-- A shape that is asked for has its name then, and others keep theirs. -/
theorem Workspace.HasNamed.owner {shapes : List Shape} {before : Workspace} (named : before.HasNamed shapes)
    (shape : Shape) (requests) :
    Workspace.HasNamed (shape :: shapes) ⟨before.unit, (before.owners.owner shape).2, requests⟩ :=
  List.forall_mem_cons.mpr ⟨⟨_, OwnerNames.find?_owner before.owners shape⟩, fun other listed =>
    (named other listed).imp fun _ found => OwnerNames.find?_owner_of_some found⟩

namespace Emission

section

variable {α β γ δ : Type} {shapes : List Shape}

/-- Whether an emission names nothing more where some shapes have names. -/
def NamesNothing (shapes : List Shape) (emission : Emission α) : Prop :=
  ∀ before : Workspace, before.HasNamed shapes → before.NamedAlike (emission.runOn before).2

/-- Whether two emissions that succeed give out the same names, where some shapes have names, and how their answers
are related then. -/
def NamesAlike (shapes : List Shape) (related : α → β → Prop) (first : Emission α) (second : Emission β) : Prop :=
  ∀ before before' after after' value value', before.NamedAlike before' → before.HasNamed shapes →
    first.runOn before = (.ok value, after) → second.runOn before' = (.ok value', after') →
    related value value' ∧ after.NamedAlike after' ∧ after.HasNamed shapes

/-- An answer names nothing. -/
theorem NamesNothing.pure (value : α) : NamesNothing shapes (pure value) := fun _ _ => ⟨rfl, rfl⟩

/-- An error names nothing. -/
theorem NamesNothing.throw (cause : GenerationError) : NamesNothing shapes (throw cause : Emission α) :=
  fun _ _ => ⟨rfl, rfl⟩

/-- Emissions in a row. -/
theorem NamesNothing.bind {first : Emission α} {next : α → Emission β} (h : NamesNothing shapes first)
    (h' : ∀ value, NamesNothing shapes (next value)) : NamesNothing shapes (first >>= next) := by
  intro before named
  rw [runOn_bind]
  rcases ended : first.runOn before with ⟨result, reached⟩
  have kept : before.NamedAlike reached := by simpa only [ended] using h before named
  cases result with
  | error cause => exact kept
  | ok value => exact kept.trans (h' value reached (kept.hasNamed named))

/-- What is measured names nothing. -/
theorem NamesNothing.lift (answer : Generated α) : NamesNothing shapes (liftM answer : Emission α) := by
  intro before named
  cases answer <;> exact ⟨rfl, rfl⟩

/-- A constant names nothing. -/
theorem NamesNothing.addConstant (name : String) (value : Word) : NamesNothing shapes (addConstant name value) := by
  intro before named
  rw [runOn_addConstant]
  cases before.unit.addConstant name value <;> exact ⟨rfl, rfl⟩

/-- A shape that has a name keeps it. -/
theorem NamesNothing.owner {shape : Shape} (listed : shape ∈ shapes) : NamesNothing shapes (owner shape) := by
  intro before named
  obtain ⟨name, found⟩ := named shape listed
  have same : (before.owners.owner shape).2 = before.owners := by rw [OwnerNames.owner, found]
  exact ⟨same.symm, rfl⟩

/-- Answers that are related. -/
theorem NamesAlike.pure {related : α → β → Prop} {value : α} {value' : β} (h : related value value') :
    NamesAlike shapes related (pure value) (pure value') := by
  intro before before' after after' _ _ alike named ended ended'
  cases ended
  cases ended'
  exact ⟨h, alike, named⟩

/-- An error is no success. -/
theorem NamesAlike.throw {related : α → β → Prop} (cause : GenerationError) (second : Emission β) :
    NamesAlike shapes related (throw cause) second :=
  fun _ _ _ _ _ _ _ _ ended _ => nomatch ended

/-- Emissions in a row; what follows may rely on how the first answers are related. -/
theorem NamesAlike.bind {related : α → β → Prop} {related' : γ → δ → Prop} {first : Emission α} {second : Emission β}
    {next : α → Emission γ} {next' : β → Emission δ} (h : NamesAlike shapes related first second)
    (h' : ∀ value value', related value value' → NamesAlike shapes related' (next value) (next' value')) :
    NamesAlike shapes related' (first >>= next) (second >>= next') := by
  intro before before' after after' result result' alike named ended ended'
  obtain ⟨value, reached, begun, finished⟩ := runOn_bind_ok.mp ended
  obtain ⟨value', reached', begun', finished'⟩ := runOn_bind_ok.mp ended'
  obtain ⟨same, middle, still⟩ := h _ _ _ _ _ _ alike named begun begun'
  exact h' value value' same _ _ _ _ _ _ middle still finished finished'

/-- An emission that names nothing may come first on one side. -/
theorem NamesNothing.left {related : β → γ → Prop} {first : Emission α} {next : α → Emission β} {second : Emission γ}
    (h : NamesNothing shapes first) (h' : ∀ value, NamesAlike shapes related (next value) second) :
    NamesAlike shapes related (first >>= next) second := by
  intro before before' after after' result result' alike named ended ended'
  obtain ⟨value, reached, begun, finished⟩ := runOn_bind_ok.mp ended
  have kept : before.NamedAlike reached := by simpa only [begun] using h before named
  exact h' value _ _ _ _ _ _ (kept.symm.trans alike) (kept.hasNamed named) finished ended'

/-- An emission that names nothing may come first on the other side. -/
theorem NamesNothing.right {related : β → γ → Prop} {first : Emission β} {second : Emission α} {next : α → Emission γ}
    (h : NamesNothing shapes second) (h' : ∀ value, NamesAlike shapes related first (next value)) :
    NamesAlike shapes related first (second >>= next) := by
  intro before before' after after' result result' alike named ended ended'
  obtain ⟨value, reached, begun, finished⟩ := runOn_bind_ok.mp ended'
  have kept : before'.NamedAlike reached := by simpa only [begun] using h before' (alike.hasNamed named)
  exact h' value _ _ _ _ _ _ (alike.trans kept) named ended finished

/-- Emissions that name nothing may come first on both sides. -/
theorem NamesNothing.both {related : γ → δ → Prop} {first : Emission α} {second : Emission β}
    {next : α → Emission γ} {next' : β → Emission δ} (h : NamesNothing shapes first) (h' : NamesNothing shapes second)
    (h'' : ∀ value value', NamesAlike shapes related (next value) (next' value')) :
    NamesAlike shapes related (first >>= next) (second >>= next') :=
  h.left fun value => h'.right fun value' => h'' value value'

/-- Routines of one name. -/
theorem NamesAlike.addRoutine {routine routine' : Yul.Routine} (same : routine.name = routine'.name) :
    NamesAlike shapes Eq (addRoutine routine) (addRoutine routine') := by
  intro before before' after after' name name' alike named ended ended'
  rw [runOn_addRoutine] at ended ended'
  cases added : before.unit.addRoutine routine with
  | error cause =>
    rw [added] at ended
    cases ended
  | ok unit =>
    cases added' : before'.unit.addRoutine routine' with
    | error cause =>
      rw [added'] at ended'
      cases ended'
    | ok unit' =>
      rw [added] at ended
      rw [added'] at ended'
      cases ended
      cases ended'
      exact ⟨same, ⟨alike.owners, alike.requests⟩, named⟩

/-- A request has the same name if the routines that are generated for it name alike where its shape has a name. -/
theorem NamesAlike.routineFor {operation : Operation} {shape : Shape}
    {generate generate' : String → Emission Yul.Routine}
    (generates : ∀ name, NamesAlike (shape :: shapes) (fun routine routine' => routine.name = routine'.name)
      (generate name) (generate' name)) :
    NamesAlike shapes Eq (routineFor operation shape generate) (routineFor operation shape generate') := by
  intro before before' after after' name name' alike named ended ended'
  rw [runOn_routineFor] at ended ended'
  rw [← alike.requests] at ended'
  cases remembered : before.requests.find? fun entry => entry.1 == (operation, shape) with
  | some entry =>
    rw [remembered] at ended ended'
    cases ended
    cases ended'
    exact ⟨rfl, alike, named⟩
  | none =>
    rw [remembered] at ended ended'
    simp only [Workspace.issued, ← alike.requests, ← alike.owners] at ended ended'
    have generated := (generates (FreshName.choose (before.requests.map Prod.snd)
      (operation.stem ++ (before.owners.owner shape).1))).bind fun _ _ same => NamesAlike.addRoutine same
    obtain ⟨same, middle, still⟩ := generated ⟨before.unit, _, _⟩ ⟨before'.unit, _, _⟩ _ _ _ _ ⟨rfl, rfl⟩
      (named.owner shape _) ended ended'
    exact ⟨same, middle, fun other listed => still other (List.mem_cons_of_mem _ listed)⟩

end

end Emission

namespace Offsets

section

variable {shapes : List Shape}

/-- A word, named or not. -/
theorem named_namesNothing (useNames : Bool) (name : String) (value : Word) :
    (named useNames name value).NamesNothing shapes := by
  unfold named
  split
  · exact .addConstant name value
  · exact .pure _

/-- A number of bytes. -/
theorem words_namesNothing (useNames : Bool) (bytes : Nat) : (words useNames bytes).NamesNothing shapes := by
  unfold words
  split
  all_goals first
    | exact named_namesNothing _ _ _
    | exact .pure _

/-- The offset of a part of something that has a name. -/
theorem member_namesNothing (useNames : Bool) {type : SolType} (listed : type.shape ∈ shapes) (index : Nat)
    (regime : Regime) : (member useNames type index regime).NamesNothing shapes := by
  refine (Emission.NamesNothing.lift _).bind fun offset => ?_
  split
  · exact .pure _
  · exact (Emission.NamesNothing.owner listed).bind fun _ => named_namesNothing _ _ _

/-- The size of something that has a name. -/
theorem ownedSize_namesNothing (useNames : Bool) {shape : Shape} (listed : shape ∈ shapes) (suffix : String)
    (size : Nat) : (ownedSize useNames shape suffix size).NamesNothing shapes := by
  unfold ownedSize
  split
  · exact words_namesNothing _ _
  · exact (Emission.NamesNothing.owner listed).bind fun _ => named_namesNothing _ _ _

/-- The size of heads in memory. -/
theorem memoryHead_namesNothing (useNames : Bool) {shape : Shape} (listed : shape ∈ shapes) :
    (memoryHead useNames shape).NamesNothing shapes :=
  (Emission.NamesNothing.lift _).bind fun _ => ownedSize_namesNothing useNames listed _ _

/-- The size of encoded heads. -/
theorem callHead_namesNothing (useNames : Bool) {shape : Shape} (listed : shape ∈ shapes) :
    (callHead useNames shape).NamesNothing shapes :=
  (Emission.NamesNothing.lift _).bind fun _ => ownedSize_namesNothing useNames listed _ _

end

end Offsets

end YulAbi
