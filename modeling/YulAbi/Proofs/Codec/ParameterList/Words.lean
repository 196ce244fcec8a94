import YulAbi.Codec.Decoder
import YulAbi.Proofs.Text
import YulAbi.Proofs.Yul.Execution

/-!
# The variables of parameter lists

Parameters are passed in variables that are numbered in order. Their names differ from each
other and from those of the other variables of a routine, so that each of them is found in
the scope that they are declared in.
-/

namespace YulAbi.Codec

open Yul (Expr Frame Scope Routine)

/-- A scope with words under the numbered names from an index on. -/
def wordScope (scope : Scope) (index : Nat) : List Word → Scope
  | [] => scope
  | word :: rest => wordScope (scope.declare s!"v{index}" word) (index + 1) rest

section

variable {scope : Scope} {index position : Nat} {words : List Word} {name : String}

/-- The variables of a routine are found from its body. -/
theorem find?_body (routine : String) (scope : Scope) (name : String) :
    (⟨routine, [[], scope]⟩ : Frame).find? name = scope.find? name := by
  cases found : scope.find? name <;> simp [Frame.find?, List.findSome?_cons, found] <;> rfl

/-- The variables of a routine can be assigned to in its body. -/
theorem assignIn_body (declared : (scope.find? name).isSome) (word : Word) :
    Frame.assignIn name word [[], scope] = some [[], scope.declare name word] :=
  Frame.assignIn_cons rfl word (by rw [Frame.assignIn, Scope.assign?, if_pos declared])

/-- There is one name for each word. -/
@[simp]
theorem length_wordNames (count : Nat) : (wordNames count).length = count := by simp [wordNames]

/-- The words have names. -/
theorem mem_wordNames {index count : Nat} (inside : index < count) : s!"v{index}" ∈ wordNames count :=
  List.mem_map.mpr ⟨index, List.mem_range.mpr inside, rfl⟩

/-- Different numbers make different names. -/
theorem wordName_injective : Function.Injective fun index : Nat => s!"v{index}" := by
  intro number other same
  refine FreshName.repr_injective (String.toList_inj.mp ?_)
  simpa [toString] using congrArg String.toList same

/-- A name that begins otherwise is none of a numbered word. -/
theorem ne_wordName (other : name.toList.head? ≠ some 'v') (index : Nat) : name ≠ s!"v{index}" := by
  rintro rfl
  simp [toString] at other

/-- Other variables are found as before. -/
theorem find?_wordScope_of_ne (others : ∀ number, index ≤ number → name ≠ s!"v{number}") :
    (wordScope scope index words).find? name = scope.find? name := by
  induction words generalizing scope index with
  | nil => rfl
  | cons word rest ih =>
    rw [wordScope, ih fun number later => others number (by omega),
      Scope.find?_declare_of_ne _ _ (others index (Nat.le_refl _))]

/-- Each word is found under its name. -/
theorem find?_wordScope (scope : Scope) (index : Nat) (inside : position < words.length) :
    (wordScope scope index words).find? s!"v{index + position}" = some words[position] := by
  induction words generalizing scope index position with
  | nil => exact absurd inside (Nat.not_lt_zero _)
  | cons word rest ih =>
    cases position with
    | zero =>
      have kept : (wordScope (scope.declare s!"v{index}" word) (index + 1) rest).find? s!"v{index}" =
          (scope.declare s!"v{index}" word).find? s!"v{index}" :=
        find?_wordScope_of_ne fun number later same => by
          have equal := wordName_injective same
          omega
      exact kept.trans (Scope.find?_declare_self _ _ _)
    | succ position =>
      have next := ih (scope.declare s!"v{index}" word) (index + 1) (show position < rest.length by simpa using inside)
      rwa [Nat.add_right_comm] at next

/-- A variable that is there stays, whatever its word. -/
theorem isSome_find?_wordScope (index : Nat) (words : List Word) (declared : (scope.find? name).isSome) :
    ((wordScope scope index words).find? name).isSome := by
  induction words generalizing scope index with
  | nil => exact declared
  | cons word rest ih =>
    refine ih _ ?_
    by_cases same : name = s!"v{index}"
    · rw [same, Scope.find?_declare_self]
      rfl
    · rwa [Scope.find?_declare_of_ne _ _ same]

/-- All words are found under their names in order. -/
theorem map_getD_wordScope {count : Nat} (counted : words.length = count) :
    (wordNames count).map (fun name => ((wordScope scope 0 words).find? name).getD 0#256) = words := by
  refine List.ext_getElem (by simp [counted]) fun position inside inside' => ?_
  have found := find?_wordScope scope 0 inside'
  rw [Nat.zero_add] at found
  simpa [wordNames] using congrArg (Option.getD · 0#256) found

/-- Words are declared under their names in order. -/
theorem declareAll_words (name : String) (scope : Scope) (index : Nat) (words : List Word) :
    (⟨name, [scope]⟩ : Frame).declareAll (((List.range' index words.length).map fun number => s!"v{number}").zip words) =
      ⟨name, [wordScope scope index words]⟩ := by
  induction words generalizing scope index with
  | nil => rfl
  | cons word rest ih => exact ih _ _

/-- The names of words are numbered from zero on. -/
theorem wordNames_eq_range' (count : Nat) :
    wordNames count = (List.range' 0 count).map fun number => s!"v{number}" := by
  rw [wordNames, List.range_eq_range']

/-- The variables of a routine that answers with words. -/
theorem entry_wordReturns (name : String) (body : Yul.Block) (source : Word) (count : Nat) :
    (Routine.ofBody name ["cdPtr"] (wordNames count) body).entry [source] =
      ⟨name, [wordScope [("cdPtr", source)] 0 (List.replicate count 0#256)]⟩ := by
  have zeros : ∀ names : List String, (names.map Yul.RoutineParameter.word).map
      (fun result => (result.name, 0#256)) = names.zip (List.replicate names.length 0#256) := by
    intro names
    induction names with
    | nil => rfl
    | cons first rest ih => exact congrArg _ ih
  have declared := declareAll_words name [("cdPtr", source)] 0 (List.replicate count 0#256)
  rw [List.length_replicate, ← wordNames_eq_range'] at declared
  rw [← declared]
  have named := zeros (wordNames count)
  rw [length_wordNames] at named
  exact congrArg (Frame.declareAll _) named

/-- The variables of a routine that takes words and an address and answers with a size. -/
theorem entry_wordParams (name : String) (body : Yul.Block) (words : List Word) (target : Word) :
    (Routine.ofBody name (wordNames words.length ++ ["dst"]) ["size"] body).entry (words ++ [target]) =
      ⟨name, [Scope.declare (Scope.declare (wordScope [] 0 words) "dst" target) "size" 0#256]⟩ := by
  have declared := declareAll_words name [] 0 words
  rw [← wordNames_eq_range'] at declared
  have names : ((wordNames words.length ++ ["dst"]).map Yul.RoutineParameter.word).map Yul.RoutineParameter.name =
      wordNames words.length ++ ["dst"] := by
    rw [List.map_map]
    exact List.map_id _
  have zipped : (wordNames words.length ++ ["dst"]).zip (words ++ [target]) =
      (wordNames words.length).zip words ++ [("dst", target)] :=
    List.zip_append (by simp)
  unfold Routine.entry Routine.ofBody
  rw [names, zipped, Frame.declareAll_append, declared]
  rfl

end

end YulAbi.Codec
