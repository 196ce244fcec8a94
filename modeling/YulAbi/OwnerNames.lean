import YulAbi.Shape
import YulAbi.Text

/-!
# Names of shapes

Within one run of the generator every shape has one owner name, which its routines
and constants are named after. It is the fragment of the shape, or the fragment
with the first free number if another shape has taken it.
-/

namespace YulAbi

/-- The shapes that have a name, each with its name, the latest first. -/
structure OwnerNames where
  /-- Shapes and their names. -/
  entries : List (Shape × String)

namespace OwnerNames

/-- No shape has a name yet. -/
def empty : OwnerNames := ⟨[]⟩

/-- The name of a shape, if it has one. -/
def find? (names : OwnerNames) (shape : Shape) : Option String :=
  (names.entries.find? fun entry => entry.1 == shape).map Prod.snd

/-- All names in use. -/
def taken (names : OwnerNames) : List String := names.entries.map Prod.snd

/-- The name of a shape; one that has none yet takes the first free one. -/
def owner (names : OwnerNames) (shape : Shape) : String × OwnerNames :=
  match names.find? shape with
  | some name => (name, names)
  | none =>
    let name := FreshName.choose names.taken shape.fragment
    (name, ⟨(shape, name) :: names.entries⟩)

/-- A name that has been given out is the name from then on. -/
theorem find?_owner (names : OwnerNames) (shape : Shape) :
    (names.owner shape).2.find? shape = some (names.owner shape).1 := by
  unfold owner
  split
  · assumption
  · simp [find?]

/-- Shapes keep their names. -/
theorem find?_owner_of_some {names : OwnerNames} {shape other : Shape} {name : String}
    (found : names.find? other = some name) : (names.owner shape).2.find? other = some name := by
  unfold owner
  split
  · exact found
  · rename_i absent
    by_cases h : shape = other
    · subst h; simp [found] at absent
    · have : (shape == other) = false := by simp [h]
      simpa [find?, List.find?_cons, this] using found

end OwnerNames

end YulAbi
