import YulAbi.Proofs.Arena.Numbers
import YulAbi.Proofs.Shape.Identifier

/-!
# Shapes are what types are without labels

A type without its labels, and without the names and mutabilities of its functions, is the tree
that its shape describes. So nodes have the same number exactly if their types are the same up
to these, and exactly if their identifiers are the same texts, as long as no name holds a mark
that stands behind names in identifiers.
-/

namespace YulAbi

namespace SolType

mutual
/-- A type without labels and without the names and mutabilities of functions. -/
def bare : SolType → SolType
  | .userDefined name underlying => .userDefined name underlying.bare
  | .array base length => .array base.bare length
  | .struct name members => .struct name (bareParts members)
  | .tuple members => .tuple (bareParts members)
  | .function _ parameters returns _ => .function "" (bareParts parameters) (bareParts returns) .nonpayable
  | .error name parameters => .error name (bareParts parameters)
  | .event name parameters data indexed anonymous =>
    .event name (bareParts parameters) (bareParts data) indexed anonymous
  | type => type
/-- Parts without labels. -/
def bareParts : List (Labelled SolType) → List (Labelled SolType)
  | [] => []
  | part :: rest => ⟨none, part.type.bare⟩ :: bareParts rest
end

/-- Parts lose their labels one by one. -/
theorem bareParts_eq_map (parts : List (Labelled SolType)) :
    bareParts parts = parts.map fun part => ⟨none, part.type.bare⟩ := by
  induction parts with
  | nil => rfl
  | cons part rest ih => rw [bareParts, ih, List.map_cons]

/-- The members of a type without labels. -/
theorem members_bare (type : SolType) : type.bare.members = bareParts type.members := by
  cases type <;> rfl

mutual
/-- A type without labels has the same shape. -/
theorem shape_bare (type : SolType) : type.bare.shape = type.shape := by
  cases type with
  | userDefined name underlying => exact congrArg (Shape.userDefined name) (shape_bare underlying)
  | array base length => exact congrArg (Shape.array · length) (shape_bare base)
  | struct name members => exact congrArg (Shape.struct name) (shapes_bareParts members)
  | tuple members => exact congrArg Shape.tuple (shapes_bareParts members)
  | function _ parameters returns _ =>
    exact congrArg₂ Shape.function (shapes_bareParts parameters) (shapes_bareParts returns)
  | error name parameters => exact congrArg (Shape.error name) (shapes_bareParts parameters)
  | event name parameters _ indexed anonymous =>
    exact congrArg (Shape.event name · indexed anonymous) (shapes_bareParts parameters)
  | _ => rfl
/-- So do parts. -/
theorem shapes_bareParts (parts : List (Labelled SolType)) : shapes (bareParts parts) = shapes parts := by
  cases parts with
  | nil => rfl
  | cons part rest => exact congrArg₂ List.cons (shape_bare part.type) (shapes_bareParts rest)
end

end SolType

namespace Shape

mutual
/-- The type without labels that a shape describes. The data of an event are its parameters without the topics. -/
def bareType : Shape → SolType
  | .bool => .bool
  | .address => .address
  | .integer signed bits => .integer signed bits
  | .enumeration name memberCount => .enumeration name memberCount
  | .fixedBytes size => .fixedBytes size
  | .userDefined name underlying => .userDefined name underlying.bareType
  | .bytes => .bytes
  | .string => .string
  | .array base length => .array base.bareType length
  | .struct name members => .struct name (bareParts members)
  | .tuple members => .tuple (bareParts members)
  | .function parameters returns => .function "" (bareParts parameters) (bareParts returns) .nonpayable
  | .error name parameters => .error name (bareParts parameters)
  | .event name parameters indexed anonymous =>
    .event name (bareParts parameters) (topicFree (bareParts parameters) indexed) indexed anonymous
/-- The parts without labels that several shapes describe. -/
def bareParts : List Shape → List (Labelled SolType)
  | [] => []
  | shape :: rest => ⟨none, shape.bareType⟩ :: bareParts rest
end

/-- Parts without labels, one for each shape. -/
theorem bareParts_eq_map (shapes : List Shape) : bareParts shapes = shapes.map fun shape => ⟨none, shape.bareType⟩ := by
  induction shapes with
  | nil => rfl
  | cons shape rest ih => rw [bareParts, ih, List.map_cons]

mutual
/-- The type that a shape describes has that shape. -/
theorem shape_bareType (shape : Shape) : shape.bareType.shape = shape := by
  cases shape with
  | userDefined name underlying => exact congrArg (Shape.userDefined name) (shape_bareType underlying)
  | array base length => exact congrArg (Shape.array · length) (shape_bareType base)
  | struct name members => exact congrArg (Shape.struct name) (shapes_bareParts members)
  | tuple members => exact congrArg Shape.tuple (shapes_bareParts members)
  | function parameters returns =>
    exact congrArg₂ Shape.function (shapes_bareParts parameters) (shapes_bareParts returns)
  | error name parameters => exact congrArg (Shape.error name) (shapes_bareParts parameters)
  | event name parameters indexed anonymous =>
    exact congrArg (Shape.event name · indexed anonymous) (shapes_bareParts parameters)
  | _ => rfl
/-- So do the parts that several shapes describe. -/
theorem shapes_bareParts (shapes : List Shape) : SolType.shapes (bareParts shapes) = shapes := by
  cases shapes with
  | nil => rfl
  | cons shape rest => exact congrArg₂ List.cons (shape_bareType shape) (shapes_bareParts rest)
end

/-- Different shapes describe different types. -/
theorem bareType_injective : Function.Injective bareType := Function.LeftInverse.injective shape_bareType

end Shape

/-- What is left without the topics is changed entry by entry. -/
theorem topicFree_map {α β : Type} (change : α → β) (entries : List α) (topics : List Bool) :
    topicFree (entries.map change) topics = (topicFree entries topics).map change := by
  induction entries generalizing topics with
  | nil => cases topics <;> rfl
  | cons entry rest ih =>
    cases topics with
    | nil => rfl
    | cons topic more => cases topic <;> simp [topicFree, ih]

namespace Arena

variable {arena : Arena} {id other : NodeId}

/-- The type of a node is the one that its shape describes, up to labels and the names and mutabilities of functions.
The induction is on the node, whose parts come before it. -/
theorem Sound.bare_typeAt (sound : arena.Sound) (inside : id < arena.size) :
    (arena.typeAt id).bare = (arena.shape id).bareType := by
  induction id using Nat.strongRecOn with
  | _ id ih =>
    have parts : ∀ child ∈ (arena.kind id).children,
        (if child < id then arena.typeAt child else .bool).bare = (arena.shape child).bareType := by
      intro child listed
      have earlier := sound.below id inside child listed
      rw [if_pos earlier]
      exact ih child earlier (Nat.lt_trans earlier inside)
    have several : ∀ members : List NodeId, (∀ child ∈ members, child ∈ (arena.kind id).children) →
        SolType.bareParts (members.map fun child =>
          ⟨arena.label child, if child < id then arena.typeAt child else .bool⟩) =
        Shape.bareParts (members.map arena.shape) := by
      intro members listed
      rw [SolType.bareParts_eq_map, Shape.bareParts_eq_map, List.map_map, List.map_map]
      exact List.map_congr_left fun child member => congrArg (Labelled.mk none) (parts child (listed child member))
    -- signatures are made of tuples, whose members are those of the signature
    have within : ∀ child ∈ (arena.kind id).children, ∀ members, arena.shape child = .tuple members →
        SolType.bareParts (if child < id then arena.typeAt child else .bool).members = Shape.bareParts members := by
      intro child listed members own
      rw [← SolType.members_bare, parts child listed, own]
      rfl
    have fits := sound.signatures id inside
    rw [sound.shaped id inside, typeAt]
    cases own : arena.kind id with
    | struct name members => exact congrArg _ (several members (by rw [own]; exact fun _ listed => listed))
    | tuple members => exact congrArg _ (several members (by rw [own]; exact fun _ listed => listed))
    | userDefined name underlying | array base length =>
      rw [own] at parts
      simp_all [Kind.children, SolType.bare, shapeOfKind, Shape.bareType]
    | function name parameters returns mutability =>
      rw [own] at within fits
      exact congrArg₂ (SolType.function "" · · .nonpayable) (within parameters (by simp [Kind.children]) _ fits.1)
        (within returns (by simp [Kind.children]) _ fits.2)
    | error name parameters =>
      rw [own] at within fits
      exact congrArg (SolType.error name) (within parameters List.mem_cons_self _ fits)
    | event name parameters data indexed anonymous =>
      rw [own] at within fits
      have rest := within data (by simp [Kind.children]) _ fits.2
      rw [Shape.bareParts_eq_map, ← topicFree_map, ← Shape.bareParts_eq_map] at rest
      exact congrArg₂ (SolType.event name · · indexed anonymous)
        (within parameters List.mem_cons_self _ fits.1) rest
    | _ => rfl

/-- Nodes have the same shape exactly if their types are the same up to labels and the names and mutabilities of
functions. -/
theorem Sound.shape_eq_iff (sound : arena.Sound) (inside : id < arena.size) (inside' : other < arena.size) :
    arena.shape id = arena.shape other ↔ (arena.typeAt id).bare = (arena.typeAt other).bare := by
  rw [sound.bare_typeAt inside, sound.bare_typeAt inside', Shape.bareType_injective.eq_iff]

/-- Nodes have the same number exactly if their types are the same up to labels and the names and mutabilities of
functions. If no name holds a mark that stands behind names, this is so exactly if they have the same identifier. -/
theorem Made.shapeId_identifies (made : arena.Made) (inside : id < arena.size) (inside' : other < arena.size) :
    (arena.shapeId id = arena.shapeId other ↔ (arena.typeAt id).bare = (arena.typeAt other).bare) ∧
      (Shape.Unmarked ((arena.shape id).names ++ (arena.shape other).names) →
        (arena.shapeId id = arena.shapeId other ↔ arena.identifier id = arena.identifier other)) := by
  have sound := made.sound
  have numbers := made.numbered.shapeId_eq_iff sound inside inside'
  refine ⟨numbers.trans (sound.shape_eq_iff inside inside'), fun unmarked => numbers.trans ?_⟩
  obtain ⟨own, others⟩ := Shape.unmarked_append.mp unmarked
  exact ⟨fun same => congrArg Shape.identifier same,
    Shape.identifier_injOn ⟨sound.legal id inside, own⟩ ⟨sound.legal other inside', others⟩⟩

/-- A struct with an enumeration and an array of arrays, where labels and lengths may be chosen. -/
def entry (first second : String) (inner outer : Option Nat) : Addition :=
  .described (.struct "Vault.Entry" [⟨first, .enumeration "Vault.State" ["open", "closed"]⟩,
    ⟨second, .array (.array (.uint 8) inner) outer⟩])

/-- An arena with three such structs: one, the same with other labels, and one whose lengths change places. -/
def entryArena : Arena :=
  let first := (entry "state" "marks" (some 2) none).run.runOn .empty
  let second := (entry "phase" "notes" (some 2) none).run.runOn first.2
  ((entry "state" "marks" none (some 2)).run.runOn second.2).2

/-- Other labels give the same number and the same identifier, other lengths another type, number and identifier. -/
theorem entry_shapeId_identifies :
    entryArena.label 1 = none ∧ entryArena.label 3 = some "marks" ∧ entryArena.label 8 = some "notes" ∧
      entryArena.shapeId 4 = entryArena.shapeId 9 ∧ (entryArena.typeAt 4).bare = (entryArena.typeAt 9).bare ∧
      entryArena.identifier 4 = entryArena.identifier 9 ∧ entryArena.shapeId 4 ≠ entryArena.shapeId 14 ∧
      (entryArena.typeAt 4).bare ≠ (entryArena.typeAt 14).bare ∧
      entryArena.identifier 4 ≠ entryArena.identifier 14 := by
  have made : entryArena.Made := .extended _ (.extended _ (.extended _ .empty fun _ named => nomatch named)
    fun _ named => nomatch named) fun _ named => nomatch named
  have inside : (4 : NodeId) < entryArena.size ∧ (9 : NodeId) < entryArena.size ∧ (14 : NodeId) < entryArena.size := by
    decide +kernel
  have numbers : entryArena.shapeId 4 = entryArena.shapeId 9 ∧ entryArena.shapeId 4 ≠ entryArena.shapeId 14 := by
    decide +kernel
  have unmarked : Shape.Unmarked
      ((entryArena.shape 4).names ++ ((entryArena.shape 9).names ++ (entryArena.shape 14).names)) :=
    Shape.unmarked_of_plain (by decide +kernel)
  have labels : entryArena.label 1 = none ∧ entryArena.label 3 = some "marks" ∧ entryArena.label 8 = some "notes" := by
    decide +kernel
  obtain ⟨first, others⟩ := Shape.unmarked_append.mp unmarked
  obtain ⟨second, third⟩ := Shape.unmarked_append.mp others
  obtain ⟨types, texts⟩ := made.shapeId_identifies inside.1 inside.2.1
  obtain ⟨types', texts'⟩ := made.shapeId_identifies inside.1 inside.2.2
  exact ⟨labels.1, labels.2.1, labels.2.2, numbers.1, types.mp numbers.1,
    (texts (Shape.unmarked_append.mpr ⟨first, second⟩)).mp numbers.1, numbers.2, mt types'.mpr numbers.2,
    mt (texts' (Shape.unmarked_append.mpr ⟨first, third⟩)).mpr numbers.2⟩

end Arena

end YulAbi
