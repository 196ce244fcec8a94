import YulAbi.Proofs.Arena.Sound

/-!
# What a step changes

Nodes are only appended, but attaching a node writes its label and its owner. A step touches an
arena at some nodes if all others stay what they were, and those that it lists change only if
they have no owner yet. So a node that has an owner is never changed, and a step that lists only
nodes that it has appended leaves everything that was there before.
-/

namespace YulAbi

/-- Nodes that agree in all they hold are the same. -/
theorem Node.eq_of {node other : Node} (kind : node.kind = other.kind) (label : node.label = other.label)
    (parent : node.parent = other.parent) (shape : node.shape = other.shape) : node = other := by
  cases node
  cases other
  simp_all

namespace Arena

/-- Whether nodes and shapes have been appended, and of the nodes that were there only those without owner may have
changed: what is listed in `labelled` to the name there, what is listed in `adopted` to a new owner. -/
structure Touches (arena : Arena) (labelled : List (String × NodeId)) (adopted : List NodeId) (later : Arena) :
    Prop where
  /-- No node is lost. -/
  size : arena.size ≤ later.size
  /-- Kinds stay. -/
  kind : ∀ id < arena.size, later.kind id = arena.kind id
  /-- The numbers of shapes stay. -/
  shapeId : ∀ id < arena.size, later.shapeId id = arena.shapeId id
  /-- The shapes that they stand for stay. -/
  shapes : arena.shapes.toList <+: later.shapes.toList
  /-- A new label is one that is listed. -/
  label : ∀ id < arena.size, later.label id = arena.label id ∨
    arena.parent id = none ∧ ∃ name, name ≠ "" ∧ (name, id) ∈ labelled ∧ later.label id = some name
  /-- A new owner is a new node. -/
  parent : ∀ id < arena.size, later.parent id = arena.parent id ∨
    arena.parent id = none ∧ id ∈ adopted ∧ ∃ owner, arena.size ≤ owner ∧ later.parent id = some owner

/-- Whether nodes and shapes have been appended, and no node that was there has changed. -/
abbrev Appends (arena later : Arena) : Prop := arena.Touches [] [] later

section

variable {arena later after : Arena} {id owner : NodeId} {labelled labelled' : List (String × NodeId)}
  {adopted adopted' : List NodeId}

/-- Nothing is touched if nothing happens. -/
theorem Touches.refl (arena : Arena) : arena.Touches labelled adopted arena :=
  ⟨Nat.le_refl _, fun _ _ => rfl, fun _ _ => rfl, List.prefix_rfl, fun _ _ => .inl rfl, fun _ _ => .inl rfl⟩

/-- What may be touched may be listed among more. Nodes that were not there need not be listed, and neither need empty
names. -/
theorem Touches.mono (h : arena.Touches labelled adopted later)
    (names : ∀ entry ∈ labelled, entry.1 ≠ "" → entry.2 < arena.size → entry ∈ labelled')
    (owned : ∀ id ∈ adopted, id < arena.size → id ∈ adopted') : arena.Touches labelled' adopted' later := by
  refine ⟨h.size, h.kind, h.shapeId, h.shapes, fun id inside => ?_, fun id inside => ?_⟩
  · rcases h.label id inside with same | ⟨free, name, named, listed, own⟩
    · exact .inl same
    · exact .inr ⟨free, name, named, names _ listed named inside, own⟩
  · rcases h.parent id inside with same | ⟨free, listed, own⟩
    · exact .inl same
    · exact .inr ⟨free, owned id listed inside, own⟩

/-- A node without owner had none before. -/
theorem Touches.free (h : arena.Touches labelled adopted later) (inside : id < arena.size)
    (free : later.parent id = none) : arena.parent id = none := by
  rcases h.parent id inside with same | ⟨was, -⟩
  · exact same.symm.trans free
  · exact was

/-- Steps touch what each of them does. -/
theorem Touches.trans (h : arena.Touches labelled adopted later) (h' : later.Touches labelled' adopted' after) :
    arena.Touches (labelled ++ labelled') (adopted ++ adopted') after := by
  have first := h.mono (fun _ listed _ _ => List.mem_append_left labelled' listed)
    fun _ listed _ => List.mem_append_left adopted' listed
  have second := h'.mono (fun _ listed _ _ => List.mem_append_right labelled listed)
    fun _ listed _ => List.mem_append_right adopted listed
  refine ⟨Nat.le_trans h.size h'.size, fun id inside => ?_, fun id inside => ?_, h.shapes.trans h'.shapes,
    fun id inside => ?_, fun id inside => ?_⟩
  all_goals have inside' := Nat.lt_of_lt_of_le inside h.size
  · exact (h'.kind id inside').trans (h.kind id inside)
  · exact (h'.shapeId id inside').trans (h.shapeId id inside)
  · rcases second.label id inside' with same | ⟨free, named⟩
    · rw [same]
      exact first.label id inside
    · exact .inr ⟨h.free inside free, named⟩
  · rcases second.parent id inside' with same | ⟨free, listed, owner, new, own⟩
    · rw [same]
      exact first.parent id inside
    · exact .inr ⟨h.free inside free, listed, owner, Nat.le_trans h.size new, own⟩

/-- What is appended first is not touched. -/
theorem Appends.touches (h : arena.Appends later) (h' : later.Touches labelled adopted after) :
    arena.Touches labelled adopted after := Touches.trans h h'

/-- What is appended last is not touched. -/
theorem Touches.appends (h : arena.Touches labelled adopted later) (h' : later.Appends after) :
    arena.Touches labelled adopted after := by
  simpa only [List.append_nil] using h.trans h'

/-- A node that is not listed stays what it was. -/
theorem Touches.node (h : arena.Touches labelled adopted later) (inside : id < arena.size)
    (unnamed : id ∉ labelled.map Prod.snd) (unowned : id ∉ adopted) : later.node id = arena.node id := by
  refine Node.eq_of (h.kind id inside) ?_ ?_ (h.shapeId id inside)
  · rcases h.label id inside with same | ⟨-, name, -, listed, -⟩
    · exact same
    · exact absurd (List.mem_map_of_mem listed) unnamed
  · rcases h.parent id inside with same | ⟨-, listed, -⟩
    · exact same
    · exact absurd listed unowned

/-- What is appended leaves every node what it was. -/
theorem Appends.node (h : arena.Appends later) (inside : id < arena.size) : later.node id = arena.node id :=
  Touches.node h inside List.not_mem_nil List.not_mem_nil

/-- A node that has an owner stays what it was. -/
theorem Touches.owned (h : arena.Touches labelled adopted later) (inside : id < arena.size)
    (own : arena.parent id = some owner) : later.node id = arena.node id := by
  refine Node.eq_of (h.kind id inside) ?_ ?_ (h.shapeId id inside)
  · rcases h.label id inside with same | ⟨free, -⟩
    · exact same
    · cases own.symm.trans free
  · rcases h.parent id inside with same | ⟨free, -⟩
    · exact same
    · cases own.symm.trans free

/-- A step that lists only nodes that have been appended touches nothing more. -/
theorem Touches.fresh (h : arena.Touches labelled adopted later) (h' : later.Touches labelled' adopted' after)
    (names : ∀ entry ∈ labelled', arena.size ≤ entry.2) (owned : ∀ id ∈ adopted', arena.size ≤ id) :
    arena.Touches labelled adopted after := by
  refine (h.trans h').mono (fun entry listed _ inside => ?_) fun id listed inside => ?_
  · rcases List.mem_append.mp listed with earlier | new
    · exact earlier
    · exact absurd (names entry new) (Nat.not_le.mpr inside)
  · rcases List.mem_append.mp listed with earlier | new
    · exact earlier
    · exact absurd (owned id new) (Nat.not_le.mpr inside)

/-- Shapes that have numbers keep them. -/
theorem Touches.shape (h : arena.Touches labelled adopted later) (sound : arena.Sound) (inside : id < arena.size) :
    later.shape id = arena.shape id := by
  have numbered := sound.numbered id inside
  obtain ⟨more, same⟩ := h.shapes
  have entry : later.shapes[arena.shapeId id]? = arena.shapes[arena.shapeId id]? := by
    rw [← Array.getElem?_toList, ← same, List.getElem?_append_left numbered, Array.getElem?_toList]
  unfold Arena.shape shapeOfId
  rw [h.shapeId id inside, entry]

/-- An arena that is touched grows. -/
theorem Touches.grows (h : arena.Touches labelled adopted later) (sound : arena.Sound) : arena.Grows later :=
  ⟨h.size, h.kind, fun _ inside => h.shape sound inside⟩

/-- A node that is changed is what the change makes of it, and the others stay. -/
theorem node_modify (arena : Arena) (change : Node → Node) (inside : id < arena.size) (other : NodeId) :
    (⟨arena.nodes.modify id change, arena.shapes⟩ : Arena).node other =
      if other = id then change (arena.node other) else arena.node other := by
  simp only [node, Array.getElem?_modify]
  by_cases same : other = id
  · subst same
    rw [if_pos rfl, if_pos rfl, Array.getElem?_eq_getElem inside]
    rfl
  · rw [if_neg same, if_neg (Ne.symm same)]

/-- A node that is labelled has the label, and the others stay. -/
theorem node_withLabel (inside : id < arena.size) (label : Option String) (other : NodeId) :
    (arena.withLabel id label).node other = if other = id then
      ⟨arena.kind other, label, arena.parent other, arena.shapeId other⟩ else arena.node other :=
  arena.node_modify _ inside other

/-- Adopted nodes get the owner, and the others stay. -/
theorem node_adopt (owner : NodeId) {children : List NodeId} (inside : ∀ child ∈ children, child < arena.size)
    (other : NodeId) : (arena.adopt owner children).node other = if other ∈ children then
      ⟨arena.kind other, arena.label other, some owner, arena.shapeId other⟩ else arena.node other := by
  induction children generalizing arena with
  | nil => rfl
  | cons child rest ih =>
    obtain ⟨own, others⟩ := List.forall_mem_cons.mp inside
    have changed := arena.node_modify (fun node => ⟨node.kind, node.label, some owner, node.shape⟩) own
    have size : (arena.withParent owner child).size = arena.size := Array.size_modify
    have later := @ih (arena.withParent owner child) fun other listed => size ▸ others other listed
    rw [adopt, List.foldl_cons]
    refine later.trans ?_
    simp only [kind, label, shapeId, withParent, changed, List.mem_cons]
    by_cases same : other = child <;> by_cases listed : other ∈ rest <;> simp [same, listed]

/-- Owners take neither nodes nor shapes. -/
theorem adopt_sizes (arena : Arena) (owner : NodeId) (children : List NodeId) :
    (arena.adopt owner children).size = arena.size ∧ (arena.adopt owner children).shapes = arena.shapes := by
  induction children generalizing arena with
  | nil => exact ⟨rfl, rfl⟩
  | cons child rest ih =>
    obtain ⟨size, shapes⟩ := ih (arena.withParent owner child)
    exact ⟨size.trans Array.size_modify, shapes⟩

/-- Appending a node touches none. -/
theorem appends_push (arena : Arena) (kind : Kind) : arena.Appends (arena.push kind).1 := by
  have nodes := (arena.intern_spec (arena.shapeOfKind kind)).1
  have old : ∀ id < arena.size, (arena.push kind).1.node id = arena.node id := by
    intro id inside
    simp only [push, Arena.node, nodes, Array.getElem?_push,
      if_neg (Nat.ne_of_lt (show id < arena.nodes.size from inside))]
  have shapes : arena.shapes.toList <+: (arena.push kind).1.shapes.toList := by
    simp only [push, intern]
    split
    · exact List.prefix_rfl
    · rw [Array.toList_push]
      exact List.prefix_append _ _
  exact ⟨by rw [(arena.node_push kind).2.1]; exact Nat.le_succ _, fun id inside => congrArg Node.kind (old id inside),
    fun id inside => congrArg Node.shape (old id inside), shapes,
    fun id inside => .inl (congrArg Node.label (old id inside)),
    fun id inside => .inl (congrArg Node.parent (old id inside))⟩

/-- A name touches a node without owner. -/
theorem touches_withLabel {name : String} (inside : id < arena.size) (free : arena.parent id = none)
    (named : name ≠ "") : arena.Touches [(name, id)] [] (arena.withLabel id (some name)) := by
  have changed := arena.node_withLabel inside (some name)
  refine ⟨Nat.le_of_eq Array.size_modify.symm, fun other _ => ?_, fun other _ => ?_, List.prefix_rfl,
    fun other _ => ?_, fun other _ => .inl ?_⟩
  · rw [Arena.kind, changed]
    split <;> rfl
  · rw [Arena.shapeId, changed]
    split <;> rfl
  · rw [Arena.label, changed]
    split
    · rename_i same
      exact .inr ⟨same ▸ free, name, named, List.mem_singleton.mpr (same ▸ rfl), rfl⟩
    · exact .inl rfl
  · rw [Arena.parent, changed]
    split <;> rfl

/-- A label for a node that has been appended touches none. -/
theorem Touches.labelled_of_fresh (h : arena.Touches labelled adopted later) (fresh : arena.size ≤ id)
    (label : Option String) : arena.Touches labelled adopted (later.withLabel id label) := by
  have old : ∀ other < arena.size, (later.withLabel id label).node other = later.node other := by
    intro other inside
    have different : id ≠ other := fun same => Nat.not_le.mpr inside (same ▸ fresh)
    simp only [Arena.node, withLabel, Array.getElem?_modify, if_neg different]
  refine ⟨Nat.le_trans h.size (Nat.le_of_eq Array.size_modify.symm), fun other inside => ?_, fun other inside => ?_,
    h.shapes, fun other inside => ?_, fun other inside => ?_⟩
  · rw [Arena.kind, old other inside]
    exact h.kind other inside
  · rw [Arena.shapeId, old other inside]
    exact h.shapeId other inside
  · rw [Arena.label, old other inside]
    exact h.label other inside
  · rw [Arena.parent, old other inside]
    exact h.parent other inside

/-- What a new node owns has it as the owner, the node itself is as it was appended, and the others stay. -/
theorem node_pushOwner {kind : Kind} (inside : ∀ child ∈ kind.children, child < arena.size) (other : NodeId) :
    (arena.pushOwner kind).1.node other = if other ∈ kind.children then
      ⟨arena.kind other, arena.label other, some arena.size, arena.shapeId other⟩
    else (arena.push kind).1.node other := by
  have appended := arena.appends_push kind
  refine (node_adopt arena.size (fun child listed => Nat.lt_of_lt_of_le (inside child listed) appended.size)
    other).trans ?_
  split
  · rename_i listed
    rw [appended.kind other (inside other listed), appended.shapeId other (inside other listed), Arena.label,
      appended.node (inside other listed)]
    rfl
  · rfl

/-- A new node that owns others has neither label nor owner. -/
theorem node_pushOwner_self {kind : Kind} (inside : ∀ child ∈ kind.children, child < arena.size) :
    (arena.pushOwner kind).1.node arena.size = ⟨kind, none, none, (arena.intern (arena.shapeOfKind kind)).2⟩ := by
  have nodes := (arena.intern_spec (arena.shapeOfKind kind)).1
  rw [node_pushOwner inside, if_neg fun listed => Nat.lt_irrefl _ (inside _ listed)]
  simp [push, Arena.node, nodes, Arena.size]

/-- A new node touches what it owns. -/
theorem touches_pushOwner {kind : Kind}
    (free : ∀ child ∈ kind.children, child < arena.size ∧ arena.parent child = none) :
    arena.Touches [] kind.children (arena.pushOwner kind).1 := by
  have changed := node_pushOwner fun child listed => (free child listed).1
  have appended := arena.appends_push kind
  obtain ⟨size, shapes⟩ := (arena.push kind).1.adopt_sizes (arena.push kind).2 kind.children
  refine ⟨Nat.le_trans appended.size (Nat.le_of_eq size.symm), fun other inside => ?_, fun other inside => ?_,
    appended.shapes.trans (shapes ▸ List.prefix_rfl), fun other inside => .inl ?_, fun other inside => ?_⟩
  · rw [Arena.kind, changed, appended.node inside]
    split <;> rfl
  · rw [Arena.shapeId, changed, appended.node inside]
    split <;> rfl
  · rw [Arena.label, changed, appended.node inside]
    split <;> rfl
  · rw [Arena.parent, changed, appended.node inside]
    split
    · rename_i listed
      exact .inr ⟨(free other listed).2, listed, arena.size, Nat.le_refl _, rfl⟩
    · exact .inl rfl

end

end Arena

end YulAbi
