import Mathlib.Data.List.Basic
import YulAbi.Arena.Build

/-!
# Sound arenas

Nodes are appended and never changed but for their labels and owners, so what is true of the
kinds and shapes of nodes stays true while an arena grows. In a sound arena every node comes
behind those it is made of, its number stands for the shape that its kind has, all sizes are
in range, signatures are made of tuples, and the data of an event are its parameters without
the topics. Appending a node whose parts are there keeps an arena sound, and so does a deep
copy, which has the shape of what is copied.
-/

namespace YulAbi

/-- The entries that are not marked. -/
def topicFree {α : Type} : List α → List Bool → List α
  | entry :: rest, topic :: topics => if topic then topicFree rest topics else entry :: topicFree rest topics
  | _, _ => []

namespace Shape

mutual
/-- Whether all sizes are in range and no part of a value is a signature. -/
def isLegal : Shape → Bool
  | .integer _ bits => decide (0 < bits) && decide (bits ≤ wordBits) && bits % 8 == 0
  | .enumeration _ memberCount => decide (0 < memberCount) && decide (memberCount ≤ 256)
  | .fixedBytes size => decide (1 ≤ size) && decide (size ≤ wordBytes)
  | .userDefined _ underlying => underlying.isValueType && underlying.isLegal
  | .array base length => !base.isSignature && base.isLegal && length != some 0
  | .struct _ members => areLegal members
  | .tuple members => areLegal members
  | .function parameters returns => areLegal parameters && areLegal returns
  | .error _ parameters => areLegal parameters
  | .event _ parameters _ _ => areLegal parameters
  | _ => true
/-- Whether several shapes are legal parts. -/
def areLegal : List Shape → Bool
  | [] => true
  | shape :: rest => !shape.isSignature && shape.isLegal && areLegal rest
end

/-- Several shapes are legal parts if each of them is legal and no signature. -/
theorem areLegal_iff {shapes : List Shape} :
    areLegal shapes = true ↔ ∀ shape ∈ shapes, shape.isSignature = false ∧ shape.isLegal = true := by
  induction shapes with
  | nil => simp [areLegal]
  | cons shape rest ih => simp [areLegal, ih]

/-- A legal integer takes whole bytes of a word. -/
theorem isLegal_integer {signed : Bool} {bits : Nat} :
    (integer signed bits).isLegal = true ↔ 0 < bits ∧ bits ≤ wordBits ∧ bits % 8 = 0 := by
  simp [isLegal, and_assoc]

/-- A legal user-defined type is around a value type. -/
theorem isLegal_userDefined {name : String} {underlying : Shape} :
    (userDefined name underlying).isLegal = true ↔ underlying.isValueType = true ∧ underlying.isLegal = true := by
  simp [isLegal]

/-- A legal array has elements that are no signatures, and a length that is not zero. -/
theorem isLegal_array {base : Shape} {length : Option Nat} :
    (array base length).isLegal = true ↔ base.isSignature = false ∧ base.isLegal = true ∧ length ≠ some 0 := by
  simp [isLegal, and_assoc]

/-- The elements of a legal array are legal parts. -/
theorem areLegal_elements {base : Shape} {length : Option Nat} (legal : (array base length).isLegal = true)
    (count : Nat) : areLegal (List.replicate count base) = true := by
  obtain ⟨plain, element, -⟩ := isLegal_array.mp legal
  refine areLegal_iff.mpr fun member listed => ?_
  rw [List.eq_of_mem_replicate listed]
  exact ⟨plain, element⟩

end Shape

namespace Arena

/-- Whether a signature is made of tuples, and the data of an event are its parameters without the topics. -/
def SignatureFits (arena : Arena) : Kind → Prop
  | .function _ parameters returns _ =>
    arena.shape parameters = .tuple (arena.shape parameters).members ∧
      arena.shape returns = .tuple (arena.shape returns).members
  | .error _ parameters => arena.shape parameters = .tuple (arena.shape parameters).members
  | .event _ parameters data indexed _ =>
    arena.shape parameters = .tuple (arena.shape parameters).members ∧
      arena.shape data = .tuple (topicFree (arena.shape parameters).members indexed)
  | _ => True

/-- Whether the nodes of an arena are what they say. -/
structure Sound (arena : Arena) : Prop where
  /-- Nodes are made of earlier nodes. -/
  below : ∀ id < arena.size, ∀ child ∈ (arena.kind id).children, child < id
  /-- The shapes of nodes have numbers. -/
  numbered : ∀ id < arena.size, arena.shapeId id < arena.shapes.size
  /-- The shape of a node is that of its kind. -/
  shaped : ∀ id < arena.size, arena.shape id = arena.shapeOfKind (arena.kind id)
  /-- The shape of a node is legal. -/
  legal : ∀ id < arena.size, (arena.shape id).isLegal = true
  /-- Signatures are made of what they should be. -/
  signatures : ∀ id < arena.size, arena.SignatureFits (arena.kind id)

/-- Whether all nodes of an arena are in a later one, with the same kinds and shapes. -/
structure Grows (arena later : Arena) : Prop where
  /-- No node is lost. -/
  size : arena.size ≤ later.size
  /-- Kinds stay. -/
  kind : ∀ id < arena.size, later.kind id = arena.kind id
  /-- Shapes stay. -/
  shape : ∀ id < arena.size, later.shape id = arena.shape id

section

variable {arena later after : Arena} {id : NodeId}

/-- An arena grows into itself. -/
theorem Grows.refl (arena : Arena) : arena.Grows arena := ⟨Nat.le_refl _, fun _ _ => rfl, fun _ _ => rfl⟩

/-- Growth goes on. -/
theorem Grows.trans (h : arena.Grows later) (h' : later.Grows after) : arena.Grows after :=
  ⟨Nat.le_trans h.size h'.size,
    fun id inside => (h'.kind id (Nat.lt_of_lt_of_le inside h.size)).trans (h.kind id inside),
    fun id inside => (h'.shape id (Nat.lt_of_lt_of_le inside h.size)).trans (h.shape id inside)⟩

/-- The shapes of nodes that are there stay. -/
theorem Grows.map_shape (h : arena.Grows later) {ids : List NodeId} (inside : ∀ id ∈ ids, id < arena.size) :
    ids.map later.shape = ids.map arena.shape :=
  List.map_congr_left fun id listed => h.shape id (inside id listed)

/-- The shape of a kind depends on the shapes of its parts only. -/
theorem shapeOfKind_congr {kind : Kind} (same : ∀ child ∈ kind.children, later.shape child = arena.shape child) :
    later.shapeOfKind kind = arena.shapeOfKind kind := by
  cases kind with
  | struct name members => exact congrArg _ (List.map_congr_left same)
  | tuple members => exact congrArg _ (List.map_congr_left same)
  | _ => simp_all [Kind.children, shapeOfKind]

/-- So does whether a signature is made of what it should be. -/
theorem signatureFits_congr {kind : Kind} (same : ∀ child ∈ kind.children, later.shape child = arena.shape child) :
    later.SignatureFits kind ↔ arena.SignatureFits kind := by
  cases kind <;> simp_all [Kind.children, SignatureFits]

/-- The same kind may be made of as many other parts. -/
theorem children_withChildren {kind : Kind} {parts : List NodeId} (counted : parts.length = kind.children.length) :
    (kind.withChildren parts).children = parts := by
  cases kind with
  | struct name members => rfl
  | tuple members => rfl
  | userDefined name underlying | array base length | error name parameters =>
    obtain ⟨part, rfl⟩ := List.length_eq_one_iff.mp counted
    rfl
  | function name parameters returns mutability | event name parameters data indexed anonymous =>
    obtain ⟨part, other, rfl⟩ := List.length_eq_two.mp counted
    rfl
  | _ => exact (List.eq_nil_of_length_eq_zero counted).symm

/-- The same kind made of parts with the same shapes has the same shape. -/
theorem shapeOfKind_withChildren {kind : Kind} {parts : List NodeId}
    (same : parts.map later.shape = kind.children.map arena.shape) :
    later.shapeOfKind (kind.withChildren parts) = arena.shapeOfKind kind ∧
      (later.SignatureFits (kind.withChildren parts) ↔ arena.SignatureFits kind) := by
  have counted := congrArg List.length same
  rw [List.length_map, List.length_map] at counted
  cases kind with
  | struct name members => exact ⟨congrArg _ same, Iff.rfl⟩
  | tuple members => exact ⟨congrArg _ same, Iff.rfl⟩
  | userDefined name underlying | array base length | error name parameters =>
    obtain ⟨part, rfl⟩ := List.length_eq_one_iff.mp counted
    simp_all [Kind.children, Kind.withChildren, shapeOfKind, SignatureFits]
  | function name parameters returns mutability =>
    obtain ⟨part, other, rfl⟩ := List.length_eq_two.mp counted
    simp_all [Kind.children, Kind.withChildren, shapeOfKind, SignatureFits]
  | event name parameters data indexed anonymous =>
    obtain ⟨part, other, rfl⟩ := List.length_eq_two.mp counted
    simp_all [Kind.children, Kind.withChildren, shapeOfKind, SignatureFits]
  | _ =>
    rw [List.eq_nil_of_length_eq_zero counted]
    exact ⟨rfl, Iff.rfl⟩

/-- An arena whose nodes have the same kinds and shapes, and no others, is as sound. -/
theorem Sound.relabel (h : arena.Sound) (grown : arena.Grows later) (same : later.size = arena.size)
    (shapes : later.shapes = arena.shapes) (numbers : ∀ id, later.shapeId id = arena.shapeId id) : later.Sound := by
  have parts : ∀ id < arena.size, ∀ child ∈ (arena.kind id).children, later.shape child = arena.shape child :=
    fun id inside child listed => grown.shape child (Nat.lt_trans (h.below id inside child listed) inside)
  refine ⟨fun id inside => ?_, fun id inside => ?_, fun id inside => ?_, fun id inside => ?_, fun id inside => ?_⟩
  all_goals rw [same] at inside
  · rw [grown.kind id inside]
    exact h.below id inside
  · rw [numbers, shapes]
    exact h.numbered id inside
  · rw [grown.kind id inside, grown.shape id inside, shapeOfKind_congr (parts id inside)]
    exact h.shaped id inside
  · rw [grown.shape id inside]
    exact h.legal id inside
  · rw [grown.kind id inside, signatureFits_congr (parts id inside)]
    exact h.signatures id inside

/-- An arena without nodes is sound. -/
theorem sound_empty : Arena.empty.Sound := by
  refine ⟨?_, ?_, ?_, ?_, ?_⟩ <;> exact fun _ inside => absurd inside (Nat.not_lt_zero _)

/-- The number of a shape stands for it, and the numbers of other shapes stay. -/
theorem intern_spec (arena : Arena) (shape : Shape) :
    (arena.intern shape).1.nodes = arena.nodes ∧
      (∀ number < arena.shapes.size, (arena.intern shape).1.shapeOfId number = arena.shapeOfId number) ∧
      arena.shapes.size ≤ (arena.intern shape).1.shapes.size ∧
      (arena.intern shape).2 < (arena.intern shape).1.shapes.size ∧
      (arena.intern shape).1.shapeOfId (arena.intern shape).2 = shape := by
  unfold intern
  cases found : arena.shapes.findIdx? (· == shape) with
  | some number =>
    obtain ⟨inside, same, -⟩ := Array.findIdx?_eq_some_iff_getElem.mp found
    refine ⟨rfl, fun _ _ => rfl, Nat.le_refl _, inside, ?_⟩
    simpa [shapeOfId, inside] using same
  | none =>
    refine ⟨rfl, fun number inside => ?_, by simp, by simp, by simp [shapeOfId]⟩
    simp [shapeOfId, Array.getElem?_push, Nat.ne_of_lt inside]

/-- Whether an operation has added a node of a shape to an arena, if it was not there before. -/
structure Adds (arena : Arena) (result : Arena × NodeId) (shape : Shape) : Prop where
  /-- The arena is sound. -/
  sound : result.1.Sound
  /-- It has grown. -/
  grows : arena.Grows result.1
  /-- The node is there. -/
  inside : result.2 < result.1.size
  /-- It has the shape. -/
  shaped : result.1.shape result.2 = shape

/-- Appending a node changes no other one. -/
theorem grows_push (kind : Kind) (sound : arena.Sound) : arena.Grows (arena.push kind).1 := by
  obtain ⟨nodes, numbers, -, -, -⟩ := arena.intern_spec (arena.shapeOfKind kind)
  have old : ∀ id < arena.size, (arena.push kind).1.node id = arena.node id := by
    intro id inside
    simp only [push, node, nodes, Array.getElem?_push, if_neg (Nat.ne_of_lt (show id < arena.nodes.size from inside))]
  refine ⟨?_, fun id inside => congrArg Node.kind (old id inside), fun id inside => ?_⟩
  · simp only [push, size, nodes, Array.size_push]
    omega
  · have number : (arena.push kind).1.shapeId id = arena.shapeId id := congrArg Node.shape (old id inside)
    rw [shape, number]
    exact numbers _ (sound.numbered id inside)

/-- The node that is appended. -/
theorem node_push (arena : Arena) (kind : Kind) : (arena.push kind).2 = arena.size ∧
    (arena.push kind).1.size = arena.size + 1 ∧ (arena.push kind).1.kind arena.size = kind ∧
    (arena.push kind).1.shape arena.size = arena.shapeOfKind kind ∧
    (arena.push kind).1.shapeId arena.size < (arena.push kind).1.shapes.size := by
  obtain ⟨nodes, -, -, inside, stands⟩ := arena.intern_spec (arena.shapeOfKind kind)
  have new : (arena.push kind).1.node arena.size = ⟨kind, none, none, (arena.intern (arena.shapeOfKind kind)).2⟩ := by
    simp [push, node, nodes, size]
  refine ⟨rfl, by simp [push, size, nodes], congrArg Node.kind new, ?_, ?_⟩
  · rw [shape, shapeId, new]
    exact stands
  · rw [shapeId, new]
    exact inside

/-- The node that is appended has the number of its shape, and the others keep theirs. -/
theorem shapeId_push (arena : Arena) (kind : Kind) :
    (arena.push kind).1.shapeId arena.size = (arena.intern (arena.shapeOfKind kind)).2 ∧
      ∀ id < arena.size, (arena.push kind).1.shapeId id = arena.shapeId id := by
  have nodes := (arena.intern_spec (arena.shapeOfKind kind)).1
  refine ⟨by simp [push, shapeId, node, nodes, size], fun id inside => ?_⟩
  simp only [push, shapeId, node, nodes, Array.getElem?_push,
    if_neg (Nat.ne_of_lt (show id < arena.nodes.size from inside))]

/-- Appending a node made of nodes that are there keeps an arena sound. -/
theorem Sound.push {kind : Kind} (h : arena.Sound) (parts : ∀ child ∈ kind.children, child < arena.size)
    (legal : (arena.shapeOfKind kind).isLegal = true) (fits : arena.SignatureFits kind) :
    Adds arena (arena.push kind) (arena.shapeOfKind kind) := by
  have grown := grows_push kind h
  obtain ⟨new, count, own, stands, number⟩ := node_push arena kind
  have mono : arena.shapes.size ≤ (arena.push kind).1.shapes.size :=
    (arena.intern_spec (arena.shapeOfKind kind)).2.2.1
  have numbers : ∀ id < arena.size, (arena.push kind).1.shapeId id = arena.shapeId id :=
    (arena.shapeId_push kind).2
  have same : ∀ id < arena.size, ∀ child ∈ (arena.kind id).children,
      (arena.push kind).1.shape child = arena.shape child :=
    fun id inside child listed => grown.shape child (Nat.lt_trans (h.below id inside child listed) inside)
  have mine : ∀ child ∈ kind.children, (arena.push kind).1.shape child = arena.shape child :=
    fun child listed => grown.shape child (parts child listed)
  refine ⟨⟨fun id inside => ?_, fun id inside => ?_, fun id inside => ?_, fun id inside => ?_, fun id inside => ?_⟩,
    grown, by rw [new, count]; exact Nat.lt_succ_self _, new ▸ stands⟩
  all_goals
    rcases Nat.lt_or_eq_of_le (show id ≤ arena.size by omega) with old | rfl
  · rw [grown.kind id old]
    exact h.below id old
  · rw [own]
    exact parts
  · rw [numbers id old]
    exact Nat.lt_of_lt_of_le (h.numbered id old) mono
  · exact number
  · rw [grown.kind id old, grown.shape id old, shapeOfKind_congr (same id old)]
    exact h.shaped id old
  · rw [own, stands, shapeOfKind_congr mine]
  · rw [grown.shape id old]
    exact h.legal id old
  · rw [stands]
    exact legal
  · rw [grown.kind id old, signatureFits_congr (same id old)]
    exact h.signatures id old
  · rw [own, signatureFits_congr mine]
    exact fits

/-- A change of a label or an owner leaves kinds, shapes and numbers as they are. -/
theorem modify_spec (arena : Arena) (id : NodeId) (change : Node → Node)
    (kept : ∀ node, (change node).kind = node.kind ∧ (change node).shape = node.shape) :
    let changed : Arena := ⟨arena.nodes.modify id change, arena.shapes⟩
    changed.size = arena.size ∧ (∀ other, changed.kind other = arena.kind other) ∧
      ∀ other, changed.shapeId other = arena.shapeId other := by
  refine ⟨by simp [size], fun other => ?_, fun other => ?_⟩ <;>
    · simp only [kind, shapeId, node, Array.getElem?_modify]
      split
      · cases arena.nodes[other]? with
        | none => rfl
        | some node => simp [kept node]
      · rfl

/-- Such a change keeps an arena sound. -/
theorem Sound.modify (h : arena.Sound) (id : NodeId) (change : Node → Node)
    (kept : ∀ node, (change node).kind = node.kind ∧ (change node).shape = node.shape) :
    let changed : Arena := ⟨arena.nodes.modify id change, arena.shapes⟩
    changed.Sound ∧ arena.Grows changed ∧ changed.size = arena.size := by
  obtain ⟨count, kinds, numbers⟩ := arena.modify_spec id change kept
  have grown : arena.Grows ⟨arena.nodes.modify id change, arena.shapes⟩ := by
    refine ⟨Nat.le_of_eq count.symm, fun other _ => kinds other, fun other _ => ?_⟩
    rw [shape, numbers]
    rfl
  exact ⟨h.relabel grown count rfl numbers, grown, count⟩

/-- A node may be labelled. -/
theorem Sound.withLabel (h : arena.Sound) (id : NodeId) (label : Option String) :
    (arena.withLabel id label).Sound ∧ arena.Grows (arena.withLabel id label) ∧
      (arena.withLabel id label).size = arena.size :=
  h.modify id _ fun _ => ⟨rfl, rfl⟩

/-- Nodes may be given an owner. -/
theorem Sound.adopt (h : arena.Sound) (owner : NodeId) (children : List NodeId) :
    (arena.adopt owner children).Sound ∧ arena.Grows (arena.adopt owner children) ∧
      (arena.adopt owner children).size = arena.size := by
  induction children generalizing arena with
  | nil => exact ⟨h, .refl _, rfl⟩
  | cons child rest ih =>
    obtain ⟨sound, grown, same⟩ := h.modify child (fun node => ⟨node.kind, node.label, some owner, node.shape⟩)
      fun _ => ⟨rfl, rfl⟩
    obtain ⟨sound', grown', same'⟩ := ih sound
    exact ⟨sound', grown.trans grown', same'.trans same⟩

/-- A node that is appended may own its parts. -/
theorem Sound.pushOwner {kind : Kind} (h : arena.Sound) (parts : ∀ child ∈ kind.children, child < arena.size)
    (legal : (arena.shapeOfKind kind).isLegal = true) (fits : arena.SignatureFits kind) :
    Adds arena (arena.pushOwner kind) (arena.shapeOfKind kind) := by
  have pushed := h.push parts legal fits
  obtain ⟨sound, grown, same⟩ := pushed.sound.adopt (arena.push kind).2 kind.children
  exact ⟨sound, pushed.grows.trans grown, Nat.lt_of_lt_of_eq pushed.inside same.symm,
    (grown.shape _ pushed.inside).trans pushed.shaped⟩

/-- The copy of a node, made of the copies of its parts. -/
def copyOwner (arena : Arena) (id : NodeId) (copies : Arena × List NodeId) : Arena × NodeId :=
  let (owned, copy) := copies.1.pushOwner ((arena.kind id).withChildren copies.2)
  (owned.withLabel copy (arena.label id), copy)

/-- What holds of deep copies if it holds of a copy whenever it holds of those of the parts. While the parts are copied,
`copied` is known of the first ones. The induction is on the node, whose parts come before it. -/
theorem deepCopy_induction {holds : Arena → Prop} (copied : Arena → List NodeId → Arena × List NodeId → Prop)
    (made : Arena → NodeId → Arena × NodeId → Prop)
    (below : ∀ {arena : Arena}, holds arena → ∀ id < arena.size, ∀ child ∈ (arena.kind id).children, child < id)
    (none : ∀ {arena}, holds arena → copied arena [] (arena, []))
    (kept : ∀ {arena first state}, copied arena first state → holds state.1 ∧ arena.size ≤ state.1.size)
    (next : ∀ {arena first state child}, child < arena.size → copied arena first state →
      made state.1 child (state.1.deepCopy child) →
      copied arena (first ++ [child]) ((state.1.deepCopy child).1, state.2 ++ [(state.1.deepCopy child).2]))
    (owner : ∀ {arena id state}, holds arena → id < arena.size → copied arena (arena.kind id).children state →
      made arena id (arena.copyOwner id state))
    (h : holds arena) (inside : id < arena.size) : made arena id (arena.deepCopy id) := by
  induction id using Nat.strongRecOn generalizing arena with
  | _ id ih =>
    have copies : ∀ (children first : List NodeId) (state : Arena × List NodeId), (∀ child ∈ children, child < id) →
        copied arena first state → copied arena (first ++ children)
          (children.foldl (fun (state : Arena × List NodeId) child =>
            if child < id then ((state.1.deepCopy child).1, state.2 ++ [(state.1.deepCopy child).2]) else state)
            state) := by
      intro children
      induction children with
      | nil => exact fun first state _ known => (List.append_nil first).symm ▸ known
      | cons child rest onward =>
        intro first state earlier known
        have less := earlier child List.mem_cons_self
        have there := Nat.lt_trans less inside
        obtain ⟨holds', grown⟩ := kept known
        have copy := ih child less holds' (Nat.lt_of_lt_of_le there grown)
        rw [List.foldl_cons, if_pos less, List.append_cons]
        exact onward _ _ (fun node listed => earlier node (List.mem_cons_of_mem _ listed)) (next there known copy)
    rw [Arena.deepCopy]
    exact owner h inside (copies _ [] _ (below h id inside) (none h))

/-- Whether nodes have been copied into an arena, where the copies have their shapes. -/
structure Copied (arena : Arena) (first : List NodeId) (state : Arena × List NodeId) : Prop where
  /-- The arena is sound. -/
  sound : state.1.Sound
  /-- It has grown. -/
  grows : arena.Grows state.1
  /-- The copies are there. -/
  inside : ∀ copy ∈ state.2, copy < state.1.size
  /-- They have the shapes. -/
  shapes : state.2.map state.1.shape = first.map arena.shape

/-- One more node is copied. -/
theorem Copied.next {first : List NodeId} {state : Arena × List NodeId} {child : NodeId} (inside : child < arena.size)
    (h : arena.Copied first state)
    (copy : Adds state.1 (state.1.deepCopy child) (state.1.shape child)) :
    arena.Copied (first ++ [child]) ((state.1.deepCopy child).1, state.2 ++ [(state.1.deepCopy child).2]) := by
  refine ⟨copy.sound, h.grows.trans copy.grows, List.forall_mem_append.mpr ⟨fun node listed => ?_,
    List.forall_mem_singleton.mpr copy.inside⟩, ?_⟩
  · exact Nat.lt_of_lt_of_le (h.inside node listed) copy.grows.size
  · rw [List.map_append, List.map_append, copy.grows.map_shape h.inside, h.shapes, List.map_singleton,
      List.map_singleton, copy.shaped, h.grows.shape child inside]

/-- A copy that is made of the copies of the parts has the shape. -/
theorem Sound.copyOwner {state : Arena × List NodeId} (h : arena.Sound) (inside : id < arena.size)
    (copied : arena.Copied (arena.kind id).children state) :
    Adds arena (arena.copyOwner id state) (arena.shape id) := by
  obtain ⟨same, apart⟩ := shapeOfKind_withChildren copied.shapes
  have parts : ((arena.kind id).withChildren state.2).children = state.2 :=
    children_withChildren (by simpa using congrArg List.length copied.shapes)
  have own := h.shaped id inside
  have owned := copied.sound.pushOwner (by rw [parts]; exact copied.inside)
    (by rw [same, ← own]; exact h.legal id inside) (apart.mpr (h.signatures id inside))
  obtain ⟨sound', grown', count⟩ := owned.sound.withLabel (state.1.pushOwner ((arena.kind id).withChildren state.2)).2
    (arena.label id)
  refine ⟨sound', (copied.grows.trans owned.grows).trans grown', Nat.lt_of_lt_of_eq owned.inside count.symm, ?_⟩
  rw [own, ← same]
  exact (grown'.shape _ owned.inside).trans owned.shaped

/-- A deep copy has the shape of what is copied. -/
theorem Sound.deepCopy (h : arena.Sound) (inside : id < arena.size) :
    Adds arena (arena.deepCopy id) (arena.shape id) :=
  deepCopy_induction Copied (fun arena id result => Adds arena result (arena.shape id)) Sound.below
    (fun sound => ⟨sound, .refl _, nofun, rfl⟩) (fun copied => ⟨copied.sound, copied.grows.size⟩)
    Copied.next Sound.copyOwner h inside

/-- What is attached has the shape of the node that was asked for. -/
theorem Sound.claim (h : arena.Sound) (inside : id < arena.size) : Adds arena (arena.claim id) (arena.shape id) := by
  unfold Arena.claim
  split
  · exact h.deepCopy inside
  · exact ⟨h, .refl _, inside, rfl⟩

end

end Arena

end YulAbi
