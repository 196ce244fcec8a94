import Mathlib.Data.List.Nodup
import YulAbi.Proofs.Arena.Made

/-!
# Numbers of shapes

Every shape of an arena has one number, and every number is that of a node. So nodes have the
same number exactly if they have the same shape. This is what a table of keys gives that holds
for every node its kind with the numbers of its parts in place of the parts: nodes have the same
number exactly if they have the same key, and a node with a new key gets the next number.
-/

namespace YulAbi

namespace Arena

/-- Whether a property of arenas is kept when nodes are appended, labelled or given an owner. -/
structure Lasting (holds : Arena → Prop) : Prop where
  /-- A node is appended. -/
  pushed : ∀ {arena : Arena} (kind : Kind), holds arena → holds (arena.push kind).1
  /-- A node is labelled. -/
  labelled : ∀ {arena : Arena} (id : NodeId) (label : Option String), holds arena → holds (arena.withLabel id label)
  /-- A node is given an owner. -/
  owned : ∀ {arena : Arena} (owner id : NodeId), holds arena → holds (arena.withParent owner id)

section

variable {holds : Arena → Prop} {arena : Arena}

/-- Nodes are given an owner one after the other. -/
theorem Lasting.adopt (lasting : Lasting holds) (owner : NodeId) (children : List NodeId) (h : holds arena) :
    holds (arena.adopt owner children) := by
  induction children generalizing arena with
  | nil => exact h
  | cons child rest ih => exact ih (lasting.owned owner child h)

/-- A node is appended and owns its parts. -/
theorem Lasting.pushOwner (lasting : Lasting holds) (kind : Kind) (h : holds arena) :
    holds (arena.pushOwner kind).1 :=
  lasting.adopt _ _ (lasting.pushed kind h)

/-- A node is copied. The induction is on the node, whose parts are copied only if they come before it. -/
theorem Lasting.deepCopy (lasting : Lasting holds) (id : NodeId) (h : holds arena) : holds (arena.deepCopy id).1 := by
  induction id using Nat.strongRecOn generalizing arena with
  | _ id ih =>
    have copies : ∀ (children : List NodeId) (state : Arena × List NodeId), holds state.1 →
        holds (children.foldl (fun (state : Arena × List NodeId) child =>
          if child < id then ((state.1.deepCopy child).1, state.2 ++ [(state.1.deepCopy child).2]) else state)
          state).1 := by
      intro children
      induction children with
      | nil => exact fun _ held => held
      | cons child rest onward =>
        intro state held
        rw [List.foldl_cons]
        refine onward _ ?_
        split
        · exact ih child ‹_› held
        · exact held
    rw [Arena.deepCopy]
    exact lasting.labelled _ _ (lasting.pushOwner _ (copies _ _ h))

/-- A node that is attached may have been copied. -/
theorem Lasting.claim (lasting : Lasting holds) (id : NodeId) (h : holds arena) : holds (arena.claim id).1 := by
  unfold Arena.claim
  split
  · exact lasting.deepCopy id h
  · exact h

end

end Arena

namespace Construction

open Arena (Lasting)

/-- Any two arenas are related. -/
instance : Std.Refl fun _ _ : Arena => True := ⟨fun _ => trivial⟩

/-- Any two arenas are related. -/
instance : IsTrans Arena fun _ _ => True := ⟨fun _ _ _ _ _ => trivial⟩

/-- Whether a construction keeps a property of arenas, whatever is known of the arena. -/
abbrev Maintains {α : Type} (holds : Arena → Prop) (construction : Construction α) : Prop :=
  Keeps holds (fun _ _ => True) construction (fun _ => True) fun _ _ => True

section

variable {holds : Arena → Prop}

/-- What is known of the arena that is looked at does not matter. -/
theorem Maintains.seen {α : Type} {next : Arena → Construction α} (h : ∀ arena, Maintains holds (next arena)) :
    Maintains holds (get >>= next) :=
  .look fun arena => (h arena).weaken (fun _ _ _ => trivial) fun _ _ _ done => done

variable (lasting : Lasting holds)

include lasting

/-- A node is appended. -/
theorem addNode_maintains (kind : Kind) : Maintains holds (addNode kind) :=
  .operation fun _ held _ => ⟨lasting.pushOwner kind held, trivial, trivial⟩

/-- A node is claimed. -/
theorem claim_maintains (id : NodeId) : Maintains holds (claim id) :=
  .operation fun _ held _ => ⟨lasting.claim id held, trivial, trivial⟩

/-- A node is copied. -/
theorem deepCopy_maintains (id : NodeId) : Maintains holds (deepCopy id) :=
  .operation fun _ held _ => ⟨lasting.deepCopy id held, trivial, trivial⟩

/-- A node is labelled. -/
theorem setLabel_maintains (id : NodeId) (label : String) : Maintains holds (setLabel id label) :=
  fun _ held _ => ⟨lasting.labelled id (some label) held, trivial, fun _ _ => trivial⟩

/-- An integer is added. -/
theorem addInteger_maintains (signed : Bool) (bits : Nat) : Maintains holds (addInteger signed bits) :=
  .ite (fun _ => .refuse _) fun _ => addNode_maintains lasting _

/-- A byte string of a fixed size is added. -/
theorem addFixedBytes_maintains (size : Nat) : Maintains holds (addFixedBytes size) :=
  .ite (fun _ => addNode_maintains lasting _) fun _ => .refuse _

/-- An enumeration is added. -/
theorem addEnumeration_maintains (name : String) (memberCount : Nat) :
    Maintains holds (addEnumeration name memberCount) :=
  .ite (fun _ => addNode_maintains lasting _) fun _ => .ite (fun _ => addNode_maintains lasting _) fun _ => .refuse _

/-- Members are claimed and labelled. -/
theorem claimMembers_maintains (owner : String) (members : List (String × NodeId)) :
    Maintains holds (claimMembers owner members) :=
  (Keeps.claimMembers (fun _ _ _ => True) (fun _ node _ => (claim_maintains lasting node).weaken
    (fun _ _ _ => trivial) fun _ _ _ done => done) (fun _ _ node label => setLabel_maintains lasting node label)
    owner members []).weaken (fun _ _ _ => trivial) fun _ _ _ done => done

/-- A tuple is added. -/
theorem addTuple_maintains (members : List (String × NodeId)) : Maintains holds (addTuple members) :=
  .bind (claimMembers_maintains lasting "tuple" members) fun _ => addNode_maintains lasting _

/-- A struct is added. -/
theorem addStruct_maintains (name : String) (members : List (String × NodeId)) :
    Maintains holds (addStruct name members) :=
  .bind (claimMembers_maintains lasting name members) fun _ => addNode_maintains lasting _

/-- A function is added. -/
theorem addFunction_maintains (name : String) (parameters returns : List (String × NodeId)) (mutability : Mutability) :
    Maintains holds (addFunction name parameters returns mutability) :=
  .bind (addTuple_maintains lasting parameters) fun _ => .bind (addTuple_maintains lasting returns) fun _ =>
    addNode_maintains lasting _

/-- An error is added. -/
theorem addError_maintains (name : String) (parameters : List (String × NodeId)) :
    Maintains holds (addError name parameters) :=
  .bind (addTuple_maintains lasting parameters) fun _ => addNode_maintains lasting _

/-- Parameters of an event are copied. -/
theorem copyData_maintains (parameters : List (EventParameter NodeId)) : Maintains holds (copyData parameters) := by
  induction parameters with
  | nil => exact .pure fun _ _ _ => trivial
  | cons parameter rest ih =>
    obtain ⟨name, node, indexed⟩ := parameter
    cases indexed with
    | true => exact ih
    | false =>
      exact .bind (deepCopy_maintains lasting node) fun _ => .bind ih fun _ => .pure fun _ _ _ => trivial

/-- An event is added. -/
theorem addEvent_maintains (name : String) (parameters : List (EventParameter NodeId)) (anonymous : Bool) :
    Maintains holds (addEvent name parameters anonymous) :=
  .bind (copyData_maintains lasting parameters) fun _ => .bind (addTuple_maintains lasting _) fun _ =>
    .bind (addTuple_maintains lasting _) fun _ => addNode_maintains lasting _

/-- A user-defined type is added. -/
theorem addUserDefined_maintains (name : String) (underlying : NodeId) :
    Maintains holds (addUserDefined name underlying) :=
  .seen fun _ => .ite (fun _ => .bind (claim_maintains lasting underlying) fun _ => addNode_maintains lasting _)
    fun _ => .refuse _

/-- An array is added. -/
theorem addArray_maintains (base : NodeId) (length : Option Nat) : Maintains holds (addArray base length) :=
  .seen fun _ => .ite (fun _ => .refuse _) fun _ => .ite (fun _ => .refuse _) fun _ =>
    .bind (claim_maintains lasting base) fun _ => addNode_maintains lasting _

end

section

variable {holds : Arena → Prop}

mutual
/-- A description is built. -/
theorem build_maintains (lasting : Lasting holds) (description : Description) :
    Maintains holds (build description) := by
  cases description with
  | bool | address | bytes | string => exact addNode_maintains lasting _
  | uint bits => exact addInteger_maintains lasting false bits
  | int bits => exact addInteger_maintains lasting true bits
  | enumeration name members => exact addEnumeration_maintains lasting name members.length
  | fixedBytes size => exact addFixedBytes_maintains lasting size
  | userDefined name underlying =>
    exact .bind (build_maintains lasting underlying) fun node => addUserDefined_maintains lasting name node
  | array base length => exact .bind (build_maintains lasting base) fun node => addArray_maintains lasting node length
  | struct name members =>
    exact .bind (buildMembers_maintains lasting members) fun nodes => addStruct_maintains lasting name nodes
  | tuple members => exact .bind (buildMembers_maintains lasting members) fun nodes => addTuple_maintains lasting nodes
  | function name parameters returns mutability =>
    exact .bind (buildMembers_maintains lasting parameters) fun nodes =>
      .bind (buildMembers_maintains lasting returns) fun nodes' =>
        addFunction_maintains lasting name nodes nodes' mutability
  | error name parameters =>
    exact .bind (buildMembers_maintains lasting parameters) fun nodes => addError_maintains lasting name nodes
  | event name parameters anonymous =>
    exact .bind (buildParameters_maintains lasting parameters) fun nodes =>
      addEvent_maintains lasting name nodes anonymous
/-- Members are built in order. -/
theorem buildMembers_maintains (lasting : Lasting holds) (members : List (Member Description)) :
    Maintains holds (buildMembers members) := by
  cases members with
  | nil => exact .pure fun _ _ _ => trivial
  | cons member rest =>
    obtain ⟨name, type⟩ := member
    exact .bind (build_maintains lasting type) fun _ => .bind (buildMembers_maintains lasting rest) fun _ =>
      .pure fun _ _ _ => trivial
/-- Parameters of events are built in order. -/
theorem buildParameters_maintains (lasting : Lasting holds) (parameters : List (EventParameter Description)) :
    Maintains holds (buildParameters parameters) := by
  cases parameters with
  | nil => exact .pure fun _ _ _ => trivial
  | cons parameter rest =>
    obtain ⟨name, type, indexed⟩ := parameter
    exact .bind (build_maintains lasting type) fun _ => .bind (buildParameters_maintains lasting rest) fun _ =>
      .pure fun _ _ _ => trivial
end

end

end Construction

open Construction (Maintains)

/-- Whatever is done keeps a property that appended nodes, labels and owners keep. -/
theorem Addition.run_maintains {holds : Arena → Prop} (lasting : Arena.Lasting holds) (addition : Addition) :
    Maintains holds addition.run := by
  have ends : ∀ {construction : Construction NodeId}, Maintains holds construction →
      Maintains holds (do let _ ← construction) :=
    fun maintained => .bind maintained fun _ => .pure fun _ _ _ => trivial
  cases addition with
  | bool | address | bytes | string => exact ends (Construction.addNode_maintains lasting _)
  | integer signed bits => exact ends (Construction.addInteger_maintains lasting signed bits)
  | fixedBytes size => exact ends (Construction.addFixedBytes_maintains lasting size)
  | enumeration name memberCount => exact ends (Construction.addEnumeration_maintains lasting name memberCount)
  | userDefined name underlying => exact ends (Construction.addUserDefined_maintains lasting name underlying)
  | array base length => exact ends (Construction.addArray_maintains lasting base length)
  | struct name members => exact ends (Construction.addStruct_maintains lasting name members)
  | tuple members => exact ends (Construction.addTuple_maintains lasting members)
  | function name parameters returns mutability =>
    exact ends (Construction.addFunction_maintains lasting name parameters returns mutability)
  | error name parameters => exact ends (Construction.addError_maintains lasting name parameters)
  | event name parameters anonymous => exact ends (Construction.addEvent_maintains lasting name parameters anonymous)
  | described description => exact ends (Construction.build_maintains lasting description)
  | copy id => exact ends (Construction.deepCopy_maintains lasting id)
  | label id text => exact Construction.setLabel_maintains lasting id text

namespace Arena

/-- What holds of an arena without nodes, and is kept by appended nodes, labels and owners, holds of every arena that
is made. -/
theorem Made.lasting {holds : Arena → Prop} (lasting : Lasting holds) (empty : holds .empty) {arena : Arena}
    (made : arena.Made) : holds arena := by
  induction made with
  | empty => exact empty
  | extended addition _ _ ih => exact (addition.run_maintains lasting _ ih trivial).1

/-- Whether shapes have one number each, and numbers are those of nodes. -/
structure Numbered (arena : Arena) : Prop where
  /-- No shape has two numbers. -/
  distinct : arena.shapes.toList.Nodup
  /-- Every number is that of a node. -/
  used : ∀ number < arena.shapes.size, ∃ id < arena.size, arena.shapeId id = number

/-- A shape that has no number yet gets the next one. -/
theorem intern_cases (arena : Arena) (shape : Shape) :
    ((arena.intern shape).1 = arena ∧ arena.shapeOfId (arena.intern shape).2 = shape ∧
      (arena.intern shape).2 < arena.shapes.size) ∨
    ((arena.intern shape).1 = ⟨arena.nodes, arena.shapes.push shape⟩ ∧ shape ∉ arena.shapes.toList ∧
      (arena.intern shape).2 = arena.shapes.size) := by
  unfold intern
  cases found : arena.shapes.findIdx? (· == shape) with
  | some number =>
    obtain ⟨inside, same, -⟩ := Array.findIdx?_eq_some_iff_getElem.mp found
    exact .inl ⟨rfl, by simpa [shapeOfId, inside] using same, inside⟩
  | none =>
    have other := Array.findIdx?_eq_none_iff.mp found
    exact .inr ⟨rfl, fun listed => by simpa using other shape (Array.mem_toList_iff.mp listed), rfl⟩

/-- An arena with the same shapes and the same numbers of nodes is numbered as well. -/
theorem Numbered.congr {arena later : Arena} (h : arena.Numbered) (size : later.size = arena.size)
    (shapes : later.shapes = arena.shapes) (numbers : ∀ id, later.shapeId id = arena.shapeId id) : later.Numbered := by
  refine ⟨shapes ▸ h.distinct, fun number inside => ?_⟩
  obtain ⟨id, there, own⟩ := h.used number (shapes ▸ inside)
  exact ⟨id, size ▸ there, (numbers id).trans own⟩

/-- Appended nodes, labels and owners keep the numbers of shapes apart and in use. -/
theorem numbered_lasting : Lasting Numbered where
  pushed {arena} kind h := by
    obtain ⟨-, count, -, -, -⟩ := arena.node_push kind
    obtain ⟨new, old⟩ := arena.shapeId_push kind
    have kept : ∀ number < arena.shapes.size, ∃ id < (arena.push kind).1.size,
        (arena.push kind).1.shapeId id = number := by
      intro number inside
      obtain ⟨id, there, own⟩ := h.used number inside
      exact ⟨id, count ▸ Nat.lt_succ_of_lt there, (old id there).trans own⟩
    have shapes : (arena.push kind).1.shapes = (arena.intern (arena.shapeOfKind kind)).1.shapes := rfl
    rcases arena.intern_cases (arena.shapeOfKind kind) with ⟨same, -, -⟩ | ⟨grown, fresh, number⟩
    · rw [same] at shapes
      exact ⟨shapes ▸ h.distinct, fun number inside => kept number (shapes ▸ inside)⟩
    · rw [grown] at shapes
      refine ⟨?_, fun other inside => ?_⟩
      · rw [shapes, Array.toList_push]
        exact List.nodup_append.mpr ⟨h.distinct, List.nodup_singleton _, fun shape listed other last =>
          List.mem_singleton.mp last ▸ fun equal => fresh (equal ▸ listed)⟩
      · rw [shapes, Array.size_push] at inside
        rcases Nat.lt_or_eq_of_le (Nat.le_of_lt_succ inside) with earlier | rfl
        · exact kept other earlier
        · exact ⟨arena.size, count ▸ Nat.lt_succ_self _, new.trans number⟩
  labelled {arena} id label h :=
    have ⟨size, _, numbers⟩ := arena.modify_spec id (fun node => ⟨node.kind, label, node.parent, node.shape⟩)
      fun _ => ⟨rfl, rfl⟩
    h.congr size rfl numbers
  owned {arena} owner id h :=
    have ⟨size, _, numbers⟩ := arena.modify_spec id (fun node => ⟨node.kind, node.label, some owner, node.shape⟩)
      fun _ => ⟨rfl, rfl⟩
    h.congr size rfl numbers

/-- Every arena that is made is numbered. -/
theorem Made.numbered {arena : Arena} (made : arena.Made) : arena.Numbered :=
  made.lasting numbered_lasting ⟨List.nodup_nil, fun _ inside => absurd inside (Nat.not_lt_zero _)⟩

section

variable {arena : Arena} {id other : NodeId}

/-- The number of a shape, if it has one. -/
def numberOf (arena : Arena) (shape : Shape) : ShapeId := arena.shapes.toList.idxOf shape

/-- The shape that a number stands for has that number. -/
theorem Numbered.numberOf_shapeOfId (h : arena.Numbered) {number : ShapeId} (inside : number < arena.shapes.size) :
    arena.shapeOfId number ∈ arena.shapes.toList ∧ arena.numberOf (arena.shapeOfId number) = number := by
  have entry : arena.shapeOfId number = arena.shapes.toList.get ⟨number, inside⟩ := by simp [shapeOfId, inside]
  rw [numberOf, entry]
  exact ⟨List.get_mem _ _, h.distinct.idxOf_getElem number inside⟩

/-- Nodes have the same number exactly if they have the same shape. -/
theorem Numbered.shapeId_eq_iff (h : arena.Numbered) (sound : arena.Sound) (inside : id < arena.size)
    (inside' : other < arena.size) : arena.shapeId id = arena.shapeId other ↔ arena.shape id = arena.shape other := by
  refine ⟨fun same => congrArg arena.shapeOfId same, fun same => ?_⟩
  have own : ∀ {id : NodeId}, id < arena.size → arena.numberOf (arena.shape id) = arena.shapeId id :=
    fun there => (h.numberOf_shapeOfId (sound.numbered _ there)).2
  rw [← own inside, ← own inside', same]

/-- The key of a kind: the numbers of its parts stand in place of the parts, and what does not count is left out. -/
def key (arena : Arena) : Kind → Kind
  | .userDefined name underlying => .userDefined name (arena.shapeId underlying)
  | .array base length => .array (arena.shapeId base) length
  | .struct name members => .struct name (members.map arena.shapeId)
  | .tuple members => .tuple (members.map arena.shapeId)
  | .function _ parameters returns _ => .function "" (arena.shapeId parameters) (arena.shapeId returns) .nonpayable
  | .error name parameters => .error name (arena.shapeId parameters)
  | .event name parameters _ indexed anonymous => .event name (arena.shapeId parameters) 0 indexed anonymous
  | kind => kind

/-- The shape that a key stands for. -/
def shapeOfKey (arena : Arena) : Kind → Shape
  | .bool => .bool
  | .address => .address
  | .integer signed bits => .integer signed bits
  | .enumeration name memberCount => .enumeration name memberCount
  | .fixedBytes size => .fixedBytes size
  | .userDefined name underlying => .userDefined name (arena.shapeOfId underlying)
  | .bytes => .bytes
  | .string => .string
  | .array base length => .array (arena.shapeOfId base) length
  | .struct name members => .struct name (members.map arena.shapeOfId)
  | .tuple members => .tuple (members.map arena.shapeOfId)
  | .function _ parameters returns _ =>
    .function (arena.shapeOfId parameters).members (arena.shapeOfId returns).members
  | .error name parameters => .error name (arena.shapeOfId parameters).members
  | .event name parameters _ indexed anonymous => .event name (arena.shapeOfId parameters).members indexed anonymous

/-- The key of a shape whose parts have numbers. -/
def keyOfShape (arena : Arena) : Shape → Kind
  | .bool => .bool
  | .address => .address
  | .integer signed bits => .integer signed bits
  | .enumeration name memberCount => .enumeration name memberCount
  | .fixedBytes size => .fixedBytes size
  | .userDefined name underlying => .userDefined name (arena.numberOf underlying)
  | .bytes => .bytes
  | .string => .string
  | .array base length => .array (arena.numberOf base) length
  | .struct name members => .struct name (members.map arena.numberOf)
  | .tuple members => .tuple (members.map arena.numberOf)
  | .function parameters returns =>
    .function "" (arena.numberOf (.tuple parameters)) (arena.numberOf (.tuple returns)) .nonpayable
  | .error name parameters => .error name (arena.numberOf (.tuple parameters))
  | .event name parameters indexed anonymous => .event name (arena.numberOf (.tuple parameters)) 0 indexed anonymous

/-- A key tells the shape. -/
theorem shapeOfKey_key (arena : Arena) (kind : Kind) : arena.shapeOfKey (arena.key kind) = arena.shapeOfKind kind := by
  have parts : ∀ members : List NodeId, (members.map arena.shapeId).map arena.shapeOfId = members.map arena.shape :=
    fun members => List.map_map
  cases kind with
  | struct name members => exact congrArg (Shape.struct name) (parts members)
  | tuple members => exact congrArg Shape.tuple (parts members)
  | _ => rfl

/-- A shape tells the key of a kind whose parts are there. -/
theorem Numbered.keyOfShape_shapeOfKind (h : arena.Numbered) (sound : arena.Sound) {kind : Kind}
    (parts : ∀ child ∈ kind.children, child < arena.size) (fits : arena.SignatureFits kind) :
    arena.keyOfShape (arena.shapeOfKind kind) = arena.key kind := by
  have numbers : ∀ child ∈ kind.children, arena.numberOf (arena.shape child) = arena.shapeId child :=
    fun child listed => (h.numberOf_shapeOfId (sound.numbered child (parts child listed))).2
  cases kind with
  | userDefined name underlying => exact congrArg (Kind.userDefined name) (numbers underlying List.mem_cons_self)
  | array base length => exact congrArg (Kind.array · length) (numbers base List.mem_cons_self)
  | struct name members =>
    exact congrArg (Kind.struct name) (List.map_map.trans (List.map_congr_left numbers))
  | tuple members => exact congrArg Kind.tuple (List.map_map.trans (List.map_congr_left numbers))
  | function name parameters returns mutability =>
    rw [shapeOfKind, keyOfShape, ← fits.1, ← fits.2, numbers parameters (by simp [Kind.children]),
      numbers returns (by simp [Kind.children]), key]
  | error name parameters => rw [shapeOfKind, keyOfShape, ← fits, numbers parameters List.mem_cons_self, key]
  | event name parameters data indexed anonymous =>
    rw [shapeOfKind, keyOfShape, ← fits.1, numbers parameters List.mem_cons_self, key]
  | _ => rfl

/-- Kinds whose parts are there have the same key exactly if they have the same shape. -/
theorem Numbered.key_eq_iff (h : arena.Numbered) (sound : arena.Sound) {kind kind' : Kind}
    (parts : ∀ child ∈ kind.children, child < arena.size) (fits : arena.SignatureFits kind)
    (parts' : ∀ child ∈ kind'.children, child < arena.size) (fits' : arena.SignatureFits kind') :
    arena.key kind = arena.key kind' ↔ arena.shapeOfKind kind = arena.shapeOfKind kind' := by
  refine ⟨fun same => ?_, fun same => ?_⟩
  · rw [← shapeOfKey_key, ← shapeOfKey_key, same]
  · rw [← h.keyOfShape_shapeOfKind sound parts fits, ← h.keyOfShape_shapeOfKind sound parts' fits', same]

/-- A node that is appended gets the number of a node with the same key, and the next number if there is none. -/
theorem Numbered.push_shapeId (h : arena.Numbered) (sound : arena.Sound) {kind : Kind}
    (parts : ∀ child ∈ kind.children, child < arena.size) (fits : arena.SignatureFits kind) :
    (∀ id < arena.size, arena.key (arena.kind id) = arena.key kind →
      (arena.push kind).1.shapeId arena.size = arena.shapeId id) ∧
    ((∀ id < arena.size, arena.key (arena.kind id) ≠ arena.key kind) →
      (arena.push kind).1.shapeId arena.size = arena.shapes.size) := by
  have same : ∀ id < arena.size,
      arena.key (arena.kind id) = arena.key kind ↔ arena.shape id = arena.shapeOfKind kind := by
    intro id inside
    rw [sound.shaped id inside]
    exact h.key_eq_iff sound (fun child listed => Nat.lt_trans (sound.below id inside child listed) inside)
      (sound.signatures id inside) parts fits
  rw [(arena.shapeId_push kind).1]
  rcases arena.intern_cases (arena.shapeOfKind kind) with ⟨-, stands, number⟩ | ⟨-, fresh, next⟩
  · refine ⟨fun id inside equal => ?_, fun others => ?_⟩
    · rw [← (h.numberOf_shapeOfId number).2, stands, ← (same id inside).mp equal]
      exact (h.numberOf_shapeOfId (sound.numbered id inside)).2
    · obtain ⟨id, inside, own⟩ := h.used _ number
      exact absurd ((same id inside).mpr (by rw [shape, own, stands])) (others id inside)
  · refine ⟨fun id inside equal => absurd ?_ fresh, fun _ => next⟩
    rw [← (same id inside).mp equal]
    exact (h.numberOf_shapeOfId (sound.numbered id inside)).1

end

end Arena

end YulAbi
