import Mathlib.Data.List.Nodup
import YulAbi.Proofs.Arena.Made

/-!
# Arenas as forests

A node has one owner at most: one that is owned already is copied before it is attached
again. So the nodes of an arena are a forest, in which the owner that a node names is the one
that lists it, and a member is found at the offset where its owner has it. This takes that no
call names a node without owner twice in one list of members. Owners are written when the new
node is there, so the second mention is not copied but listed once more.
-/

namespace YulAbi

namespace Arena

/-- Whether every node is listed once, by the owner that it names. -/
structure IsForest (arena : Arena) : Prop where
  /-- What a node is made of names it as the owner. -/
  owned : ∀ owner < arena.size, ∀ child ∈ (arena.kind owner).children, arena.parent child = some owner
  /-- An owner is made of what names it. -/
  listed : ∀ child owner, arena.parent child = some owner →
    owner < arena.size ∧ child ∈ (arena.kind owner).children
  /-- Nothing is listed twice. -/
  once : ∀ owner < arena.size, (arena.kind owner).children.Nodup
  /-- Owners come behind what they own. -/
  below : ∀ owner < arena.size, ∀ child ∈ (arena.kind owner).children, child < owner

/-- Whether nodes are different and have no owner. -/
structure AreRoots (arena : Arena) (ids : List NodeId) : Prop where
  /-- No node is listed twice. -/
  once : ids.Nodup
  /-- No node has an owner. -/
  free : ∀ id ∈ ids, id < arena.size ∧ arena.parent id = none

/-- Whether the nodes without owner among some are named once, and are different from those that are reserved. -/
structure Apart (arena : Arena) (reserved ids : List NodeId) : Prop where
  /-- The nodes are there. -/
  inside : ∀ id ∈ ids, id < arena.size
  /-- No node is named twice. -/
  once : (reserved ++ ids.filter fun id => (arena.parent id).isNone).Nodup

/-- Whether nodes with an owner have kept it. -/
structure KeepsOwners (arena later : Arena) : Prop where
  /-- No node is lost. -/
  size : arena.size ≤ later.size
  /-- Owners stay. -/
  owner : ∀ id < arena.size, ∀ owner, arena.parent id = some owner → later.parent id = some owner

/-- Whether nodes have been added without a change to those that were there. -/
structure Extends (arena later : Arena) : Prop where
  /-- No node is lost. -/
  size : arena.size ≤ later.size
  /-- Kinds stay. -/
  kind : ∀ id < arena.size, later.kind id = arena.kind id
  /-- So do owners, and nodes without owner. -/
  parent : ∀ id < arena.size, later.parent id = arena.parent id

/-- Whether an operation has added a node without owner to a forest, and no more than what is below it. -/
structure AddsRoot (arena : Arena) (result : Arena × NodeId) : Prop where
  /-- The arena is a forest. -/
  forest : result.1.IsForest
  /-- What was there has not changed. -/
  kept : arena.Extends result.1
  /-- The node is new. -/
  fresh : arena.size ≤ result.2
  /-- The node is there. -/
  inside : result.2 < result.1.size
  /-- It has no owner. -/
  free : result.1.parent result.2 = none

section

variable {arena later after : Arena} {id : NodeId} {ids reserved : List NodeId} {kind : Kind}

/-- Every node keeps its owner if nothing happens. -/
theorem KeepsOwners.refl (arena : Arena) : arena.KeepsOwners arena := ⟨Nat.le_refl _, fun _ _ _ same => same⟩

/-- Owners are kept for good. -/
theorem KeepsOwners.trans (h : arena.KeepsOwners later) (h' : later.KeepsOwners after) : arena.KeepsOwners after :=
  ⟨Nat.le_trans h.size h'.size, fun id inside owner own =>
    h'.owner id (Nat.lt_of_lt_of_le inside h.size) owner (h.owner id inside owner own)⟩

/-- Every node keeps its owner if nothing happens. -/
instance : Std.Refl KeepsOwners := ⟨.refl⟩

/-- Owners are kept for good. -/
instance : IsTrans Arena KeepsOwners := ⟨fun _ _ _ => .trans⟩

/-- Nothing changes if nothing happens. -/
theorem Extends.refl (arena : Arena) : arena.Extends arena := ⟨Nat.le_refl _, fun _ _ => rfl, fun _ _ => rfl⟩

/-- Nodes are added one after the other. -/
theorem Extends.trans (h : arena.Extends later) (h' : later.Extends after) : arena.Extends after :=
  ⟨Nat.le_trans h.size h'.size,
    fun id inside => (h'.kind id (Nat.lt_of_lt_of_le inside h.size)).trans (h.kind id inside),
    fun id inside => (h'.parent id (Nat.lt_of_lt_of_le inside h.size)).trans (h.parent id inside)⟩

/-- What does not change at all keeps its owner. -/
theorem Extends.keepsOwners (h : arena.Extends later) : arena.KeepsOwners later :=
  ⟨h.size, fun id inside _ own => (h.parent id inside).trans own⟩

/-- Nodes without owner stay so if nothing changes. -/
theorem AreRoots.extends (h : arena.AreRoots ids) (kept : arena.Extends later) : later.AreRoots ids := by
  refine ⟨h.once, fun id listed => ?_⟩
  obtain ⟨inside, free⟩ := h.free id listed
  exact ⟨Nat.lt_of_lt_of_le inside kept.size, (kept.parent id inside).trans free⟩

/-- Nodes that are named once are still when more of them have owners. -/
theorem Apart.lasts (h : arena.Apart reserved ids) (grown : arena.KeepsOwners later) : later.Apart reserved ids := by
  refine ⟨fun id listed => Nat.lt_of_lt_of_le (h.inside id listed) grown.size, h.once.sublist (.append_left ?_ _)⟩
  have fewer : ids.filter (fun id => (later.parent id).isNone) =
      (ids.filter fun id => (arena.parent id).isNone).filter fun id => (later.parent id).isNone := by
    rw [List.filter_filter]
    refine List.filter_congr fun id listed => ?_
    cases own : arena.parent id with
    | none => simp
    | some owner => simp [grown.owner id (h.inside id listed) owner own]
  rw [fewer]
  exact List.filter_sublist

/-- An arena with the same owners of the same nodes is as much of a forest. -/
theorem IsForest.congr (h : arena.IsForest) (size : later.size = arena.size)
    (kind : ∀ id, later.kind id = arena.kind id) (parent : ∀ id, later.parent id = arena.parent id) :
    later.IsForest := by
  refine ⟨?_, ?_, ?_, ?_⟩ <;> simp only [size, kind, parent]
  · exact h.owned
  · exact h.listed
  · exact h.once
  · exact h.below

/-- An arena without nodes is a forest. -/
theorem isForest_empty : Arena.empty.IsForest := by
  refine ⟨?_, ?_, ?_, ?_⟩
  · exact fun _ inside => absurd inside (Nat.not_lt_zero _)
  · exact nofun
  · exact fun _ inside => absurd inside (Nat.not_lt_zero _)
  · exact fun _ inside => absurd inside (Nat.not_lt_zero _)

/-- A label changes nothing else. -/
theorem withLabel_spec (arena : Arena) (id : NodeId) (label : Option String) :
    (arena.withLabel id label).size = arena.size ∧ (∀ other, (arena.withLabel id label).kind other = arena.kind other) ∧
      (∀ other, (arena.withLabel id label).parent other = arena.parent other) ∧
      ∀ other, (arena.withLabel id label).shape other = arena.shape other := by
  obtain ⟨size, kinds, numbers⟩ := arena.modify_spec id (fun node => ⟨node.kind, label, node.parent, node.shape⟩)
    fun _ => ⟨rfl, rfl⟩
  refine ⟨size, kinds, fun other => ?_, fun other => congrArg arena.shapeOfId (numbers other)⟩
  simp only [parent, node, withLabel, Array.getElem?_modify]
  split
  · cases arena.nodes[other]? <;> rfl
  · rfl

/-- An arena where members are labelled in order, if they have a name. -/
def named (arena : Arena) (members : List (String × NodeId)) : Arena :=
  members.foldl (fun arena member => if member.1.isEmpty then arena else arena.withLabel member.2 (some member.1)) arena

/-- Names add no nodes. -/
theorem size_named (arena : Arena) (members : List (String × NodeId)) : (arena.named members).size = arena.size := by
  induction members generalizing arena with
  | nil => rfl
  | cons member rest ih =>
    rw [named, List.foldl_cons]
    split
    · exact ih arena
    · exact (ih _).trans (arena.withLabel_spec member.2 (some member.1)).1

/-- Adopted nodes have the new owner, and nothing else changes. -/
theorem adopt_spec (owner : NodeId) {children : List NodeId} (inside : ∀ child ∈ children, child < arena.size) :
    (arena.adopt owner children).size = arena.size ∧
      (∀ other, (arena.adopt owner children).kind other = arena.kind other) ∧
      ∀ other, (arena.adopt owner children).parent other =
        if other ∈ children then some owner else arena.parent other := by
  induction children generalizing arena with
  | nil => exact ⟨rfl, fun _ => rfl, fun _ => rfl⟩
  | cons child rest ih =>
    obtain ⟨own, others⟩ := List.forall_mem_cons.mp inside
    obtain ⟨size, kinds, -⟩ := arena.modify_spec child (fun node => ⟨node.kind, node.label, some owner, node.shape⟩)
      fun _ => ⟨rfl, rfl⟩
    have parents : ∀ other, (arena.withParent owner child).parent other =
        if other = child then some owner else arena.parent other := by
      intro other
      simp only [parent, node, withParent, Array.getElem?_modify]
      by_cases same : other = child
      · subst same
        rw [if_pos rfl, if_pos rfl, Array.getElem?_eq_getElem own]
        rfl
      · rw [if_neg same, if_neg (Ne.symm same)]
    obtain ⟨size', kinds', parents'⟩ := @ih (arena.withParent owner child) fun other listed =>
      Nat.lt_of_lt_of_eq (others other listed) size.symm
    refine ⟨size'.trans size, fun other => (kinds' other).trans (kinds other), fun other => (parents' other).trans ?_⟩
    rw [parents]
    by_cases listed : other ∈ rest <;> simp [listed]

/-- What is not there has no owner. -/
theorem parent_of_size_le (beyond : arena.size ≤ id) : arena.parent id = none := by
  rw [parent, node, Array.getElem?_eq_none beyond]
  rfl

/-- A node that is pushed has no owner, and no other one changes. -/
theorem push_spec (arena : Arena) (kind : Kind) : (arena.push kind).2 = arena.size ∧
    (arena.push kind).1.size = arena.size + 1 ∧ (arena.push kind).1.kind arena.size = kind ∧
    (∀ other < arena.size, (arena.push kind).1.kind other = arena.kind other) ∧
    ∀ other, (arena.push kind).1.parent other = arena.parent other := by
  obtain ⟨id, size, own, -, -⟩ := arena.node_push kind
  obtain ⟨nodes, -, -, -, -⟩ := arena.intern_spec (arena.shapeOfKind kind)
  refine ⟨id, size, own, fun other inside => ?_, fun other => ?_⟩
  · simp only [push, Arena.kind, node, nodes, Array.getElem?_push,
      if_neg (Nat.ne_of_lt (show other < arena.nodes.size from inside))]
  · simp only [push, parent, node, nodes, Array.getElem?_push]
    split
    · rename_i last
      exact (parent_of_size_le (Nat.le_of_eq last.symm)).symm
    · rfl

/-- A node that is pushed has no owner and owns what it is made of. -/
theorem pushOwner_spec (inside : ∀ child ∈ kind.children, child < arena.size) :
    (arena.pushOwner kind).2 = arena.size ∧ (arena.pushOwner kind).1.size = arena.size + 1 ∧
      (arena.pushOwner kind).1.kind arena.size = kind ∧
      (∀ other < arena.size, (arena.pushOwner kind).1.kind other = arena.kind other) ∧
      ∀ other, (arena.pushOwner kind).1.parent other =
        if other ∈ kind.children then some arena.size else arena.parent other := by
  obtain ⟨id, size, own, kinds, parents⟩ := arena.push_spec kind
  have inside' : ∀ child ∈ kind.children, child < (arena.push kind).1.size := fun child listed => by
    rw [size]
    exact Nat.lt_succ_of_lt (inside child listed)
  obtain ⟨size', kinds', parents'⟩ := adopt_spec (arena.push kind).2 inside'
  refine ⟨id, size'.trans size, (kinds' _).trans own, fun other old => (kinds' other).trans (kinds other old),
    fun other => (parents' other).trans ?_⟩
  rw [id, parents]

/-- A node may own nodes that have no owner. -/
theorem IsForest.pushOwner (h : arena.IsForest) (free : arena.AreRoots kind.children) :
    (arena.pushOwner kind).1.IsForest := by
  obtain ⟨-, size, own, kinds, parents⟩ := pushOwner_spec fun child listed => (free.free child listed).1
  have old : ∀ {owner child : NodeId}, owner < arena.size → child ∈ (arena.kind owner).children →
      child ∉ kind.children := fun inside listed among =>
    nomatch (h.owned _ inside _ listed).symm.trans (free.free _ among).2
  refine ⟨fun owner inside child listed => ?_, fun child owner same => ?_, fun owner inside => ?_,
    fun owner inside child listed => ?_⟩
  · rcases Nat.lt_or_eq_of_le (Nat.le_of_lt_succ (size ▸ inside)) with earlier | rfl
    · rw [kinds owner earlier] at listed
      rw [parents, if_neg (old earlier listed)]
      exact h.owned owner earlier child listed
    · rw [own] at listed
      rw [parents, if_pos listed]
  · rw [parents] at same
    split at same
    · rename_i listed
      cases same
      rw [size, own]
      exact ⟨Nat.lt_succ_self _, listed⟩
    · obtain ⟨inside, listed⟩ := h.listed child owner same
      rw [size, kinds owner inside]
      exact ⟨Nat.lt_succ_of_lt inside, listed⟩
  · rcases Nat.lt_or_eq_of_le (Nat.le_of_lt_succ (size ▸ inside)) with earlier | rfl
    · rw [kinds owner earlier]
      exact h.once owner earlier
    · rw [own]
      exact free.once
  · rcases Nat.lt_or_eq_of_le (Nat.le_of_lt_succ (size ▸ inside)) with earlier | rfl
    · rw [kinds owner earlier] at listed
      exact h.below owner earlier child listed
    · rw [own] at listed
      exact (free.free child listed).1

/-- A label changes nothing. -/
theorem IsForest.withLabel (h : arena.IsForest) (id : NodeId) (label : Option String) :
    (arena.withLabel id label).IsForest ∧ arena.Extends (arena.withLabel id label) := by
  obtain ⟨size, kinds, parents, -⟩ := arena.withLabel_spec id label
  exact ⟨h.congr size kinds parents, Nat.le_of_eq size.symm, fun other _ => kinds other, fun other _ => parents other⟩

/-- A new node is different from those that were there. -/
theorem AreRoots.concat (h : arena.AreRoots ids) (added : arena.AddsRoot (later, id)) :
    later.AreRoots (ids ++ [id]) := by
  have kept := h.extends added.kept
  refine ⟨List.nodup_append.mpr ⟨h.once, List.nodup_singleton _, fun old listed new listed' => ?_⟩,
    List.forall_mem_append.mpr ⟨kept.free, List.forall_mem_singleton.mpr ⟨added.inside, added.free⟩⟩⟩
  rw [List.mem_singleton.mp listed']
  exact Nat.ne_of_lt (Nat.lt_of_lt_of_le (h.free old listed).1 added.fresh)

/-- Whether nodes have been copied into a forest, where the copies are new trees. -/
structure Grown (arena : Arena) (first : List NodeId) (state : Arena × List NodeId) : Prop where
  /-- The arena is a forest. -/
  forest : state.1.IsForest
  /-- What was there has not changed. -/
  kept : arena.Extends state.1
  /-- The copies are different and have no owner. -/
  roots : state.1.AreRoots state.2
  /-- They are new. -/
  fresh : ∀ copy ∈ state.2, arena.size ≤ copy
  /-- Every node has one. -/
  count : state.2.length = first.length

/-- One more node is copied. -/
theorem Grown.next {first : List NodeId} {state : Arena × List NodeId} {child : NodeId} (h : arena.Grown first state)
    (copy : state.1.AddsRoot (state.1.deepCopy child)) :
    arena.Grown (first ++ [child]) ((state.1.deepCopy child).1, state.2 ++ [(state.1.deepCopy child).2]) := by
  refine ⟨copy.forest, h.kept.trans copy.kept, h.roots.concat copy, List.forall_mem_append.mpr ⟨h.fresh,
    List.forall_mem_singleton.mpr (Nat.le_trans h.kept.size copy.fresh)⟩, ?_⟩
  rw [List.length_append, List.length_append, h.count]
  rfl

/-- A copy that is made of new trees is a new tree. -/
theorem Grown.copyOwner {state : Arena × List NodeId} (h : arena.Grown (arena.kind id).children state) :
    arena.AddsRoot (arena.copyOwner id state) := by
  have parts : ((arena.kind id).withChildren state.2).children = state.2 := children_withChildren h.count
  have free : state.1.AreRoots ((arena.kind id).withChildren state.2).children := parts.symm ▸ h.roots
  obtain ⟨copy, size, -, kinds, parents⟩ := pushOwner_spec fun child listed => (free.free child listed).1
  have extended : arena.Extends (state.1.pushOwner ((arena.kind id).withChildren state.2)).1 := by
    refine ⟨by rw [size]; exact Nat.le_succ_of_le h.kept.size, fun other old => ?_, fun other old => ?_⟩
    · exact (kinds other (Nat.lt_of_lt_of_le old h.kept.size)).trans (h.kept.kind other old)
    · rw [parents, parts, if_neg fun among => absurd (h.fresh other among) (Nat.not_le.mpr old)]
      exact h.kept.parent other old
  obtain ⟨forest, labelled⟩ := (h.forest.pushOwner free).withLabel
    (state.1.pushOwner ((arena.kind id).withChildren state.2)).2 (arena.label id)
  refine ⟨forest, extended.trans labelled, ?_, ?_, ?_⟩
  · exact Nat.le_trans h.kept.size (Nat.le_of_eq copy.symm)
  · exact Nat.lt_of_lt_of_le (by rw [Arena.copyOwner, copy, size]; exact Nat.lt_succ_self _) labelled.size
  · rw [Arena.copyOwner, (withLabel_spec _ _ _).2.2.1, copy, parents,
      if_neg fun among => absurd (free.free _ among).1 (Nat.lt_irrefl _)]
    exact parent_of_size_le (Nat.le_refl _)

/-- A deep copy is a new tree. -/
theorem IsForest.deepCopy (h : arena.IsForest) (inside : id < arena.size) : arena.AddsRoot (arena.deepCopy id) :=
  deepCopy_induction Grown (fun arena _ result => arena.AddsRoot result) IsForest.below
    (fun forest => ⟨forest, .refl _, ⟨List.nodup_nil, nofun⟩, nofun, rfl⟩)
    (fun copied => ⟨copied.forest, copied.kept.size⟩) (fun _ => Grown.next) (fun _ _ => Grown.copyOwner) h inside

/-- Roots are named once, and some of them are apart from the rest. -/
theorem AreRoots.apart (h : arena.AreRoots (reserved ++ ids)) : arena.AreRoots reserved ∧ arena.Apart reserved ids := by
  obtain ⟨own, others⟩ := List.forall_mem_append.mp h.free
  refine ⟨⟨(List.nodup_append.mp h.once).1, own⟩, fun id listed => (others id listed).1, ?_⟩
  rw [List.filter_eq_self.mpr fun id listed => by simp [(others id listed).2]]
  exact h.once

/-- Roots may be taken in any order. -/
theorem AreRoots.perm {ids' : List NodeId} (h : arena.AreRoots ids) (order : ids.Perm ids') : arena.AreRoots ids' :=
  ⟨order.nodup_iff.mp h.once, fun id listed => h.free id (order.mem_iff.mpr listed)⟩

/-- Roots are apart from nothing. -/
theorem AreRoots.apart_nil (h : arena.AreRoots reserved) : arena.Apart reserved [] :=
  (AreRoots.apart ((List.append_nil reserved).symm ▸ h)).2

/-- Nodes are different from a root that is not among them. -/
theorem Apart.concat (h : arena.Apart reserved ids) (roots : arena.AreRoots (reserved ++ [id])) (fresh : id ∉ ids) :
    arena.Apart (reserved ++ [id]) ids := by
  obtain ⟨-, others, apart⟩ := List.nodup_append.mp h.once
  refine ⟨h.inside, List.nodup_append.mpr ⟨roots.once, others, fun first mine second listed => ?_⟩⟩
  rcases List.mem_append.mp mine with mine | mine
  · exact apart first mine second listed
  · rw [List.mem_singleton.mp mine]
    rintro rfl
    exact fresh (List.mem_of_mem_filter listed)

/-- A new root is different from nodes that were there. -/
theorem Apart.added (h : arena.Apart reserved ids) (roots : arena.AreRoots reserved)
    (added : arena.AddsRoot (later, id)) : later.Apart (reserved ++ [id]) ids :=
  (h.lasts added.kept.keepsOwners).concat (roots.concat added) fun listed =>
    Nat.not_le.mpr (h.inside id listed) added.fresh

end

end Arena

namespace Construction

open Arena (IsForest KeepsOwners AreRoots Apart)

/-- Whether a construction keeps an arena a forest if something is known of the arena, and establishes something
if it succeeds. -/
abbrev Plants {α : Type} (construction : Construction α) (known : Arena → Prop) (post : α → Arena → Prop) : Prop :=
  Keeps IsForest KeepsOwners construction known post

section

variable (reserved later : List NodeId)

/-- What is claimed is a root, different from those that are reserved and from those that are named next. -/
theorem claim_plants (id : NodeId) : Plants (claim id)
    (fun arena => arena.AreRoots reserved ∧ arena.Apart reserved (id :: later))
    fun copy arena => arena.AreRoots (reserved ++ [copy]) ∧ arena.Apart (reserved ++ [copy]) later := by
  refine Keeps.operation fun arena forest ⟨roots, apart⟩ => ?_
  obtain ⟨own, others⟩ := List.forall_mem_cons.mp apart.inside
  have once := apart.once
  rw [Arena.claim]
  cases owner : arena.parent id with
  | some owner =>
    rw [List.filter_cons_of_neg (by simp [owner])] at once
    have added := forest.deepCopy own
    exact ⟨added.forest, added.kept.keepsOwners, roots.concat added, Apart.added ⟨others, once⟩ roots added⟩
  | none =>
    rw [List.filter_cons_of_pos (by simp [owner]), List.append_cons] at once
    refine ⟨forest, .refl _, ⟨(List.nodup_append.mp once).1, ?_⟩, others, once⟩
    exact List.forall_mem_append.mpr ⟨roots.free, List.forall_mem_singleton.mpr ⟨own, owner⟩⟩

/-- A copy is a root, different from all nodes that were there. -/
theorem deepCopy_plants (id : NodeId) : Plants (deepCopy id)
    (fun arena => id < arena.size ∧ arena.AreRoots reserved ∧ arena.Apart reserved later)
    fun copy arena => arena.AreRoots (reserved ++ [copy]) ∧ arena.Apart (reserved ++ [copy]) later := by
  refine Keeps.operation fun arena forest ⟨inside, roots, apart⟩ => ?_
  have added := forest.deepCopy inside
  exact ⟨added.forest, added.kept.keepsOwners, roots.concat added, apart.added roots added⟩

/-- A label changes no owner. -/
theorem setLabel_plants (id : NodeId) (label : String) : Plants (setLabel id label)
    (fun arena => arena.AreRoots reserved ∧ arena.Apart reserved later)
    fun _ arena => arena.AreRoots reserved ∧ arena.Apart reserved later := by
  rintro arena forest ⟨roots, apart⟩
  obtain ⟨forest', kept⟩ := forest.withLabel id (some label)
  exact ⟨forest', kept.keepsOwners, fun _ _ => ⟨roots.extends kept, apart.lasts kept.keepsOwners⟩⟩

/-- A node that is made of roots is a root in their place, different from all nodes that were there. -/
theorem addNode_plants (kind : Kind) : Plants (addNode kind)
    (fun arena => arena.AreRoots (reserved ++ kind.children) ∧ arena.Apart reserved later)
    fun id arena => arena.AreRoots (reserved ++ [id]) ∧ arena.Apart (reserved ++ [id]) later := by
  refine Keeps.operation fun arena forest ⟨roots, apart⟩ => ?_
  obtain ⟨once, parts, different⟩ := List.nodup_append.mp roots.once
  obtain ⟨own, free⟩ := List.forall_mem_append.mp roots.free
  obtain ⟨id, size, -, -, parents⟩ := Arena.pushOwner_spec fun child listed => (free child listed).1
  have owners : arena.KeepsOwners (arena.pushOwner kind).1 := by
    refine ⟨by rw [size]; exact Nat.le_succ _, fun other _ owner same => ?_⟩
    rw [parents, if_neg fun listed => nomatch same.symm.trans (free other listed).2]
    exact same
  have roots' : (arena.pushOwner kind).1.AreRoots (reserved ++ [arena.size]) := by
    refine ⟨List.nodup_append.mpr ⟨once, List.nodup_singleton _, fun old listed new listed' => ?_⟩,
      List.forall_mem_append.mpr ⟨fun other listed => ?_, List.forall_mem_singleton.mpr ?_⟩⟩
    · rw [List.mem_singleton.mp listed']
      exact Nat.ne_of_lt (own old listed).1
    · rw [size, parents, if_neg fun among => different other listed other among rfl]
      exact ⟨Nat.lt_succ_of_lt (own other listed).1, (own other listed).2⟩
    · rw [size, parents, if_neg fun among => Nat.lt_irrefl _ (free _ among).1]
      exact ⟨Nat.lt_succ_self _, Arena.parent_of_size_le (Nat.le_refl _)⟩
  rw [id]
  exact ⟨forest.pushOwner ⟨parts, free⟩, owners, roots',
    (apart.lasts owners).concat roots' fun listed => Nat.lt_irrefl _ (apart.inside _ listed)⟩

/-- A node that is made of roots is a root in their place. -/
theorem addOwner_plants (kind : Kind) : Plants (addNode kind) (·.AreRoots (reserved ++ kind.children))
    fun id arena => arena.AreRoots (reserved ++ [id]) :=
  (addNode_plants reserved [] kind).weaken (fun _ _ roots => ⟨roots, roots.apart.1.apart_nil⟩)
    fun _ _ _ done => done.1

/-- A node without parts is a root. -/
theorem addLeaf_plants {kind : Kind} (leaf : kind.children = []) :
    Plants (addNode kind) (·.AreRoots reserved) fun id arena => arena.AreRoots (reserved ++ [id]) := by
  have planted := addOwner_plants reserved kind
  rw [leaf, List.append_nil] at planted
  exact planted

/-- Whether nodes that are reserved or have been claimed are different roots, and apart from those that are left. -/
def ClaimedApart (claimed rest : List NodeId) (arena : Arena) : Prop :=
  arena.AreRoots (reserved ++ claimed) ∧ arena.Apart (reserved ++ claimed) rest

/-- Claimed members are roots, if those without owner are named once. -/
theorem claimMembers_plants (owner : String) (members : List (String × NodeId)) : Plants (claimMembers owner members)
    (fun arena => arena.AreRoots reserved ∧ arena.Apart reserved (members.map Prod.snd))
    fun ids arena => arena.AreRoots (reserved ++ ids) := by
  refine (Keeps.claimMembers (ClaimedApart reserved) (fun claimed node rest => ?_)
    (fun claimed rest node label => setLabel_plants _ rest node label) owner members []).weaken
      (fun arena _ there => ?_) fun _ _ _ there => there.1
  · refine (claim_plants (reserved ++ claimed) rest node).weaken (fun _ _ there => there.2) fun copy _ _ there => ?_
    rw [List.append_assoc] at there
    exact there
  · rw [ClaimedApart, List.append_nil]
    exact there

/-- Nodes without owner that are no signatures are claimed as they are, however often they are named. -/
theorem claimMembers_of_free (owner : String) (members : List (String × NodeId)) (arena : Arena)
    (free : ∀ id ∈ members.map Prod.snd, arena.parent id = none ∧ (arena.shape id).isSignature = false) :
    (claimMembers owner members).runOn arena = (.ok (members.map Prod.snd), arena.named members) := by
  induction members generalizing arena with
  | nil => rfl
  | cons member rest ih =>
    obtain ⟨label, node⟩ := member
    obtain ⟨⟨root, plain⟩, others⟩ := List.forall_mem_cons.mp free
    have looked : (get : Construction Arena).runOn arena = (.ok arena, arena) := rfl
    have claimed : (claim node).runOn arena = (.ok node, arena) := by
      change (Except.ok (arena.claim node).2, (arena.claim node).1) = _
      rw [Arena.claim, root]
      rfl
    rw [claimMembers, runOn_bind, looked]
    simp only [plain, Bool.false_eq_true, if_false]
    rw [runOn_bind, claimed, Arena.named, List.foldl_cons]
    simp only
    split
    · rw [runOn_bind, ih arena others]
      rfl
    · have labelled : (setLabel node label).runOn arena = (.ok ⟨⟩, arena.withLabel node (some label)) := rfl
      obtain ⟨-, -, parents, shapes⟩ := arena.withLabel_spec node (some label)
      have others' : ∀ id ∈ rest.map Prod.snd, (arena.withLabel node (some label)).parent id = none ∧
          ((arena.withLabel node (some label)).shape id).isSignature = false := by
        intro id listed
        rw [parents, shapes]
        exact others id listed
      rw [runOn_bind, labelled]
      simp only
      rw [runOn_bind, ih _ others']
      rfl

/-- A node that claims its members is a root. -/
theorem addComposite_plants (ofMembers : List NodeId → Kind) (parts : ∀ ids, (ofMembers ids).children = ids)
    (owner : String) (members : List (String × NodeId)) :
    Plants (do addNode (ofMembers (← claimMembers owner members)))
      (fun arena => (arena.AreRoots reserved ∧ arena.Apart reserved (members.map Prod.snd)) ∧
        arena.Apart reserved later)
      fun id arena => arena.AreRoots (reserved ++ [id]) ∧ arena.Apart (reserved ++ [id]) later := by
  refine .bind ((claimMembers_plants reserved owner members).keeping (·.Apart reserved later)
    fun _ _ grown apart => apart.lasts grown) fun ids => ?_
  refine (addNode_plants reserved later (ofMembers ids)).weaken (fun _ _ there => ?_) fun _ _ _ done => done
  rw [parts]
  exact there

/-- A struct is a root. -/
theorem addStruct_plants (name : String) (members : List (String × NodeId)) : Plants (addStruct name members)
    (fun arena => arena.AreRoots reserved ∧ arena.Apart reserved (members.map Prod.snd))
    fun id arena => arena.AreRoots (reserved ++ [id]) :=
  (addComposite_plants reserved [] (.struct name) (fun _ => rfl) name members).weaken
    (fun _ _ there => ⟨there, there.1.apart_nil⟩) fun _ _ _ done => done.1

/-- A tuple is a root. -/
theorem addTuple_plants (members : List (String × NodeId)) : Plants (addTuple members)
    (fun arena => arena.AreRoots reserved ∧ arena.Apart reserved (members.map Prod.snd))
    fun id arena => arena.AreRoots (reserved ++ [id]) :=
  (addComposite_plants reserved [] .tuple (fun _ => rfl) "tuple" members).weaken
    (fun _ _ there => ⟨there, there.1.apart_nil⟩) fun _ _ _ done => done.1

/-- A function is a root. Its returns may be among its parameters: then they have an owner when they are claimed. -/
theorem addFunction_plants (name : String) (parameters returns : List (String × NodeId)) (mutability : Mutability) :
    Plants (addFunction name parameters returns mutability)
      (fun arena => (arena.AreRoots reserved ∧ arena.Apart reserved (parameters.map Prod.snd)) ∧
        arena.Apart reserved (returns.map Prod.snd))
      fun id arena => arena.AreRoots (reserved ++ [id]) := by
  refine .bind (addComposite_plants reserved _ .tuple (fun _ => rfl) "tuple" parameters) fun tuple => ?_
  refine .bind (addTuple_plants _ returns) fun tuple' => ?_
  refine (addOwner_plants reserved (.function name tuple tuple' mutability)).weaken (fun arena _ there => ?_)
    fun _ _ _ done => done
  exact List.append_assoc reserved [tuple] [tuple'] ▸ there

/-- An error is a root. -/
theorem addError_plants (name : String) (parameters : List (String × NodeId)) : Plants (addError name parameters)
    (fun arena => arena.AreRoots reserved ∧ arena.Apart reserved (parameters.map Prod.snd))
    fun id arena => arena.AreRoots (reserved ++ [id]) :=
  .bind (addTuple_plants reserved parameters) fun tuple => addOwner_plants reserved (.error name tuple)

/-- Copies of parameters are roots, different from all nodes that were there. -/
theorem copyData_plants (parameters : List (EventParameter NodeId)) : Plants (copyData parameters)
    (fun arena => (∀ id ∈ parameters.map EventParameter.type, id < arena.size) ∧ arena.AreRoots reserved ∧
      arena.Apart reserved later)
    fun members arena => arena.AreRoots (reserved ++ members.map Prod.snd) ∧
      arena.Apart (reserved ++ members.map Prod.snd) later := by
  induction parameters generalizing reserved with
  | nil => exact .pure fun arena _ there => (List.append_nil reserved).symm ▸ there.2
  | cons parameter rest ih =>
    obtain ⟨name, node, indexed⟩ := parameter
    cases indexed with
    | true =>
      exact (ih reserved).weaken (fun _ _ there => ⟨(List.forall_mem_cons.mp there.1).2, there.2⟩)
        fun _ _ _ done => done
    | false =>
      have copied := (deepCopy_plants reserved later node).keeping
        (fun arena => ∀ id ∈ rest.map EventParameter.type, id < arena.size)
        fun _ _ grown inside id listed => Nat.lt_of_lt_of_le (inside id listed) grown.size
      refine .bind (copied.weaken (fun _ _ there => ?_) fun _ _ _ done => done) fun copy => ?_
      · exact ⟨⟨(List.forall_mem_cons.mp there.1).1, there.2⟩, (List.forall_mem_cons.mp there.1).2⟩
      · refine .bind ((ih _).weaken (fun _ _ there => ⟨there.2, there.1⟩) fun _ _ _ done => done) fun members =>
          .pure fun arena _ there => ?_
        rw [List.map_cons, List.append_cons]
        exact there

/-- An event is a root. Its data are copies, so that they are different from its parameters. -/
theorem addEvent_plants (name : String) (parameters : List (EventParameter NodeId)) (anonymous : Bool) :
    Plants (addEvent name parameters anonymous)
      (fun arena => arena.AreRoots reserved ∧ arena.Apart reserved (parameters.map EventParameter.type))
      fun id arena => arena.AreRoots (reserved ++ [id]) := by
  refine .bind ((copyData_plants reserved (parameters.map EventParameter.type) parameters).weaken
    (fun _ _ there => ⟨there.2.inside, there⟩) fun _ _ _ done => done) fun members => ?_
  have types : (parameters.map fun parameter => (parameter.name, parameter.type)).map Prod.snd =
      parameters.map EventParameter.type := by
    rw [List.map_map]
    rfl
  refine .bind ((addTuple_plants (reserved ++ members.map Prod.snd) _).weaken (fun _ _ there => types.symm ▸ there)
    fun _ _ _ done => done) fun tuple => ?_
  refine .bind ((addTuple_plants (reserved ++ [tuple]) members).weaken (fun _ _ there => ?_)
    fun _ _ _ done => done) fun tuple' => ?_
  · refine (there.perm ?_).apart
    rw [List.append_assoc, List.append_assoc]
    exact List.perm_append_comm.append_left reserved
  · refine (addOwner_plants reserved (.event name tuple tuple' _ anonymous)).weaken (fun arena _ there => ?_)
      fun _ _ _ done => done
    exact List.append_assoc reserved [tuple] [tuple'] ▸ there

/-- An integer is a root. -/
theorem addInteger_plants (signed : Bool) (bits : Nat) :
    Plants (addInteger signed bits) (·.AreRoots reserved) fun id arena => arena.AreRoots (reserved ++ [id]) :=
  .ite (fun _ => .refuse _) fun _ => addLeaf_plants reserved rfl

/-- A byte string of a fixed size is a root. -/
theorem addFixedBytes_plants (size : Nat) :
    Plants (addFixedBytes size) (·.AreRoots reserved) fun id arena => arena.AreRoots (reserved ++ [id]) :=
  .ite (fun _ => addLeaf_plants reserved rfl) fun _ => .refuse _

/-- An enumeration is a root. -/
theorem addEnumeration_plants (name : String) (memberCount : Nat) : Plants (addEnumeration name memberCount)
    (·.AreRoots reserved) fun id arena => arena.AreRoots (reserved ++ [id]) :=
  .ite (fun _ => addLeaf_plants reserved rfl) fun _ => .ite (fun _ => addLeaf_plants reserved rfl) fun _ => .refuse _

/-- A node that claims a single one is a root. -/
theorem addWrapper_plants (ofPart : NodeId → Kind) (parts : ∀ id, (ofPart id).children = [id]) (node : NodeId) :
    Plants (do addNode (ofPart (← claim node))) (fun arena => arena.AreRoots reserved ∧ arena.Apart reserved [node])
      fun id arena => arena.AreRoots (reserved ++ [id]) := by
  refine .bind (claim_plants reserved [] node) fun copy => ?_
  refine (addOwner_plants reserved (ofPart copy)).weaken (fun _ _ there => ?_) fun _ _ _ done => done
  rw [parts]
  exact there.1

/-- A user-defined type is a root. -/
theorem addUserDefined_plants (name : String) (underlying : NodeId) : Plants (addUserDefined name underlying)
    (fun arena => arena.AreRoots reserved ∧ arena.Apart reserved [underlying])
    fun id arena => arena.AreRoots (reserved ++ [id]) :=
  .look fun _ => .ite (fun _ => (addWrapper_plants reserved (.userDefined name) (fun _ => rfl) underlying).weaken
    (fun _ _ there => there.2) fun _ _ _ done => done) fun _ => .refuse _

/-- An array is a root. -/
theorem addArray_plants (base : NodeId) (length : Option Nat) : Plants (addArray base length)
    (fun arena => arena.AreRoots reserved ∧ arena.Apart reserved [base])
    fun id arena => arena.AreRoots (reserved ++ [id]) :=
  .look fun _ => .ite (fun _ => .refuse _) fun _ => .ite (fun _ => .refuse _) fun _ =>
    (addWrapper_plants reserved (.array · length) (fun _ => rfl) base).weaken (fun _ _ there => there.2)
      fun _ _ _ done => done

mutual
/-- What is built is a root. -/
theorem build_plants (reserved : List NodeId) (description : Description) :
    Plants (build description) (·.AreRoots reserved) fun id arena => arena.AreRoots (reserved ++ [id]) := by
  -- roots that have been built may be attached
  have attached : ∀ {ids : List NodeId} {construction : Construction NodeId} {post : NodeId → Arena → Prop},
      Plants construction (fun arena => arena.AreRoots reserved ∧ arena.Apart reserved ids) post →
      Plants construction (·.AreRoots (reserved ++ ids)) post :=
    fun planted => planted.weaken (fun _ _ roots => roots.apart) fun _ _ _ done => done
  cases description with
  | bool | address | bytes | string => exact addLeaf_plants reserved rfl
  | uint bits => exact addInteger_plants reserved false bits
  | int bits => exact addInteger_plants reserved true bits
  | enumeration name members => exact addEnumeration_plants reserved name members.length
  | fixedBytes size => exact addFixedBytes_plants reserved size
  | userDefined name underlying =>
    exact .bind (build_plants reserved underlying) fun node => attached (addUserDefined_plants reserved name node)
  | array base length =>
    exact .bind (build_plants reserved base) fun node => attached (addArray_plants reserved node length)
  | struct name members =>
    exact .bind (buildMembers_plants reserved members) fun nodes => attached (addStruct_plants reserved name nodes)
  | tuple members =>
    exact .bind (buildMembers_plants reserved members) fun nodes => attached (addTuple_plants reserved nodes)
  | function name parameters returns mutability =>
    refine .bind (buildMembers_plants reserved parameters) fun nodes => ?_
    refine .bind (buildMembers_plants (reserved ++ nodes.map Prod.snd) returns) fun nodes' => ?_
    refine (addFunction_plants reserved name nodes nodes' mutability).weaken (fun arena _ there => ?_)
      fun _ _ _ done => done
    have order : (reserved ++ nodes.map Prod.snd ++ nodes'.map Prod.snd).Perm
        (reserved ++ nodes'.map Prod.snd ++ nodes.map Prod.snd) := by
      rw [List.append_assoc, List.append_assoc]
      exact List.perm_append_comm.append_left reserved
    exact ⟨there.apart.1.apart, (there.perm order).apart.1.apart.2⟩
  | error name parameters =>
    exact .bind (buildMembers_plants reserved parameters) fun nodes => attached (addError_plants reserved name nodes)
  | event name parameters anonymous =>
    exact .bind (buildParameters_plants reserved parameters) fun nodes =>
      attached (addEvent_plants reserved name nodes anonymous)
/-- Members that are built are roots. -/
theorem buildMembers_plants (reserved : List NodeId) (members : List (Member Description)) :
    Plants (buildMembers members) (·.AreRoots reserved) fun nodes arena =>
      arena.AreRoots (reserved ++ nodes.map Prod.snd) := by
  cases members with
  | nil => exact .pure fun _ _ roots => (List.append_nil reserved).symm ▸ roots
  | cons member rest =>
    obtain ⟨name, type⟩ := member
    refine .bind (build_plants reserved type) fun node => ?_
    refine .bind (buildMembers_plants (reserved ++ [node]) rest) fun nodes => .pure fun _ _ roots => ?_
    rw [List.map_cons, List.append_cons]
    exact roots
/-- Parameters that are built are roots. -/
theorem buildParameters_plants (reserved : List NodeId) (parameters : List (EventParameter Description)) :
    Plants (buildParameters parameters) (·.AreRoots reserved) fun nodes arena =>
      arena.AreRoots (reserved ++ nodes.map EventParameter.type) := by
  cases parameters with
  | nil => exact .pure fun _ _ roots => (List.append_nil reserved).symm ▸ roots
  | cons parameter rest =>
    obtain ⟨name, type, indexed⟩ := parameter
    refine .bind (build_plants reserved type) fun node => ?_
    refine .bind (buildParameters_plants (reserved ++ [node]) rest) fun nodes => .pure fun _ _ roots => ?_
    rw [List.map_cons, List.append_cons]
    exact roots
end

end

end Construction

namespace Addition

open Construction (Plants)

/-- The lists in which nodes are named. -/
def lists : Addition → List (List NodeId)
  | .function _ parameters returns _ => [parameters.map Prod.snd, returns.map Prod.snd]
  | addition => [addition.nodes]

/-- Everything that may be done with nodes that are apart in every list keeps an arena a forest. -/
theorem run_plants (addition : Addition) :
    Plants addition.run (fun arena => ∀ ids ∈ addition.lists, arena.Apart [] ids) fun _ _ => True := by
  have none : ∀ {arena : Arena}, arena.AreRoots [] := ⟨List.nodup_nil, nofun⟩
  have ends : ∀ {known : Arena → Prop} {construction : Construction NodeId} {post : NodeId → Arena → Prop},
      Plants construction known post → Plants (do let _ ← construction) known fun _ _ => True :=
    fun planted => .bind planted fun _ => .pure fun _ _ _ => trivial
  have leaf : ∀ {known : Arena → Prop} {construction : Construction NodeId} {post : NodeId → Arena → Prop},
      Plants construction (·.AreRoots []) post → Plants (do let _ ← construction) known fun _ _ => True :=
    fun planted => ends (planted.weaken (fun _ _ _ => none) fun _ _ _ done => done)
  have single : ∀ {ids : List NodeId} {construction : Construction NodeId} {post : NodeId → Arena → Prop},
      Plants construction (fun arena => arena.AreRoots [] ∧ arena.Apart [] ids) post →
      Plants (do let _ ← construction) (fun arena => ∀ list ∈ [ids], arena.Apart [] list) fun _ _ => True :=
    fun planted => ends (planted.weaken (fun _ _ apart => ⟨none, apart _ List.mem_cons_self⟩) fun _ _ _ done => done)
  cases addition with
  | bool | address | bytes | string => exact leaf (Construction.addLeaf_plants [] rfl)
  | integer signed bits => exact leaf (Construction.addInteger_plants [] signed bits)
  | fixedBytes size => exact leaf (Construction.addFixedBytes_plants [] size)
  | enumeration name memberCount => exact leaf (Construction.addEnumeration_plants [] name memberCount)
  | userDefined name underlying => exact single (Construction.addUserDefined_plants [] name underlying)
  | array base length => exact single (Construction.addArray_plants [] base length)
  | struct name members => exact single (Construction.addStruct_plants [] name members)
  | tuple members => exact single (Construction.addTuple_plants [] members)
  | function name parameters returns mutability =>
    refine ends ((Construction.addFunction_plants [] name parameters returns mutability).weaken
      (fun _ _ apart => ?_) fun _ _ _ done => done)
    exact ⟨⟨none, apart _ List.mem_cons_self⟩, apart _ (List.mem_cons_of_mem _ List.mem_cons_self)⟩
  | error name parameters => exact single (Construction.addError_plants [] name parameters)
  | event name parameters anonymous => exact single (Construction.addEvent_plants [] name parameters anonymous)
  | described description => exact leaf (Construction.build_plants [] description)
  | copy id =>
    refine ends ((Construction.deepCopy_plants [] [] id).weaken (fun _ _ apart => ?_)
      fun _ _ _ done => done)
    exact ⟨(apart _ List.mem_cons_self).inside id List.mem_cons_self, none, none.apart_nil⟩
  | label id text =>
    exact (Construction.setLabel_plants [] [] id text).weaken
      (fun _ _ _ => ⟨none, none.apart_nil⟩) fun _ _ _ _ => trivial

/-- The nodes that are named are those of the lists. -/
theorem flatten_lists (addition : Addition) : addition.lists.flatten = addition.nodes := by
  cases addition <;> simp [lists, nodes]

end Addition

namespace Arena

/-- The arenas that are made from an empty one, where nodes are named that are there, and those without owner once
in every list. What fails may leave nodes behind. -/
inductive MadeApart : Arena → Prop where
  /-- Nothing has been added yet. -/
  | empty : MadeApart .empty
  /-- One more thing is done. -/
  | extended {arena : Arena} (addition : Addition) (earlier : MadeApart arena)
    (apart : ∀ ids ∈ addition.lists, arena.Apart [] ids) :
    MadeApart (addition.run.runOn arena).2

section

variable {arena : Arena} {child owner : NodeId}

/-- Every arena where no node without owner is named twice in a list is a forest. -/
theorem MadeApart.isForest (made : arena.MadeApart) : arena.IsForest := by
  induction made with
  | empty => exact isForest_empty
  | extended addition _ apart ih => exact (addition.run_plants _ ih apart).1

/-- It is one of the arenas that are made. -/
theorem MadeApart.made (made : arena.MadeApart) : arena.Made := by
  induction made with
  | empty => exact .empty
  | extended addition _ apart ih =>
    refine .extended addition ih fun id listed => ?_
    rw [← addition.flatten_lists] at listed
    obtain ⟨ids, list, among⟩ := List.mem_flatten.mp listed
    exact (apart ids list).inside id among

/-- A node names the owner that lists it. -/
theorem IsForest.parent_eq_some_iff (h : arena.IsForest) :
    arena.parent child = some owner ↔ owner < arena.size ∧ child ∈ (arena.kind owner).children :=
  ⟨h.listed child owner, fun ⟨inside, listed⟩ => h.owned owner inside child listed⟩

/-- No node is listed twice, by one owner or by two. -/
theorem IsForest.nodup_children (h : arena.IsForest) :
    ((List.range arena.size).flatMap fun owner => (arena.kind owner).children).Nodup := by
  refine List.nodup_flatMap.mpr ⟨fun owner listed => h.once owner (List.mem_range.mp listed), ?_⟩
  refine List.nodup_range.imp_of_mem fun {first second} inside inside' different child listed listed' => different ?_
  have own := h.owned first (List.mem_range.mp inside) child listed
  have own' := h.owned second (List.mem_range.mp inside') child listed'
  exact Option.some.inj (own.symm.trans own')

/-- A member of a struct or tuple is found at the offset where its owner has it. -/
theorem IsForest.offsetInParent_eq (h : arena.IsForest) {members : List NodeId} {index : Nat}
    (inside : owner < arena.size)
    (composite : arena.kind owner = .tuple members ∨ ∃ name, arena.kind owner = .struct name members)
    (member : members[index]? = some child) (regime : Regime) :
    arena.offsetInParent child regime = (arena.shape owner).memberOffset index regime := by
  have parts : (arena.kind owner).children = members := by
    rcases composite with own | ⟨name, own⟩ <;> rw [own] <;> rfl
  have once := parts ▸ h.once owner inside
  have own := h.owned owner inside child (parts ▸ List.mem_of_getElem? member)
  obtain ⟨there, rfl⟩ := List.getElem?_eq_some_iff.mp member
  have found : members.findIdx? (· == members[index]) = some index := by
    refine List.findIdx?_eq_some_iff_getElem.mpr ⟨there, by simp, fun earlier before => ?_⟩
    simpa using List.pairwise_iff_getElem.mp once earlier index _ there before
  rw [offsetInParent, own]
  rcases composite with own | ⟨name, own⟩ <;> simp only [own, found]

/-- A tuple of nodes without owner leaves a forest exactly if no node is named twice. -/
theorem IsForest.addTuple_iff (h : arena.IsForest) (members : List (String × NodeId))
    (free : ∀ id ∈ members.map Prod.snd,
      id < arena.size ∧ arena.parent id = none ∧ (arena.shape id).isSignature = false) :
    ((Construction.addTuple members).runOn arena).2.IsForest ↔ (members.map Prod.snd).Nodup := by
  constructor
  · intro forest
    have claimed := Construction.claimMembers_of_free "tuple" members arena fun id listed => (free id listed).2
    have ended : ((Construction.addTuple members).runOn arena).2 =
        ((arena.named members).pushOwner (.tuple (members.map Prod.snd))).1 := by
      rw [Construction.addTuple, Construction.runOn_bind, claimed]
      rfl
    obtain ⟨-, grown, own, -, -⟩ := @pushOwner_spec (arena.named members) (.tuple (members.map Prod.snd))
      fun child listed => Nat.lt_of_lt_of_eq (free child listed).1 (arena.size_named members).symm
    rw [ended] at forest
    have once := forest.once (arena.named members).size (grown ▸ Nat.lt_succ_self _)
    rwa [own] at once
  · intro once
    have roots : arena.AreRoots ([] ++ members.map Prod.snd) :=
      ⟨once, fun id listed => ⟨(free id listed).1, (free id listed).2.1⟩⟩
    exact (Construction.addTuple_plants [] members arena h roots.apart).1

/-- A node that is named twice is found where the first mention of it is. -/
example :
    let arena := ((do
      let node ← Construction.addInteger false 256
      Construction.addTuple [("first", node), ("second", node)]).runOn .empty).2
    (arena.kind 1).children = [0, 0] ∧ arena.offsetInParent 0 .memory = .ok 0 ∧
      (arena.shape 1).memberOffset 1 .memory = .ok 32 := by decide +kernel

end

end Arena

end YulAbi
