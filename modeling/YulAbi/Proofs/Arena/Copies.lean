import Mathlib.Data.List.Forall2
import YulAbi.Proofs.Arena.Forest
import YulAbi.Proofs.Arena.Numbers
import YulAbi.Proofs.Arena.Touched

/-!
# Deep copies and trees

A deep copy is a tree of new nodes that is like what is copied: at every position below both nodes
there are nodes of the same kind, with the same label and the same number of a shape, and every
node of the copy is the owner of those it is made of. Nothing that was there changes, and no shape
is entered, as the copy of a node has the key of the node.

What is read of a node is a tree: the kind of the node and, for each of its parts in order, the
label of the part and the tree below it. A node shows a tree if everything below it has the owner
that lists it. As nodes with an owner are never changed, what a node shows lasts, whatever is done
with the arena.
-/

namespace YulAbi

/-- What is left of a kind without the nodes that it is made of. -/
def Kind.blank : Kind → Kind
  | .userDefined name _ => .userDefined name 0
  | .array _ length => .array 0 length
  | .struct name _ => .struct name []
  | .tuple _ => .tuple []
  | .function name _ _ mutability => .function name 0 0 mutability
  | .error name _ => .error name 0
  | .event name _ _ indexed anonymous => .event name 0 0 indexed anonymous
  | kind => kind

/-- Other parts leave the rest of a kind. -/
theorem Kind.blank_withChildren (kind : Kind) (parts : List NodeId) : (kind.withChildren parts).blank = kind.blank := by
  unfold withChildren
  split <;> rfl

/-- Kinds that are the same without their parts differ in their parts only. -/
theorem Kind.eq_withChildren {kind other : Kind} (same : other.blank = kind.blank) :
    other = kind.withChildren other.children := by
  cases kind <;> cases other <;> simp_all [blank, withChildren, children]

/-- Lists are mapped to the same if their entries are, one by one. -/
theorem map_eq_of_zip {α β γ : Type} {f : α → γ} {g : β → γ} {first : List α} {second : List β}
    (count : second.length = first.length) (same : ∀ pair ∈ first.zip second, g pair.2 = f pair.1) :
    second.map g = first.map f := by
  induction first generalizing second with
  | nil => rw [List.eq_nil_of_length_eq_zero count, List.map_nil, List.map_nil]
  | cons entry rest ih =>
    cases second with
    | nil => cases count
    | cons entry' rest' =>
      rw [List.zip_cons_cons, List.forall_mem_cons] at same
      rw [List.map_cons, List.map_cons, same.1, ih (Nat.succ.inj count) same.2]

namespace Arena

/-- The node at a position below another one: the entries say which part is entered, from above. -/
def partAt? (arena : Arena) (id : NodeId) : List Nat → Option NodeId
  | [] => some id
  | index :: position => (arena.kind id).children[index]?.bind fun child => arena.partAt? child position

/-- Whether a node of a later arena is the root of a new tree that is like what is below a node: kinds and labels are
the same, no node is listed twice and each has the owner that lists it. -/
inductive Mirrors (arena later : Arena) : NodeId → NodeId → Prop where
  /-- The nodes are alike and so are their parts. -/
  | intro {id copy : NodeId} (fresh : arena.size ≤ copy) (inside : copy < later.size)
    (kind : (later.kind copy).blank = (arena.kind id).blank) (label : later.label copy = arena.label id)
    (count : (later.kind copy).children.length = (arena.kind id).children.length)
    (once : (later.kind copy).children.Nodup)
    (owned : ∀ child ∈ (later.kind copy).children, later.parent child = some copy)
    (parts : ∀ pair ∈ (arena.kind id).children.zip (later.kind copy).children, Mirrors arena later pair.1 pair.2) :
    Mirrors arena later id copy

section

variable {arena middle later : Arena} {id copy : NodeId} {adopted : List NodeId}

/-- A copy stays like what is copied when its root is attached. -/
theorem Mirrors.touches (h : arena.Mirrors middle id copy) (touched : middle.Touches [] adopted later) :
    arena.Mirrors later id copy := by
  induction h with
  | @intro id copy fresh inside kind label count once owned parts ih =>
    have own := touched.kind copy inside
    have named : later.label copy = middle.label copy := by
      rcases touched.label copy inside with same | ⟨-, name, -, listed, -⟩
      · exact same
      · cases listed
    refine .intro fresh (Nat.lt_of_lt_of_le inside touched.size) (own ▸ kind) (named.trans label) (own ▸ count)
      (own ▸ once) (fun child listed => ?_) (own ▸ ih)
    rw [own] at listed
    have owner := owned child listed
    have there : child < middle.size := by
      by_contra beyond
      cases owner.symm.trans (parent_of_size_le (Nat.le_of_not_lt beyond))
    exact (congrArg Node.parent (touched.owned there owner)).trans owner

/-- A copy is like what was there before more was appended. -/
theorem Mirrors.source (h : middle.Mirrors later id copy) (sound : arena.Sound) (appended : arena.Appends middle)
    (inside : id < arena.size) : arena.Mirrors later id copy := by
  induction h with
  | @intro id copy fresh there kind label count once owned parts ih =>
    have own := appended.kind id inside
    have named : middle.label id = arena.label id := congrArg Node.label (appended.node inside)
    rw [own] at kind count ih
    refine .intro (Nat.le_trans appended.size fresh) there kind (label.trans named) count once owned
      fun pair listed => ?_
    have earlier := sound.below id inside pair.1 (List.of_mem_zip listed).1
    exact ih pair listed (Nat.lt_trans earlier inside)

/-- The shape of a node has been entered. -/
theorem Sound.shape_mem (h : arena.Sound) (inside : id < arena.size) : arena.shape id ∈ arena.shapes.toList := by
  have numbered := h.numbered id inside
  rw [shape, shapeOfId, Array.getElem?_eq_getElem numbered]
  exact Array.mem_toList_iff.mpr (Array.getElem_mem numbered)

/-- A shape that has been entered is not entered again. -/
theorem intern_of_mem {shape : Shape} (listed : shape ∈ arena.shapes.toList) : (arena.intern shape).1 = arena := by
  rcases arena.intern_cases shape with ⟨same, -, -⟩ | ⟨-, fresh, -⟩
  · exact same
  · exact absurd listed fresh

/-- Whether nodes have been copied one after the other. -/
structure Duplicated (arena : Arena) (first : List NodeId) (state : Arena × List NodeId) : Prop where
  /-- What is copied comes from a sound arena. -/
  source : arena.Sound
  /-- The copies have the shapes. -/
  copied : arena.Copied first state
  /-- Nothing that was there has changed. -/
  appended : arena.Appends state.1
  /-- No shape has been entered. -/
  shapes : state.1.shapes = arena.shapes
  /-- The copies are new and have no owner. -/
  free : ∀ copy ∈ state.2, arena.size ≤ copy ∧ state.1.parent copy = none
  /-- They are different. -/
  once : state.2.Nodup
  /-- They are like what is copied. -/
  mirrors : ∀ pair ∈ first.zip state.2, arena.Mirrors state.1 pair.1 pair.2

/-- Whether a node has been copied. -/
structure Duplicates (arena : Arena) (id : NodeId) (result : Arena × NodeId) : Prop where
  /-- The copy has the shape. -/
  adds : Adds arena result (arena.shape id)
  /-- Nothing that was there has changed. -/
  appended : arena.Appends result.1
  /-- No shape has been entered. -/
  shapes : result.1.shapes = arena.shapes
  /-- The copy is new. -/
  fresh : arena.size ≤ result.2
  /-- It has no owner. -/
  free : result.1.parent result.2 = none
  /-- It is like what is copied. -/
  mirrors : arena.Mirrors result.1 id result.2

/-- One more node is copied. -/
theorem Duplicated.next {first : List NodeId} {state : Arena × List NodeId} {child : NodeId}
    (inside : child < arena.size)
    (h : arena.Duplicated first state) (copy : state.1.Duplicates child (state.1.deepCopy child)) :
    arena.Duplicated (first ++ [child]) ((state.1.deepCopy child).1, state.2 ++ [(state.1.deepCopy child).2]) := by
  have count : first.length = state.2.length := by simpa using (congrArg List.length h.copied.shapes).symm
  refine ⟨h.source, h.copied.next inside copy.adds, h.appended.appends copy.appended, copy.shapes.trans h.shapes,
    ?_, ?_, ?_⟩
  · refine List.forall_mem_append.mpr ⟨fun other listed => ?_, List.forall_mem_singleton.mpr
      ⟨Nat.le_trans h.appended.size copy.fresh, copy.free⟩⟩
    have kept := congrArg Node.parent (copy.appended.node (h.copied.inside other listed))
    exact ⟨(h.free other listed).1, kept.trans (h.free other listed).2⟩
  · refine List.nodup_append.mpr ⟨h.once, List.nodup_singleton _, fun old listed new listed' => ?_⟩
    rw [List.mem_singleton.mp listed']
    exact Nat.ne_of_lt (Nat.lt_of_lt_of_le (h.copied.inside old listed) copy.fresh)
  · rw [List.zip_append count, List.zip_cons_cons, List.zip_nil_left]
    refine List.forall_mem_append.mpr ⟨fun pair listed => (h.mirrors pair listed).touches copy.appended,
      List.forall_mem_singleton.mpr ?_⟩
    exact copy.mirrors.source h.source h.appended inside

/-- The copy of a node is made of the copies of its parts. -/
theorem Sound.copyOwner_duplicates {state : Arena × List NodeId} (h : arena.Sound) (inside : id < arena.size)
    (copied : arena.Duplicated (arena.kind id).children state) : arena.Duplicates id (arena.copyOwner id state) := by
  have count : state.2.length = (arena.kind id).children.length := by
    simpa using congrArg List.length copied.copied.shapes
  have parts : ((arena.kind id).withChildren state.2).children = state.2 := children_withChildren count
  have blank := (arena.kind id).blank_withChildren state.2
  have adds := h.copyOwner inside copied.copied
  have same := (shapeOfKind_withChildren copied.copied.shapes).1.trans (h.shaped id inside).symm
  have built : arena.copyOwner id state = ((state.1.pushOwner ((arena.kind id).withChildren state.2)).1.withLabel
      state.1.size (arena.label id), state.1.size) := rfl
  rw [built] at adds ⊢
  generalize (arena.kind id).withChildren state.2 = kind at parts blank adds same
  have free : ∀ child ∈ kind.children, child < state.1.size ∧ state.1.parent child = none :=
    parts ▸ fun child listed => ⟨copied.copied.inside child listed, (copied.free child listed).2⟩
  have below : ∀ child ∈ kind.children, child < state.1.size := fun child listed => (free child listed).1
  have touched := (touches_pushOwner free).labelled_of_fresh (Nat.le_refl _) (arena.label id)
  have there : state.1.size < (state.1.pushOwner kind).1.size := by
    rw [(pushOwner_spec below).2.1]
    exact Nat.lt_succ_self _
  have changed := (state.1.pushOwner kind).1.node_withLabel there (arena.label id)
  have root := changed state.1.size
  rw [if_pos rfl, Arena.kind, Arena.parent, node_pushOwner_self below] at root
  have own := congrArg Node.kind root
  have named : ((state.1.pushOwner kind).1.withLabel state.1.size (arena.label id)).label state.1.size =
      arena.label id := by rw [Arena.label, root]
  have owned : ∀ child ∈ state.2, ((state.1.pushOwner kind).1.withLabel state.1.size (arena.label id)).parent child =
      some state.1.size := by
    intro child listed
    have listed' : child ∈ kind.children := parts.symm ▸ listed
    rw [Arena.parent, changed, if_neg (Nat.ne_of_lt (below child listed')), node_pushOwner below, if_pos listed']
  refine ⟨adds, copied.appended.fresh touched (List.forall_mem_nil _) ?_, ?_, copied.appended.size,
    congrArg Node.parent root, ?_⟩
  · rw [parts]
    exact fun child listed => (copied.free child listed).1
  · have shapes : (state.1.pushOwner kind).1.shapes = (state.1.intern (state.1.shapeOfKind kind)).1.shapes :=
      ((state.1.push kind).1.adopt_sizes state.1.size kind.children).2
    refine shapes.trans ?_
    rw [same, intern_of_mem (copied.shapes ▸ h.shape_mem inside)]
    exact copied.shapes
  · refine .intro copied.appended.size adds.inside ((congrArg Kind.blank own).trans blank)
      named ?_ ?_ ?_ ?_ <;> simp only [Arena.kind, own, parts]
    · exact count
    · exact copied.once
    · exact owned
    · exact fun pair listed => (copied.mirrors pair listed).touches touched

/-- A deep copy is like what is copied. -/
theorem Sound.deepCopy_duplicates (h : arena.Sound) (inside : id < arena.size) :
    arena.Duplicates id (arena.deepCopy id) :=
  deepCopy_induction Duplicated Duplicates Sound.below
    (fun sound => ⟨sound, ⟨sound, .refl _, nofun, rfl⟩, .refl _, rfl, nofun, List.nodup_nil, nofun⟩)
    (fun copied => ⟨copied.copied.sound, copied.appended.size⟩) Duplicated.next Sound.copyOwner_duplicates h inside

/-- Nodes that are like each other have nodes that are like each other at the same positions. -/
theorem Mirrors.partAt? (h : arena.Mirrors later id copy) (position : List Nat) :
    (arena.partAt? id position = none ∧ later.partAt? copy position = none) ∨
      ∃ part twin, arena.partAt? id position = some part ∧ later.partAt? copy position = some twin ∧
        arena.Mirrors later part twin := by
  induction position generalizing id copy with
  | nil => exact .inr ⟨id, copy, rfl, rfl, h⟩
  | cons index position ih =>
    obtain ⟨-, -, -, -, count, -, -, parts⟩ := h
    rw [Arena.partAt?, Arena.partAt?]
    by_cases there : index < (arena.kind id).children.length
    · have there' : index < (later.kind copy).children.length := count ▸ there
      rw [List.getElem?_eq_getElem there, List.getElem?_eq_getElem there', Option.bind_some, Option.bind_some]
      refine ih (parts (_, _) (List.mem_iff_getElem.mpr ⟨index, ?_, List.getElem_zip⟩))
      rw [List.length_zip]
      exact Nat.lt_min.mpr ⟨there, there'⟩
    · have beyond := Nat.le_of_not_lt there
      rw [List.getElem?_eq_none beyond, List.getElem?_eq_none (count ▸ beyond)]
      exact .inl ⟨rfl, rfl⟩

/-- What is at a position below a node comes before what is above it. -/
theorem Sound.partAt?_lt (h : arena.Sound) (inside : id < arena.size) {position : List Nat} {part : NodeId}
    (there : arena.partAt? id position = some part) : part < arena.size := by
  induction position generalizing id with
  | nil =>
    cases there
    exact inside
  | cons index position ih =>
    obtain ⟨child, listed, below⟩ := Option.bind_eq_some_iff.mp there
    exact ih (Nat.lt_trans (h.below id inside child (List.mem_of_getElem? listed)) inside) below

/-- Nodes that are like each other have the same shape. -/
theorem Mirrors.shape (h : arena.Mirrors later id copy) (sound : arena.Sound) (sound' : later.Sound)
    (inside : id < arena.size) : later.shape copy = arena.shape id := by
  induction h with
  | @intro id copy fresh there kind label count once owned parts ih =>
    have same := map_eq_of_zip (f := arena.shape) (g := later.shape) count fun pair listed =>
      ih pair listed (Nat.lt_trans (sound.below id inside pair.1 (List.of_mem_zip listed).1) inside)
    rw [sound'.shaped copy there, sound.shaped id inside, Kind.eq_withChildren kind]
    exact (shapeOfKind_withChildren same).1

/-- Whether a node of a later arena is a new one that is like a node up to what they are made of, and owns different
nodes, as many as that one. -/
structure Resembles (arena later : Arena) (part twin : NodeId) : Prop where
  /-- The node is new. -/
  fresh : arena.size ≤ twin ∧ twin < later.size
  /-- The kinds are the same. -/
  kind : (later.kind twin).blank = (arena.kind part).blank
  /-- The labels are the same. -/
  label : later.label twin = arena.label part
  /-- The numbers of the shapes are the same. -/
  shapeId : later.shapeId twin = arena.shapeId part
  /-- There are as many parts. -/
  count : (later.kind twin).children.length = (arena.kind part).children.length
  /-- They are different. -/
  once : (later.kind twin).children.Nodup
  /-- They have the node as their owner. -/
  owned : ∀ child ∈ (later.kind twin).children, later.parent child = some twin

/-- A deep copy has no owner, changes no node that was there and enters no shape. At every position there is a new node
below it that is like the node below what is copied, or no node below either. -/
theorem Made.deepCopy_resembles (made : arena.Made) (inside : id < arena.size) :
    (arena.deepCopy id).1.parent (arena.deepCopy id).2 = none ∧
      (∀ other < arena.size, (arena.deepCopy id).1.node other = arena.node other) ∧
      (arena.deepCopy id).1.shapes = arena.shapes ∧
      ∀ position,
        (arena.partAt? id position = none ∧ (arena.deepCopy id).1.partAt? (arena.deepCopy id).2 position = none) ∨
        ∃ part twin, arena.partAt? id position = some part ∧
          (arena.deepCopy id).1.partAt? (arena.deepCopy id).2 position = some twin ∧
          arena.Resembles (arena.deepCopy id).1 part twin := by
  have sound := made.sound
  have copied := sound.deepCopy_duplicates inside
  have numbered : (arena.deepCopy id).1.Numbered := numbered_lasting.deepCopy id made.numbered
  refine ⟨copied.free, fun other there => copied.appended.node there, copied.shapes, fun position => ?_⟩
  rcases copied.mirrors.partAt? position with none | ⟨part, twin, found, found', mirrors⟩
  · exact .inl none
  · have there := sound.partAt?_lt inside found
    have there' := Nat.lt_of_lt_of_le there copied.appended.size
    have shape := mirrors.shape sound copied.adds.sound there
    obtain ⟨fresh, inside', kind, label, count, once, owned, -⟩ := mirrors
    have number := (numbered.shapeId_eq_iff copied.adds.sound inside' there').mpr
      (shape.trans (copied.appended.shape sound there).symm)
    exact .inr ⟨part, twin, found, found', ⟨fresh, inside'⟩, kind, label,
      number.trans (copied.appended.shapeId part there), count, once, owned⟩

/-- An event with a topic and an array of fixed length. -/
def transfer : Addition := .described (.event "Transfer"
  [⟨"from", .address, true⟩, ⟨"marks", .array (.uint 8) (some 3), false⟩] false)

/-- An arena with the event. -/
def transferArena : Arena := (transfer.run.runOn .empty).2

/-- The arena is made step by step. -/
theorem transferArena_made : transferArena.Made := .extended transfer .empty fun _ listed => nomatch listed

/-- The event is copied, and the elements of the array among its data are where they were. -/
theorem transfer_deepCopy_resembles : 7 < transferArena.size ∧
    (transferArena.deepCopy 7).1.parent (transferArena.deepCopy 7).2 = none ∧
    (∀ other < transferArena.size, (transferArena.deepCopy 7).1.node other = transferArena.node other) ∧
    (transferArena.deepCopy 7).1.shapes = transferArena.shapes ∧
    transferArena.partAt? 7 [1, 0, 0] = some 3 ∧
    (transferArena.deepCopy 7).1.partAt? (transferArena.deepCopy 7).2 [1, 0, 0] = some 12 ∧
    transferArena.Resembles (transferArena.deepCopy 7).1 3 12 := by
  have inside : 7 < transferArena.size := by decide +kernel
  have source : transferArena.partAt? 7 [1, 0, 0] = some 3 := by decide +kernel
  have copy : (transferArena.deepCopy 7).1.partAt? (transferArena.deepCopy 7).2 [1, 0, 0] = some 12 := by
    decide +kernel
  obtain ⟨root, kept, shapes, positions⟩ := transferArena_made.deepCopy_resembles inside
  obtain ⟨none, -⟩ | ⟨part, twin, found, found', alike⟩ := positions [1, 0, 0]
  · cases none.symm.trans source
  · cases found.symm.trans source
    cases found'.symm.trans copy
    exact ⟨inside, root, kept, shapes, source, copy, alike⟩

end

end Arena

/-! ### Trees below nodes -/

/-- What a node is without the nodes that it is made of, and the trees of these. -/
structure Tree where
  /-- The kind without parts. -/
  kind : Kind
  /-- What the parts are, in order, with their labels. -/
  parts : List (Labelled Tree)

/-- The label that a name gives. -/
def labelOf (name : String) : Option String := if name.isEmpty then none else some name

/-- What two lists have in common with a third one, entry by entry, relates them to each other. -/
theorem forall₂_trans {α β γ : Type} {first : α → β → Prop} {second : α → γ → Prop} {both : β → γ → Prop}
    {entries : List α} {left : List β} {right : List γ} (h : List.Forall₂ first entries left)
    (h' : List.Forall₂ second entries right) (related : ∀ entry one other, first entry one → second entry other →
      both one other) : List.Forall₂ both left right := by
  induction h generalizing right with
  | nil =>
    cases h'
    exact .nil
  | cons own _ ih =>
    cases h' with
    | cons own' others' => exact .cons (related _ _ _ own own') (ih others')

namespace Arena

/-- Whether a node shows a tree, and its number and those of all nodes below it are no lower than a limit: kinds and
labels are those of the tree, no node is listed twice and each has the owner that lists it. -/
inductive Shows (arena : Arena) (limit : Nat) : NodeId → Tree → Prop where
  /-- The node and its parts are those of the tree. -/
  | intro {id : NodeId} {tree : Tree} (fresh : limit ≤ id) (inside : id < arena.size)
    (kind : (arena.kind id).blank = tree.kind)
    (labels : (arena.kind id).children.map arena.label = tree.parts.map Labelled.label)
    (once : (arena.kind id).children.Nodup)
    (owned : ∀ child ∈ (arena.kind id).children, arena.parent child = some id)
    (parts : ∀ pair ∈ (arena.kind id).children.zip tree.parts, Shows arena limit pair.1 pair.2.type) :
    Shows arena limit id tree

section

variable {arena later : Arena} {limit limit' : Nat} {id copy : NodeId} {tree : Tree}
  {labelled members : List (String × NodeId)} {adopted : List NodeId}

/-- The nodes of a tree are no lower than a lower limit. -/
theorem Shows.weaken (h : arena.Shows limit id tree) (low : limit' ≤ limit) : arena.Shows limit' id tree := by
  induction h with
  | intro fresh inside kind labels once owned _ ih =>
    exact .intro (Nat.le_trans low fresh) inside kind labels once owned ih

/-- A node that shows a tree goes on to show it. -/
theorem Shows.touches (h : arena.Shows limit id tree) (touched : arena.Touches labelled adopted later) :
    later.Shows limit id tree := by
  induction h with
  | @intro id tree fresh inside kind labels once owned _ ih =>
    have own := touched.kind id inside
    have same : ∀ child ∈ (arena.kind id).children, later.node child = arena.node child := by
      intro child listed
      have owner := owned child listed
      refine touched.owned ?_ owner
      by_contra beyond
      cases owner.symm.trans (parent_of_size_le (Nat.le_of_not_lt beyond))
    have named : (arena.kind id).children.map later.label = (arena.kind id).children.map arena.label :=
      List.map_congr_left fun child listed => congrArg Node.label (same child listed)
    refine .intro fresh (Nat.lt_of_lt_of_le inside touched.size) (own ▸ kind) (own ▸ named.trans labels) (own ▸ once)
      (fun child listed => ?_) (own ▸ ih)
    rw [own] at listed
    exact (congrArg Node.parent (same child listed)).trans (owned child listed)

/-- A node that is like another one shows the same tree. -/
theorem Mirrors.shows (h : arena.Mirrors later id copy) (shown : arena.Shows limit id tree) :
    later.Shows arena.size copy tree := by
  induction h generalizing tree with
  | @intro id copy fresh inside kind label count once owned parts ih =>
    obtain ⟨-, -, kind', labels', -, -, parts'⟩ := shown
    have length := congrArg List.length labels'
    rw [List.length_map, List.length_map] at length
    have labels : (later.kind copy).children.map later.label = (arena.kind id).children.map arena.label := by
      refine map_eq_of_zip count fun pair listed => ?_
      obtain ⟨-, -, -, label, -⟩ := parts pair listed
      exact label
    have alike : List.Forall₂ (fun twin part => later.Shows arena.size twin part.type) (later.kind copy).children
        tree.parts := forall₂_trans (List.forall₂_iff_zip.mpr ⟨count.symm, fun listed => @ih (_, _) listed⟩)
      (List.forall₂_iff_zip.mpr ⟨length, fun listed => parts' (_, _) listed⟩) fun _ _ _ same shows => same shows
    exact .intro fresh inside (kind.trans kind') (labels.trans labels') once owned fun pair listed =>
      List.forall₂_zip alike listed

/-- A new node shows the tree that is made of those its parts show. -/
theorem shows_pushOwner {kind : Kind} {parts : List (Labelled Tree)} (low : limit ≤ arena.size)
    (free : ∀ child ∈ kind.children, child < arena.size ∧ arena.parent child = none) (once : kind.children.Nodup)
    (shown : List.Forall₂ (fun child part => arena.label child = part.label ∧ arena.Shows limit child part.type)
      kind.children parts) :
    (arena.pushOwner kind).1.Shows limit arena.size ⟨kind.blank, parts⟩ := by
  have below : ∀ child ∈ kind.children, child < arena.size := fun child listed => (free child listed).1
  have own := congrArg Node.kind (node_pushOwner_self below)
  have size := (@pushOwner_spec arena kind below).2.1
  have changed : ∀ child ∈ kind.children, (arena.pushOwner kind).1.node child =
      ⟨arena.kind child, arena.label child, some arena.size, arena.shapeId child⟩ := by
    intro child listed
    rw [node_pushOwner below, if_pos listed]
  have touched := touches_pushOwner free
  have named : kind.children.map (arena.pushOwner kind).1.label = kind.children.map arena.label :=
    List.map_congr_left fun child listed => by rw [Arena.label, changed child listed]
  have labels : kind.children.map arena.label = parts.map Labelled.label := by
    rw [← List.forall₂_eq_eq_eq, List.forall₂_map_left_iff, List.forall₂_map_right_iff]
    exact shown.imp fun _ _ => And.left
  refine .intro low (size ▸ Nat.lt_succ_self _) (congrArg Kind.blank own) ?_ ?_ ?_ ?_ <;> rw [Arena.kind, own]
  · exact named.trans labels
  · exact once
  · exact fun child listed => congrArg Node.parent (changed child listed)
  · exact fun pair listed => (List.forall₂_zip shown listed).2.touches touched

/-- Names leave the labels of other nodes as they are. -/
theorem label_named_of_notMem (inside : ∀ id ∈ members.map Prod.snd, id < arena.size)
    (other : id ∉ members.map Prod.snd) : (arena.named members).label id = arena.label id := by
  induction members generalizing arena with
  | nil => rfl
  | cons member rest ih =>
    obtain ⟨own, others⟩ := List.forall_mem_cons.mp inside
    obtain ⟨different, apart⟩ := not_or.mp (mt List.mem_cons.mpr other)
    rw [named, List.foldl_cons]
    split
    · exact ih others apart
    · have size := (arena.withLabel_spec member.2 (some member.1)).1
      refine (ih (fun id listed => size ▸ others id listed) apart).trans ?_
      rw [Arena.label, node_withLabel own, if_neg different, Arena.label]

/-- Different members get the labels that their names give, and those with an empty name keep theirs. -/
theorem label_named (inside : ∀ id ∈ members.map Prod.snd, id < arena.size) (once : (members.map Prod.snd).Nodup) :
    ∀ member ∈ members, (arena.named members).label member.2 =
      if member.1.isEmpty then arena.label member.2 else some member.1 := by
  induction members generalizing arena with
  | nil => exact nofun
  | cons member rest ih =>
    obtain ⟨own, others⟩ := List.forall_mem_cons.mp inside
    obtain ⟨apart, once'⟩ := List.nodup_cons.mp once
    rw [named, List.foldl_cons]
    split
    · rename_i empty
      refine List.forall_mem_cons.mpr ⟨?_, ih others once'⟩
      rw [if_pos empty]
      exact label_named_of_notMem others apart
    · rename_i filled
      have size := (arena.withLabel_spec member.2 (some member.1)).1
      have others' : ∀ id ∈ rest.map Prod.snd, id < (arena.withLabel member.2 (some member.1)).size :=
        fun id listed => size ▸ others id listed
      have labels := arena.node_withLabel own (some member.1)
      refine List.forall_mem_cons.mpr ⟨?_, fun other listed => ?_⟩
      · refine (label_named_of_notMem others' apart).trans ?_
        rw [if_neg filled, Arena.label, labels, if_pos rfl]
      · have different : other.2 ≠ member.2 := fun same => apart (same ▸ List.mem_map_of_mem listed)
        refine (ih others' once' other listed).trans ?_
        rw [Arena.label, labels, if_neg different, Arena.label]

end

end Arena

end YulAbi
