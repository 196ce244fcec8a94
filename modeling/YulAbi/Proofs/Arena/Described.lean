import YulAbi.Proofs.Arena.Ends

/-!
# What descriptions build

A description is built exactly if it is valid: sizes are in range, user-defined types are around value types that are no
functions, no array has the length zero, and errors and events are parts of nothing. What is built is a new node without
label and owner that shows the tree of the description, and nothing that was there has changed.
-/

namespace YulAbi

/-- A parameter of an event as a member of a composite. -/
def EventParameter.member {α : Type} (parameter : EventParameter α) : Member α := ⟨parameter.name, parameter.type⟩

namespace Description

/-- Whether a description is of an error or an event. -/
def isSignature : Description → Bool
  | .error .. | .event .. => true
  | _ => false

/-- Whether a description is of a value type that is no function. -/
def isWrappable : Description → Bool
  | .bool | .address | .uint _ | .int _ | .enumeration .. | .fixedBytes _ | .userDefined .. => true
  | _ => false

mutual
/-- Whether all sizes are in range, user-defined types are around value types that are no functions, no length is zero
and no part is an error or an event. -/
def isValid : Description → Bool
  | .bool | .address | .bytes | .string => true
  | .uint bits | .int bits => 8 ≤ bits && bits ≤ 256 && bits % 8 == 0
  | .fixedBytes size => 1 ≤ size && size ≤ 32
  | .enumeration _ members => members.length ≤ 256
  | .userDefined _ underlying => underlying.isWrappable && underlying.isValid
  | .array base length => length != some 0 && !base.isSignature && base.isValid
  | .struct _ members | .tuple members | .error _ members => areValid members
  | .function _ parameters returns _ => areValid parameters && areValid returns
  | .event _ parameters _ => parametersAreValid parameters
/-- Whether members are valid and neither errors nor events. -/
def areValid : List (Member Description) → Bool
  | [] => true
  | ⟨_, type⟩ :: rest => !type.isSignature && type.isValid && areValid rest
/-- Whether parameters are valid and neither errors nor events. -/
def parametersAreValid : List (EventParameter Description) → Bool
  | [] => true
  | ⟨_, type, _⟩ :: rest => !type.isSignature && type.isValid && parametersAreValid rest
end

mutual
/-- The shape of what is described. An enumeration without members has 256. -/
def shape : Description → Shape
  | .bool => .bool
  | .address => .address
  | .uint bits => .integer false bits
  | .int bits => .integer true bits
  | .enumeration name members => .enumeration name (if members.length = 0 then 256 else members.length)
  | .fixedBytes size => .fixedBytes size
  | .userDefined name underlying => .userDefined name underlying.shape
  | .bytes => .bytes
  | .string => .string
  | .array base length => .array base.shape length
  | .struct name members => .struct name (memberShapes members)
  | .tuple members => .tuple (memberShapes members)
  | .function _ parameters returns _ => .function (memberShapes parameters) (memberShapes returns)
  | .error name parameters => .error name (memberShapes parameters)
  | .event name parameters anonymous =>
    .event name (parameterShapes parameters) (parameters.map EventParameter.indexed) anonymous
/-- The shapes of members. -/
def memberShapes : List (Member Description) → List Shape
  | [] => []
  | ⟨_, type⟩ :: rest => type.shape :: memberShapes rest
/-- The shapes of parameters. -/
def parameterShapes : List (EventParameter Description) → List Shape
  | [] => []
  | ⟨_, type, _⟩ :: rest => type.shape :: parameterShapes rest
end

mutual
/-- The tree that a description names. Functions and errors have tuples for their parameters, and events another one
for those that are no topics. -/
def tree : Description → Tree
  | .bool => ⟨.bool, []⟩
  | .address => ⟨.address, []⟩
  | .uint bits => ⟨.integer false bits, []⟩
  | .int bits => ⟨.integer true bits, []⟩
  | .enumeration name members =>
    ⟨.enumeration name (if members.length = 0 then 256 else members.length), []⟩
  | .fixedBytes size => ⟨.fixedBytes size, []⟩
  | .userDefined name underlying => ⟨.userDefined name 0, [⟨none, underlying.tree⟩]⟩
  | .bytes => ⟨.bytes, []⟩
  | .string => ⟨.string, []⟩
  | .array base length => ⟨.array 0 length, [⟨none, base.tree⟩]⟩
  | .struct name members => ⟨.struct name [], memberTrees members⟩
  | .tuple members => ⟨.tuple [], memberTrees members⟩
  | .function name parameters returns mutability => ⟨.function name 0 0 mutability,
      [⟨none, .tuple [], memberTrees parameters⟩, ⟨none, .tuple [], memberTrees returns⟩]⟩
  | .error name parameters => ⟨.error name 0, [⟨none, .tuple [], memberTrees parameters⟩]⟩
  | .event name parameters anonymous => ⟨.event name 0 0 (parameters.map EventParameter.indexed) anonymous,
      [⟨none, .tuple [], parameterTrees parameters⟩, ⟨none, .tuple [], dataTrees parameters⟩]⟩
/-- The trees of members with the labels that their names give. -/
def memberTrees : List (Member Description) → List (Labelled Tree)
  | [] => []
  | ⟨name, type⟩ :: rest => ⟨labelOf name, type.tree⟩ :: memberTrees rest
/-- The trees of parameters with the labels that their names give. -/
def parameterTrees : List (EventParameter Description) → List (Labelled Tree)
  | [] => []
  | ⟨name, type, _⟩ :: rest => ⟨labelOf name, type.tree⟩ :: parameterTrees rest
/-- The trees of the parameters that are no topics. -/
def dataTrees : List (EventParameter Description) → List (Labelled Tree)
  | [] => []
  | ⟨name, type, indexed⟩ :: rest =>
    if indexed then dataTrees rest else ⟨labelOf name, type.tree⟩ :: dataTrees rest
end

/-- The parameters of an event that are no topics. -/
def dataMembers (parameters : List (EventParameter Description)) : List (Member Description) :=
  (parameters.filter fun parameter => !parameter.indexed).map EventParameter.member

/-- Members are valid if each of them is valid and neither an error nor an event. -/
theorem areValid_iff {members : List (Member Description)} : areValid members = true ↔
    (∀ member ∈ members, member.type.isValid = true) ∧ ∀ member ∈ members, member.type.isSignature = false := by
  induction members with
  | nil => simp [areValid]
  | cons member rest ih =>
    simp only [areValid, Bool.and_eq_true, Bool.not_eq_true', ih, List.forall_mem_cons]
    exact ⟨fun ⟨⟨own, valid⟩, others, plain⟩ => ⟨⟨valid, others⟩, own, plain⟩,
      fun ⟨⟨valid, others⟩, own, plain⟩ => ⟨⟨own, valid⟩, others, plain⟩⟩

/-- Parameters of events are valid as members are. -/
theorem parametersAreValid_eq (parameters : List (EventParameter Description)) :
    parametersAreValid parameters = areValid (parameters.map EventParameter.member) := by
  induction parameters with
  | nil => rfl
  | cons parameter rest ih => rw [parametersAreValid, ih]; rfl

/-- The shapes of members, one for each. -/
theorem memberShapes_eq_map (members : List (Member Description)) :
    memberShapes members = members.map fun member => member.type.shape := by
  induction members with
  | nil => rfl
  | cons member rest ih => rw [memberShapes, ih, List.map_cons]

/-- Parameters of events have shapes as members have. -/
theorem parameterShapes_eq (parameters : List (EventParameter Description)) :
    parameterShapes parameters = memberShapes (parameters.map EventParameter.member) := by
  induction parameters with
  | nil => rfl
  | cons parameter rest ih => rw [parameterShapes, ih]; rfl

/-- The trees of members, one for each. -/
theorem memberTrees_eq_map (members : List (Member Description)) :
    memberTrees members = members.map fun member => ⟨labelOf member.name, member.type.tree⟩ := by
  induction members with
  | nil => rfl
  | cons member rest ih => rw [memberTrees, ih, List.map_cons]

/-- Parameters of events name trees as members do. -/
theorem parameterTrees_eq (parameters : List (EventParameter Description)) :
    parameterTrees parameters = memberTrees (parameters.map EventParameter.member) := by
  induction parameters with
  | nil => rfl
  | cons parameter rest ih => rw [parameterTrees, ih]; rfl

/-- So do those that are no topics. -/
theorem dataTrees_eq (parameters : List (EventParameter Description)) :
    dataTrees parameters = memberTrees (dataMembers parameters) := by
  induction parameters with
  | nil => rfl
  | cons parameter rest ih =>
    obtain ⟨name, type, indexed⟩ := parameter
    cases indexed <;> rw [dataTrees, ih] <;> rfl

/-- The shape of an error or an event is a signature, and no other one is. -/
theorem isSignature_shape (description : Description) : description.shape.isSignature = description.isSignature := by
  cases description <;> rfl

/-- A user-defined type may be around the shape of a value type that is no function, and around no other one. -/
theorem isWrappable_shape (description : Description) : description.shape.isWrappable = description.isWrappable := by
  cases description <;> rfl

end Description

namespace Arena

/-- Whether a node without label and owner shows what a description names. -/
structure Presents (arena : Arena) (limit : Nat) (id : NodeId) (description : Description) : Prop where
  /-- The node has the shape. -/
  has : arena.Has id description.shape
  /-- It has no owner. -/
  free : arena.parent id = none
  /-- It has no label. -/
  unlabelled : arena.label id = none
  /-- It shows the tree. -/
  shows : arena.Shows limit id description.tree

/-- Whether different nodes without label and owner show what members name, and have their names. -/
structure PresentsAll (arena : Arena) (limit : Nat) (nodes : List (String × NodeId))
    (members : List (Member Description)) : Prop where
  /-- The nodes are different. -/
  once : (nodes.map Prod.snd).Nodup
  /-- Each of them shows what the member names. -/
  each : List.Forall₂ (fun node member => node.1 = member.name ∧ arena.Presents limit node.2 member.type) nodes members

/-- Whether a new node without label and owner shows what a description names, and of what was there before only nodes
that are listed have changed. -/
structure Raised (arena : Arena) (limit : Nat) (nodes : List (String × NodeId)) (description : Description)
    (root : NodeId) (later : Arena) : Prop where
  /-- The node was not there. -/
  fresh : arena.size ≤ root
  /-- Other nodes have not changed. -/
  touched : arena.Touches nodes (nodes.map Prod.snd) later
  /-- The arena is sound. -/
  sound : later.Sound
  /-- The node shows what the description names. -/
  presents : later.Presents limit root description

section

variable {arena reached later : Arena} {limit limit' : Nat} {id root : NodeId} {description : Description}
  {labelled nodes : List (String × NodeId)} {adopted : List NodeId} {members : List (Member Description)}

/-- A node goes on to present its description if it is not touched. -/
theorem Presents.touches (h : arena.Presents limit id description) (sound : arena.Sound)
    (touched : arena.Touches labelled adopted later) (unnamed : id ∉ labelled.map Prod.snd) (unowned : id ∉ adopted) :
    later.Presents limit id description := by
  have same := touched.node h.has.1 unnamed unowned
  exact ⟨h.has.grows (touched.grows sound), (congrArg Node.parent same).trans h.free,
    (congrArg Node.label same).trans h.unlabelled, h.shows.touches touched⟩

/-- A node presents its description above a lower limit, too. -/
theorem Presents.weaken (h : arena.Presents limit id description) (low : limit' ≤ limit) :
    arena.Presents limit' id description := ⟨h.has, h.free, h.unlabelled, h.shows.weaken low⟩

/-- A copy presents the description that is presented by the node. -/
theorem Presents.duplicated {copy : NodeId} (h : arena.Presents limit id description)
    (copied : arena.Duplicates id (later, copy)) : later.Presents arena.size copy description := by
  have label : later.label copy = arena.label id := by
    obtain ⟨-, -, -, same, -⟩ := copied.mirrors
    exact same
  exact ⟨⟨copied.adds.inside, copied.adds.shaped.trans h.has.2⟩, copied.free, label.trans h.unlabelled,
    copied.mirrors.shows h.shows⟩

/-- A node that presents a description is no lower than the limit. -/
theorem Presents.fresh (h : arena.Presents limit id description) : limit ≤ id := by
  obtain ⟨fresh, -⟩ := h.shows
  exact fresh

/-- Nodes go on to present members if they are not touched. -/
theorem PresentsAll.touches (h : arena.PresentsAll limit nodes members) (sound : arena.Sound)
    (touched : arena.Touches labelled adopted later)
    (apart : ∀ id ∈ nodes.map Prod.snd, id ∉ labelled.map Prod.snd ∧ id ∉ adopted) :
    later.PresentsAll limit nodes members := by
  refine ⟨h.once, List.forall₂_iff_zip.mpr ⟨h.each.length_eq, fun listed => ?_⟩⟩
  obtain ⟨named, presents⟩ := List.forall₂_zip h.each listed
  obtain ⟨unnamed, unowned⟩ := apart _ (List.mem_map_of_mem (List.of_mem_zip listed).1)
  exact ⟨named, presents.touches sound touched unnamed unowned⟩

/-- Nodes present members above a lower limit, too. -/
theorem PresentsAll.weaken (h : arena.PresentsAll limit nodes members) (low : limit' ≤ limit) :
    arena.PresentsAll limit' nodes members :=
  ⟨h.once, h.each.imp fun _ _ ⟨named, presents⟩ => ⟨named, presents.weaken low⟩⟩

/-- What holds of every node that presents a description holds of all nodes. -/
theorem PresentsAll.forall {known : NodeId → Prop} (h : arena.PresentsAll limit nodes members)
    (each : ∀ id description, arena.Presents limit id description → known id) :
    ∀ id ∈ nodes.map Prod.snd, known id := by
  obtain ⟨-, present⟩ := h
  induction present with
  | nil => exact nofun
  | cons own _ ih => exact List.forall_mem_cons.mpr ⟨each _ _ own.2, ih⟩

/-- Nodes have the shapes of the members that they present. -/
theorem PresentsAll.hasAll (h : arena.PresentsAll limit nodes members) :
    arena.HasAll (nodes.map Prod.snd) (Description.memberShapes members) := by
  refine ⟨h.forall fun _ _ presents => presents.has.1, ?_⟩
  rw [Description.memberShapes_eq_map, List.map_map, ← List.forall₂_eq_eq_eq, List.forall₂_map_left_iff,
    List.forall₂_map_right_iff]
  exact h.each.imp fun _ _ ⟨_, presents⟩ => presents.has.2

/-- Nodes are signatures if the members that they present are. -/
theorem PresentsAll.allPlain_iff (h : arena.PresentsAll limit nodes members) :
    arena.AllPlain nodes ↔ ∀ member ∈ members, member.type.isSignature = false := by
  obtain ⟨-, present⟩ := h
  unfold AllPlain
  induction present with
  | nil => simp
  | cons own _ ih =>
    rw [List.map_cons, List.forall_mem_cons, List.forall_mem_cons, ih, own.2.has.2, Description.isSignature_shape]

/-- One more node presents a member and is different from the others. -/
theorem presentsAll_cons {node : String × NodeId} {member : Member Description} :
    arena.PresentsAll limit (node :: nodes) (member :: members) ↔ node.1 = member.name ∧
      arena.Presents limit node.2 member.type ∧ node.2 ∉ nodes.map Prod.snd ∧
        arena.PresentsAll limit nodes members := by
  constructor
  · intro ⟨once, each⟩
    obtain ⟨apart, once'⟩ := List.nodup_cons.mp once
    obtain ⟨⟨named, presents⟩, others⟩ := List.forall₂_cons.mp each
    exact ⟨named, presents, apart, once', others⟩
  · intro ⟨named, presents, apart, once, others⟩
    exact ⟨List.nodup_cons.mpr ⟨apart, once⟩, .cons ⟨named, presents⟩ others⟩

/-- A node presents a member beside those that are appended behind it. -/
theorem Presents.present_cons {node : String × NodeId} {member : Member Description}
    (h : reached.Presents limit node.2 member.type) (named : node.1 = member.name) (sound : reached.Sound)
    (appended : reached.Appends later) (low : limit ≤ reached.size)
    (present : later.PresentsAll reached.size nodes members) :
    later.PresentsAll limit (node :: nodes) (member :: members) := by
  refine presentsAll_cons.mpr ⟨named, h.touches sound appended nofun nofun, fun listed => ?_, present.weaken low⟩
  exact Nat.not_le.mpr h.has.1 (present.forall (fun _ _ presents => presents.fresh) _ listed)

/-- What touches nodes only that have been appended leaves what was there before. -/
theorem Raised.of_fresh (h : reached.Raised limit nodes description root later) (appended : arena.Appends reached)
    (fresh : ∀ id ∈ nodes.map Prod.snd, arena.size ≤ id) : arena.Raised limit [] description root later :=
  ⟨Nat.le_trans appended.size h.fresh,
    appended.fresh h.touched (fun _ listed => fresh _ (List.mem_map_of_mem listed)) fresh, h.sound, h.presents⟩

end

end Arena

namespace Construction

open Arena

section

variable {arena : Arena} {limit : Nat} {nodes : List (String × NodeId)} {members : List (Member Description)}
  {left : Arena → Prop}

/-- A composite of nodes that present members shows their trees. -/
theorem addComposite_shows (ofMembers : List NodeId → Kind) (parts : ∀ ids, (ofMembers ids).children = ids)
    (owner : String) (sound : arena.Sound) (low : limit ≤ arena.size)
    (present : arena.PresentsAll limit nodes members) :
    Ends (do addNode (ofMembers (← claimMembers owner nodes))) arena
      (∀ member ∈ members, member.type.isSignature = false)
      (fun root later => (arena.AppendsRoot root later ∧ arena.Touches nodes (nodes.map Prod.snd) later) ∧
        later.Shows limit root ⟨(ofMembers (nodes.map Prod.snd)).blank, Description.memberTrees members⟩)
      (arena.Touches nodes (nodes.map Prod.snd)) := by
  let ids := nodes.map Prod.snd
  have inside : ∀ id ∈ ids, id < arena.size := present.hasAll.1
  have free : ∀ id ∈ ids, arena.parent id = none := present.forall fun _ _ presents => presents.free
  have claimed : arena.AllPlain nodes →
      (claimMembers owner nodes).runOn arena = (.ok ids, arena.named nodes) := fun plain =>
    claimMembers_of_free owner nodes arena fun id listed => ⟨free id listed, plain id listed⟩
  have run : arena.AllPlain nodes → (do addNode (ofMembers (← claimMembers owner nodes))).runOn arena =
      (.ok (arena.named nodes).size, ((arena.named nodes).pushOwner (ofMembers ids)).1) := by
    intro plain
    rw [runOn_bind, claimed plain]
    rfl
  refine (((((addComposite_ends ofMembers parts owner sound inside).knowing).exactly run).of_iff
    present.allPlain_iff).weaken (fun root later ⟨⟨own, ends⟩, plain, done⟩ => ⟨done, ?_⟩) fun later ⟨_, touched⟩ => ?_)
  · subst own ends
    have taken := (claimMembers_ends owner sound inside).of_ok (claimed plain)
    have shown : List.Forall₂ (fun child part => (arena.named nodes).label child = part.label ∧
        (arena.named nodes).Shows limit child part.type) (ofMembers ids).children
          (Description.memberTrees members) := by
      rw [parts, Description.memberTrees_eq_map, List.forall₂_map_left_iff, List.forall₂_map_right_iff]
      refine List.forall₂_iff_zip.mpr ⟨present.each.length_eq, fun listed => ?_⟩
      obtain ⟨named, presents⟩ := List.forall₂_zip present.each listed
      refine ⟨?_, presents.shows.touches taken.touched⟩
      rw [label_named inside present.once _ (List.of_mem_zip listed).1, presents.unlabelled, named]
      rfl
    refine shows_pushOwner (arena.size_named nodes ▸ low) ?_ ((parts ids).symm ▸ present.once) shown
    rw [parts]
    exact fun child listed => ⟨taken.inside child listed, taken.free child listed⟩
  · exact touched.mono (fun entry listed _ _ => (List.takeWhile_sublist _).subset listed) nofun

/-- What shows the tree of a description and has its shape has been added as the description says. -/
theorem Ends.raises {construction : Construction NodeId} {valid : Prop} {known : Arena → Prop}
    {description : Description} (shows : Ends construction arena valid (fun root later =>
      (arena.AppendsRoot root later ∧ arena.Touches nodes (nodes.map Prod.snd) later) ∧
        later.Shows limit root description.tree) left)
    (built : Builds construction known fun id arena => arena.Has id description.shape) (sound : arena.Sound)
    (knows : known arena) : Ends construction arena valid (arena.Raised limit nodes description) left :=
  (shows.builds built sound knows).establish fun _ _ ⟨⟨⟨added, touched⟩, shows⟩, sound', has⟩ =>
    ⟨added.fresh, touched, sound', has, added.free, added.unlabelled, shows⟩

/-- A struct of nodes that present its members is added. -/
theorem addStruct_raises (name : String) (sound : arena.Sound) (low : limit ≤ arena.size)
    (present : arena.PresentsAll limit nodes members) :
    Ends (addStruct name nodes) arena (∀ member ∈ members, member.type.isSignature = false)
      (arena.Raised limit nodes (.struct name members)) (arena.Touches nodes (nodes.map Prod.snd)) :=
  (addComposite_shows (.struct name) (fun _ => rfl) name sound low present).raises (addStruct_builds name nodes _) sound
    present.hasAll

/-- A tuple of nodes that present its members is added. -/
theorem addTuple_raises (sound : arena.Sound) (low : limit ≤ arena.size)
    (present : arena.PresentsAll limit nodes members) :
    Ends (addTuple nodes) arena (∀ member ∈ members, member.type.isSignature = false)
      (arena.Raised limit nodes (.tuple members)) (arena.Touches nodes (nodes.map Prod.snd)) :=
  (addComposite_shows .tuple (fun _ => rfl) "tuple" sound low present).raises (addTuple_builds nodes _) sound
    present.hasAll

/-- A node of different ones that present descriptions shows their trees. -/
theorem addOwner_shows (kind : Kind) {descriptions : List Description} (low : limit ≤ arena.size)
    (once : kind.children.Nodup) (present : List.Forall₂ (arena.Presents limit) kind.children descriptions) :
    Ends (addNode kind) arena True (fun root later => (arena.AppendsRoot root later ∧
      arena.Touches [] kind.children later) ∧
        later.Shows limit root ⟨kind.blank, descriptions.map fun description => ⟨none, description.tree⟩⟩) left := by
  have free : ∀ child ∈ kind.children, child < arena.size ∧ arena.parent child = none := by
    intro child listed
    obtain ⟨index, there, rfl⟩ := List.mem_iff_getElem.mp listed
    have presents := present.get there (present.length_eq ▸ there)
    exact ⟨presents.has.1, presents.free⟩
  refine ((addNode_ends free).exactly fun _ => rfl).establish fun root later ⟨⟨own, ends⟩, done⟩ => ⟨done, ?_⟩
  subst own ends
  refine shows_pushOwner low free once ?_
  rw [List.forall₂_map_right_iff]
  exact present.imp fun _ _ presents => ⟨presents.unlabelled, presents.shows⟩

/-- An error of nodes that present its parameters is added. -/
theorem addError_raises (name : String) (sound : arena.Sound) (low : limit ≤ arena.size)
    (present : arena.PresentsAll limit nodes members) :
    Ends (addError name nodes) arena (∀ member ∈ members, member.type.isSignature = false)
      (arena.Raised limit nodes (.error name members)) (arena.Touches nodes (nodes.map Prod.snd)) := by
  refine Ends.raises ((addTuple_raises sound low present).finish fun tuple reached raised => ?_)
    (addError_builds name nodes _) sound present.hasAll
  refine (addOwner_shows (.error name tuple) (Nat.le_trans low raised.touched.size) (List.nodup_singleton tuple)
    (.cons raised.presents .nil)).establish fun root later ⟨⟨added, touched⟩, shows⟩ =>
      ⟨⟨added.earlier raised.touched.size, raised.touched.fresh touched nofun ?_⟩, shows⟩
  exact List.forall_mem_singleton.mpr raised.fresh

/-- A node of two tuples is added, which are made of different nodes that present their members. -/
theorem addTuples_shows (kindOf : NodeId → NodeId → Kind) (parts : ∀ first second, (kindOf first second).children =
      [first, second]) (sound : arena.Sound) (low : limit ≤ arena.size) {nodes' : List (String × NodeId)}
    {members' : List (Member Description)} (present : arena.PresentsAll limit nodes members)
    (present' : arena.PresentsAll limit nodes' members') (apart : ∀ id ∈ nodes'.map Prod.snd, id ∉ nodes.map Prod.snd) :
    Ends (do
        let first ← addTuple nodes
        let second ← addTuple nodes'
        addNode (kindOf first second)) arena
      ((∀ member ∈ members, member.type.isSignature = false) ∧ ∀ member ∈ members', member.type.isSignature = false)
      (fun root later => (arena.AppendsRoot root later ∧
        arena.Touches (nodes ++ nodes') ((nodes ++ nodes').map Prod.snd) later) ∧
        ∃ first second, later.Shows limit root ⟨(kindOf first second).blank,
          [⟨none, (Description.tuple members).tree⟩, ⟨none, (Description.tuple members').tree⟩]⟩)
      (arena.Touches (nodes ++ nodes') ((nodes ++ nodes').map Prod.snd)) := by
  refine ((addTuple_raises sound low present).leave fun later touched =>
    touched.mono (fun _ listed _ _ => List.mem_append_left nodes' listed) fun _ listed _ => ?_).bind
      fun first reached raised => ?_
  · rw [List.map_append]
    exact List.mem_append_left _ listed
  have both : ∀ {later : Arena}, reached.Touches nodes' (nodes'.map Prod.snd) later →
      arena.Touches (nodes ++ nodes') ((nodes ++ nodes').map Prod.snd) later := by
    intro later touched
    rw [List.map_append]
    exact raised.touched.trans touched
  have low' : limit ≤ reached.size := Nat.le_trans low raised.touched.size
  have others := present'.touches sound raised.touched fun id listed => ⟨apart id listed, apart id listed⟩
  refine ((addTuple_raises raised.sound low' others).leave fun _ => both).finish fun second reached' raised' => ?_
  have earlier : ∀ id ∈ nodes'.map Prod.snd, id < arena.size := present'.hasAll.1
  have unlisted : first ∉ nodes'.map Prod.snd := fun listed => Nat.not_le.mpr (earlier first listed) raised.fresh
  have presents := raised.presents.touches raised.sound raised'.touched unlisted unlisted
  have different : first ≠ second := Nat.ne_of_lt (Nat.lt_of_lt_of_le raised.presents.has.1 raised'.fresh)
  have once : (kindOf first second).children.Nodup := by
    rw [parts]
    simpa using different
  have present : List.Forall₂ (reached'.Presents limit) (kindOf first second).children
      [.tuple members, .tuple members'] := by
    rw [parts]
    exact .cons presents (.cons raised'.presents .nil)
  have grown := Nat.le_trans raised.touched.size raised'.touched.size
  refine (addOwner_shows (kindOf first second) (Nat.le_trans low grown) once present).establish
    fun root later ⟨⟨added, touched⟩, shows⟩ => ⟨⟨added.earlier grown, ?_⟩, first, second, shows⟩
  rw [parts] at touched
  refine (both raised'.touched).fresh touched nofun ?_
  exact List.forall_mem_cons.mpr ⟨raised.fresh, List.forall_mem_singleton.mpr
    (Nat.le_trans raised.touched.size raised'.fresh)⟩

/-- A function of nodes that present its parameters and returns is added. -/
theorem addFunction_raises (name : String) (mutability : Mutability) (sound : arena.Sound) (low : limit ≤ arena.size)
    {nodes' : List (String × NodeId)} {members' : List (Member Description)}
    (present : arena.PresentsAll limit nodes members) (present' : arena.PresentsAll limit nodes' members')
    (apart : ∀ id ∈ nodes'.map Prod.snd, id ∉ nodes.map Prod.snd) :
    Ends (addFunction name nodes nodes' mutability) arena
      ((∀ member ∈ members, member.type.isSignature = false) ∧ ∀ member ∈ members', member.type.isSignature = false)
      (arena.Raised limit (nodes ++ nodes') (.function name members members' mutability))
      (arena.Touches (nodes ++ nodes') ((nodes ++ nodes').map Prod.snd)) :=
  have shows := addTuples_shows (.function name · · mutability) (fun _ _ => rfl) sound low present present' apart
  (shows.establish fun _ _ ⟨done, _, _, shows⟩ => ⟨done, shows⟩).raises
    (addFunction_builds name nodes nodes' mutability _ _) sound ⟨present.hasAll, present'.hasAll⟩

/-- Parameters that are no topics are copied, and the copies present the data. -/
theorem copyData_presents {nodes : List (EventParameter NodeId)} {parameters : List (EventParameter Description)}
    (sound : arena.Sound) (indexed : nodes.map EventParameter.indexed = parameters.map EventParameter.indexed)
    (present : arena.PresentsAll limit (EventParameter.entries nodes)
      (parameters.map EventParameter.member)) :
    Ends (copyData nodes) arena True (fun data later => arena.Appends later ∧ later.Sound ∧
      later.PresentsAll arena.size data (Description.dataMembers parameters)) left := by
  induction nodes generalizing arena parameters with
  | nil =>
    cases parameters with
    | nil => exact .pure ⟨.refl arena, sound, List.nodup_nil, .nil⟩
    | cons => cases indexed
  | cons node rest ih =>
    cases parameters with
    | nil => cases indexed
    | cons parameter others =>
      obtain ⟨same, indexed'⟩ := List.cons.inj indexed
      obtain ⟨named, presents, -, present'⟩ := presentsAll_cons.mp present
      obtain ⟨name, type, topic⟩ := parameter
      obtain rfl : node.indexed = topic := same
      rw [copyData]
      split
      · rename_i topic
        rw [Description.dataMembers, List.filter_cons_of_neg (by simp [topic])]
        exact ih sound indexed' present'
      · rename_i data
        rw [Description.dataMembers, List.filter_cons_of_pos (by simpa using data)]
        refine .after (deepCopy_ends sound presents.has.1) fun copy reached copied => .map ?_
        have kept := present'.touches sound copied.appended fun _ _ => ⟨nofun, nofun⟩
        refine (ih copied.adds.sound indexed' kept).establish fun data later ⟨appended, sound', presents'⟩ =>
          ⟨copied.appended.trans appended, sound', ?_⟩
        have own := (presents.duplicated copied).touches copied.adds.sound appended nofun nofun
        refine presentsAll_cons.mpr ⟨named, own, fun listed => ?_, presents'.weaken copied.appended.size⟩
        exact Nat.not_le.mpr copied.adds.inside (presents'.forall (fun _ _ presents => presents.fresh) _ listed)

/-- An event of nodes that present its parameters is added. -/
theorem addEvent_raises (name : String) (anonymous : Bool) {nodes : List (EventParameter NodeId)}
    {parameters : List (EventParameter Description)} (sound : arena.Sound) (low : limit ≤ arena.size)
    (indexed : nodes.map EventParameter.indexed = parameters.map EventParameter.indexed)
    (present : arena.PresentsAll limit (EventParameter.entries nodes)
      (parameters.map EventParameter.member)) :
    Ends (addEvent name nodes anonymous) arena
      (∀ member ∈ parameters.map EventParameter.member, member.type.isSignature = false)
      (arena.Raised limit (EventParameter.entries nodes) (.event name parameters anonymous))
      (arena.Touches (EventParameter.entries nodes)
        ((EventParameter.entries nodes).map Prod.snd)) := by
  have plain : (∀ member ∈ parameters.map EventParameter.member, member.type.isSignature = false) →
      ∀ member ∈ Description.dataMembers parameters, member.type.isSignature = false := fun known member listed =>
    known member ((List.filter_sublist.map _).subset listed)
  have has : arena.HasAll (nodes.map EventParameter.type) (Description.parameterShapes parameters) := by
    have there := present.hasAll
    rw [EventParameter.map_snd_entries] at there
    exact Description.parameterShapes_eq parameters ▸ there
  have built : Builds (addEvent name nodes anonymous) (·.HasAll (nodes.map EventParameter.type)
      (Description.parameterShapes parameters)) fun id arena =>
        arena.Has id (Description.event name parameters anonymous).shape := by
    rw [Description.shape, ← indexed]
    exact addEvent_builds name nodes anonymous _
  refine Ends.raises (.after (copyData_presents sound indexed present) fun data reached
    ⟨appended, sound', present'⟩ => ?_)
    built sound has
  have fresh : ∀ id ∈ data.map Prod.snd, arena.size ≤ id := present'.forall fun _ _ presents => presents.fresh
  have inside := present.hasAll.1
  have apart : ∀ id ∈ data.map Prod.snd, id ∉ (EventParameter.entries nodes).map Prod.snd :=
    fun id new listed => Nat.not_le.mpr (inside id listed) (fresh id new)
  have old : ∀ {later : Arena}, reached.Touches ((EventParameter.entries nodes) ++ data)
      (((EventParameter.entries nodes) ++ data).map Prod.snd) later →
      arena.Touches (EventParameter.entries nodes)
        ((EventParameter.entries nodes).map Prod.snd) later := by
    intro later touched
    refine (appended.touches touched).mono (fun entry listed _ inside => ?_) fun id listed inside => ?_
    · exact (List.mem_append.mp listed).resolve_right fun new =>
        Nat.not_le.mpr inside (fresh _ (List.mem_map_of_mem new))
    · rw [List.map_append] at listed
      exact (List.mem_append.mp listed).resolve_right fun new => Nat.not_le.mpr inside (fresh id new)
  have tuples := addTuples_shows (.event name · · (nodes.map EventParameter.indexed) anonymous) (fun _ _ => rfl) sound'
    (Nat.le_trans low appended.size) (present.touches sound appended fun _ _ => ⟨nofun, nofun⟩) (present'.weaken low)
    apart
  refine (tuples.of_iff ⟨And.left, fun known => ⟨known, plain known⟩⟩).weaken
    (fun root later ⟨⟨added, touched⟩, _, _, shows⟩ => ⟨⟨added.earlier appended.size, old touched⟩, ?_⟩) fun _ => old
  rw [Description.tree, Description.parameterTrees_eq, Description.dataTrees_eq, ← indexed]
  exact shows

/-- A node around one that presents a description shows its tree. -/
theorem addWrapper_shows (ofPart : NodeId → Kind) (parts : ∀ id, (ofPart id).children = [id]) {node : NodeId}
    {description : Description} (low : limit ≤ arena.size) (presents : arena.Presents limit node description) :
    Ends (do addNode (ofPart (← claim node))) arena True (fun root later => (arena.AppendsRoot root later ∧
      arena.Touches [("", node)] [node] later) ∧
        later.Shows limit root ⟨(ofPart node).blank, [⟨none, description.tree⟩]⟩) left := by
  have claimed : Ends (claim node) arena True (fun copy later => copy = node ∧ later = arena) left := by
    refine .operation ?_
    rw [Arena.claim, presents.free]
    exact ⟨rfl, rfl⟩
  refine claimed.finish fun copy reached unchanged => ?_
  obtain ⟨same, same'⟩ := unchanged
  subst same same'
  have once : (ofPart copy).children.Nodup := (parts copy).symm ▸ List.nodup_singleton copy
  have present : List.Forall₂ (reached.Presents limit) (ofPart copy).children [description] :=
    (parts copy).symm ▸ .cons presents .nil
  refine (addOwner_shows (ofPart copy) low once present).establish fun root later shown => ?_
  obtain ⟨⟨added, touched⟩, shows⟩ := shown
  rw [parts] at touched
  exact ⟨⟨added, touched.mono (List.forall_mem_nil _) fun _ listed _ => listed⟩, shows⟩

/-- A user-defined type around a node that presents what it is around is added. -/
theorem addUserDefined_raises (name : String) {node : NodeId} {description : Description} (sound : arena.Sound)
    (low : limit ≤ arena.size) (presents : arena.Presents limit node description) :
    Ends (addUserDefined name node) arena (description.isWrappable = true)
      (arena.Raised limit [("", node)] (.userDefined name description)) (arena.Touches [("", node)] [node]) := by
  refine Ends.raises ((addUserDefined_ends (addWrapper_shows (.userDefined name) (fun _ => rfl) low presents)
    (.refl arena)).of_iff ?_) (addUserDefined_builds name node) sound presents.has
  rw [presents.has.2, Description.isWrappable_shape]

/-- An array of a node that presents its elements is added. -/
theorem addArray_raises (length : Option Nat) {node : NodeId} {description : Description} (sound : arena.Sound)
    (low : limit ≤ arena.size) (presents : arena.Presents limit node description) :
    Ends (addArray node length) arena (length ≠ some 0 ∧ description.isSignature = false)
      (arena.Raised limit [("", node)] (.array description length)) (arena.Touches [("", node)] [node]) := by
  refine Ends.raises ((addArray_ends (addWrapper_shows (.array · length) (fun _ => rfl) low presents)
    (.refl arena)).of_iff ?_) (addArray_builds node length) sound presents.has
  rw [presents.has.2, Description.isSignature_shape]

/-- A node without parts shows a tree without parts. -/
theorem addLeaf_shows {kind : Kind} (leaf : kind.children = []) :
    Ends (addNode kind) arena True (fun root later => (arena.AppendsRoot root later ∧ arena.Touches [] [] later) ∧
      later.Shows arena.size root ⟨kind.blank, []⟩) left := by
  have once : kind.children.Nodup := leaf.symm ▸ List.nodup_nil
  have present : List.Forall₂ (arena.Presents arena.size) kind.children [] := leaf.symm ▸ .nil
  have shows := @addOwner_shows arena arena.size left kind [] (Nat.le_refl _) once present
  rw [leaf] at shows
  exact shows

/-- A description of a type without parts is built. -/
theorem addLeaf_raises {kind : Kind} {description : Description} (leaf : kind.children = [])
    (tree : description.tree = ⟨kind.blank, []⟩) (same : ∀ arena : Arena, arena.shapeOfKind kind = description.shape)
    (legal : description.shape.isLegal = true) (sound : arena.Sound) :
    Ends (addNode kind) arena True (arena.Raised arena.size [] description) left := by
  have built : Builds (addNode kind) (fun _ => True) fun id arena => arena.Has id description.shape :=
    addLeaf_builds kind leaf same legal
  refine Ends.raises ?_ built sound trivial
  rw [tree]
  exact addLeaf_shows leaf

/-- An integer is built if its width is legal. -/
theorem addInteger_raises {signed : Bool} {bits : Nat} {description : Description}
    (tree : description.tree = ⟨.integer signed bits, []⟩) (same : description.shape = .integer signed bits)
    (sound : arena.Sound) : Ends (addInteger signed bits) arena (8 ≤ bits ∧ bits ≤ 256 ∧ bits % 8 = 0)
      (arena.Raised arena.size [] description) arena.Appends := by
  have built : Builds (addInteger signed bits) (fun _ => True) fun id arena => arena.Has id description.shape :=
    same ▸ addInteger_builds signed bits
  refine Ends.raises (addInteger_ends ?_ (.refl arena)) built sound trivial
  rw [tree]
  exact addLeaf_shows rfl

/-- A byte string of a fixed size is built if its size is legal. -/
theorem addFixedBytes_raises (size : Nat) (sound : arena.Sound) : Ends (addFixedBytes size) arena
    (1 ≤ size ∧ size ≤ 32) (arena.Raised arena.size [] (.fixedBytes size)) arena.Appends := by
  have built : Builds (addFixedBytes size) (fun _ => True) fun id arena => arena.Has id (.fixedBytes size) :=
    addFixedBytes_builds size
  exact Ends.raises (addFixedBytes_ends (addLeaf_shows rfl) (.refl arena)) built sound trivial

/-- An enumeration is built if there are not too many members. -/
theorem addEnumeration_raises (name : String) (members : List String) (sound : arena.Sound) :
    Ends (addEnumeration name members.length) arena (members.length ≤ 256)
      (arena.Raised arena.size [] (.enumeration name members)) arena.Appends := by
  have built : Builds (addEnumeration name members.length) (fun _ => True) fun id arena =>
      arena.Has id (Description.enumeration name members).shape := addEnumeration_builds name members.length
  exact Ends.raises (addEnumeration_ends (addLeaf_shows rfl) (.refl arena)) built sound trivial

/-- What is done with nodes that have been appended changes nothing that was there before. -/
theorem Ends.of_fresh {construction : Construction NodeId} {valid : Prop} {reached : Arena} {description : Description}
    (h : Ends construction reached valid (reached.Raised limit nodes description)
      (reached.Touches nodes (nodes.map Prod.snd))) (appended : arena.Appends reached)
    (fresh : ∀ id ∈ nodes.map Prod.snd, arena.size ≤ id) :
    Ends construction reached valid (arena.Raised limit [] description) arena.Appends :=
  h.weaken (fun _ _ raised => raised.of_fresh appended fresh) fun _ touched =>
    appended.fresh touched (fun _ listed => fresh _ (List.mem_map_of_mem listed)) fresh

mutual
/-- A description is built exactly if it is valid. -/
theorem build_ends {arena : Arena} (description : Description) (sound : arena.Sound) : Ends (build description) arena
    (description.isValid = true) (arena.Raised arena.size [] description) arena.Appends := by
  have fresh : ∀ {later : Arena} {nodes : List (String × NodeId)} {members : List (Member Description)},
      later.PresentsAll arena.size nodes members → ∀ id ∈ nodes.map Prod.snd, arena.size ≤ id :=
    fun present => present.forall fun _ _ presents => presents.fresh
  cases description with
  | bool | address | bytes | string =>
    exact (addLeaf_raises rfl rfl (fun _ => rfl) rfl sound).of_iff (iff_of_true trivial rfl)
  | uint bits => exact (addInteger_raises rfl rfl sound).of_iff (by simp [Description.isValid, and_assoc])
  | int bits => exact (addInteger_raises rfl rfl sound).of_iff (by simp [Description.isValid, and_assoc])
  | enumeration name members => exact (addEnumeration_raises name members sound).of_iff (by simp [Description.isValid])
  | fixedBytes size => exact (addFixedBytes_raises size sound).of_iff (by simp [Description.isValid])
  | userDefined name underlying =>
    refine ((build_ends underlying sound).bind fun node reached raised =>
      (addUserDefined_raises name raised.sound raised.touched.size raised.presents).of_fresh raised.touched
        ?_).of_iff ?_
    · exact List.forall_mem_singleton.mpr raised.presents.fresh
    · rw [Description.isValid, Bool.and_eq_true, and_comm]
  | array base length =>
    refine ((build_ends base sound).bind fun node reached raised =>
      (addArray_raises length raised.sound raised.touched.size raised.presents).of_fresh raised.touched ?_).of_iff ?_
    · exact List.forall_mem_singleton.mpr raised.presents.fresh
    · simp [Description.isValid, and_comm]
  | struct name members =>
    exact ((buildMembers_ends members sound).bind fun nodes reached ⟨appended, sound', present⟩ =>
      (addStruct_raises name sound' appended.size present).of_fresh appended (fresh present)).of_iff
        Description.areValid_iff.symm
  | tuple members =>
    exact ((buildMembers_ends members sound).bind fun nodes reached ⟨appended, sound', present⟩ =>
      (addTuple_raises sound' appended.size present).of_fresh appended (fresh present)).of_iff
        Description.areValid_iff.symm
  | function name parameters returns mutability =>
    have same : ((∀ member ∈ parameters, member.type.isValid = true) ∧
        (∀ member ∈ returns, member.type.isValid = true) ∧ (∀ member ∈ parameters, member.type.isSignature = false) ∧
          ∀ member ∈ returns, member.type.isSignature = false) ↔
        (Description.function name parameters returns mutability).isValid = true := by
      rw [Description.isValid, Bool.and_eq_true, Description.areValid_iff, Description.areValid_iff]
      exact ⟨fun ⟨valid, valid', plain, plain'⟩ => ⟨⟨valid, plain⟩, valid', plain'⟩,
        fun ⟨⟨valid, plain⟩, valid', plain'⟩ => ⟨valid, valid', plain, plain'⟩⟩
    refine ((buildMembers_ends parameters sound).bind fun nodes reached ⟨appended, sound', present⟩ =>
      ((buildMembers_ends returns sound').leave fun _ left => appended.trans left).bind
        fun nodes' reached' ⟨appended', sound'', present'⟩ => ?_).of_iff same
    have both : ∀ id ∈ (nodes ++ nodes').map Prod.snd, arena.size ≤ id := by
      rw [List.map_append]
      exact List.forall_mem_append.mpr ⟨fresh present, fresh (present'.weaken appended.size)⟩
    have apart : ∀ id ∈ nodes'.map Prod.snd, id ∉ nodes.map Prod.snd := fun id new listed =>
      Nat.not_le.mpr (present.hasAll.1 id listed) (present'.forall (fun _ _ presents => presents.fresh) id new)
    exact (addFunction_raises name mutability sound'' (Nat.le_trans appended.size appended'.size)
      (present.touches sound' appended' fun _ _ => ⟨nofun, nofun⟩) (present'.weaken appended.size) apart).of_fresh
        (appended.trans appended') both
  | error name parameters =>
    exact ((buildMembers_ends parameters sound).bind fun nodes reached ⟨appended, sound', present⟩ =>
      (addError_raises name sound' appended.size present).of_fresh appended (fresh present)).of_iff
        Description.areValid_iff.symm
  | event name parameters anonymous =>
    refine ((buildParameters_ends parameters sound).bind fun nodes reached ⟨appended, sound', indexed, present⟩ =>
      (addEvent_raises name anonymous sound' appended.size indexed present).of_fresh appended (fresh present)).of_iff ?_
    rw [Description.isValid, Description.parametersAreValid_eq, Description.areValid_iff]
/-- Members are built exactly if each of them is valid. -/
theorem buildMembers_ends {arena : Arena} (members : List (Member Description)) (sound : arena.Sound) :
    Ends (buildMembers members) arena (∀ member ∈ members, member.type.isValid = true)
      (fun nodes later => arena.Appends later ∧ later.Sound ∧ later.PresentsAll arena.size nodes members)
      arena.Appends := by
  cases members with
  | nil => exact (Ends.pure ⟨.refl arena, sound, List.nodup_nil, .nil⟩).of_iff (iff_of_true trivial nofun)
  | cons member rest =>
    obtain ⟨name, type⟩ := member
    have all : (type.isValid = true ∧ ∀ member ∈ rest, member.type.isValid = true) ↔
        ∀ member ∈ (⟨name, type⟩ : Member Description) :: rest, member.type.isValid = true := by
      rw [List.forall_mem_cons]
    refine ((build_ends type sound).bind fun node reached raised => .map ?_).of_iff all
    refine (buildMembers_ends rest raised.sound).weaken (fun nodes later ⟨appended, sound', present⟩ =>
      ⟨Touches.trans raised.touched appended, sound', ?_⟩) fun _ left => Touches.trans raised.touched left
    exact raised.presents.present_cons rfl raised.sound appended raised.touched.size present
/-- Parameters of events are built exactly if each of them is valid. -/
theorem buildParameters_ends {arena : Arena} (parameters : List (EventParameter Description)) (sound : arena.Sound) :
    Ends (buildParameters parameters) arena
      (∀ member ∈ parameters.map EventParameter.member, member.type.isValid = true)
      (fun nodes later => arena.Appends later ∧ later.Sound ∧
        nodes.map EventParameter.indexed = parameters.map EventParameter.indexed ∧
        later.PresentsAll arena.size (EventParameter.entries nodes) (parameters.map EventParameter.member))
      arena.Appends := by
  cases parameters with
  | nil => exact (Ends.pure ⟨.refl arena, sound, rfl, List.nodup_nil, .nil⟩).of_iff (iff_of_true trivial nofun)
  | cons parameter rest =>
    obtain ⟨name, type, indexed⟩ := parameter
    have all : (type.isValid = true ∧ ∀ member ∈ rest.map EventParameter.member, member.type.isValid = true) ↔
        ∀ member ∈ ((⟨name, type, indexed⟩ : EventParameter Description) :: rest).map EventParameter.member,
          member.type.isValid = true := by
      rw [List.map_cons, List.forall_mem_cons]
      rfl
    refine ((build_ends type sound).bind fun node reached raised => .map ?_).of_iff all
    refine (buildParameters_ends rest raised.sound).weaken (fun nodes later ⟨appended, sound', same, present⟩ =>
      ⟨Touches.trans raised.touched appended, sound', congrArg (indexed :: ·) same, ?_⟩)
        fun _ left => Touches.trans raised.touched left
    exact raised.presents.present_cons rfl raised.sound appended raised.touched.size present
end

end

end Construction

namespace Arena

/-- A description is built exactly if it is valid. What is built is a new node without owner and label that shows the
tree of the description in new nodes only, and no node that was there has changed. -/
theorem Made.build_shows {arena : Arena} (made : arena.Made) (description : Description) :
    ((∃ root later, (Construction.build description).runOn arena = (.ok root, later)) ↔ description.isValid = true) ∧
      ∀ root later, (Construction.build description).runOn arena = (.ok root, later) →
        later.parent root = none ∧ later.label root = none ∧ later.Shows arena.size root description.tree ∧
          ∀ id < arena.size, later.node id = arena.node id := by
  have ends := Construction.build_ends description made.sound
  refine ⟨ends.succeeds_iff, fun root later run => ?_⟩
  have raised := ends.of_ok run
  exact ⟨raised.presents.free, raised.presents.unlabelled, raised.presents.shows, fun id => Appends.node raised.touched⟩

/-- An event with a topic of unknown members and an unnamed struct. -/
def traded : Description := .event "Traded" [⟨"kind", .enumeration "Kind" [], true⟩,
  ⟨"", .struct "Order" [⟨"price", .userDefined "Price" (.uint 128)⟩], false⟩] true

/-- The event is built beside another one, and the struct is both among its parameters and among its data. -/
theorem traded_build_shows :
    let order : Tree := ⟨.struct "Order" [],
      [⟨some "price", .userDefined "Price" 0, [⟨none, .integer false 128, []⟩]⟩]⟩
    transferArena.Made ∧ ∃ root later, (Construction.build traded).runOn transferArena = (.ok root, later) ∧
      later.parent root = none ∧ later.label root = none ∧
      later.Shows transferArena.size root ⟨.event "Traded" 0 0 [true, false] true,
        [⟨none, .tuple [], [⟨some "kind", .enumeration "Kind" 256, []⟩, ⟨none, order⟩]⟩,
          ⟨none, .tuple [], [⟨none, order⟩]⟩]⟩ ∧
      ∀ id < transferArena.size, later.node id = transferArena.node id := by
  obtain ⟨valid, shows⟩ := transferArena_made.build_shows traded
  obtain ⟨root, later, run⟩ := valid.mpr rfl
  exact ⟨transferArena_made, root, later, run, shows root later run⟩

end Arena

end YulAbi
