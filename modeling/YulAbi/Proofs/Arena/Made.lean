import YulAbi.Proofs.Arena.Sound

/-!
# Arenas that are made step by step

Every step that appends nodes keeps an arena sound, whether it succeeds or fails, as long as
the nodes that it is given are there. An arena that is made by such steps from an empty one is
therefore sound, and the types that are read from it have the shapes of their nodes.
-/

namespace YulAbi

open Arena (Adds Grows Sound)

/-- Whether a node is in an arena and has a shape. -/
def Arena.Has (arena : Arena) (id : NodeId) (shape : Shape) : Prop := id < arena.size ∧ arena.shape id = shape

/-- Whether nodes are in an arena and have shapes. -/
def Arena.HasAll (arena : Arena) (ids : List NodeId) (shapes : List Shape) : Prop :=
  (∀ id ∈ ids, id < arena.size) ∧ ids.map arena.shape = shapes

section

variable {arena later : Arena} {id : NodeId} {ids : List NodeId} {shape : Shape} {shapes : List Shape}

/-- A node that is there stays there. -/
theorem Arena.Has.grows (h : arena.Has id shape) (grown : arena.Grows later) : later.Has id shape :=
  ⟨Nat.lt_of_lt_of_le h.1 grown.size, (grown.shape id h.1).trans h.2⟩

/-- Nodes that are there stay there. -/
theorem Arena.HasAll.grows (h : arena.HasAll ids shapes) (grown : arena.Grows later) : later.HasAll ids shapes :=
  ⟨fun id listed => Nat.lt_of_lt_of_le (h.1 id listed) grown.size, (grown.map_shape h.1).trans h.2⟩

/-- One more node is there. -/
theorem Arena.hasAll_cons :
    arena.HasAll (id :: ids) (shape :: shapes) ↔ arena.Has id shape ∧ arena.HasAll ids shapes := by
  simp only [HasAll, Has, List.forall_mem_cons, List.map_cons, List.cons.injEq]
  exact and_and_and_comm

/-- Nodes in a sound arena have legal shapes. -/
theorem Arena.HasAll.legal (h : arena.HasAll ids shapes) (sound : arena.Sound) :
    ∀ shape ∈ shapes, shape.isLegal = true := by
  intro shape listed
  rw [← h.2] at listed
  obtain ⟨id, there, rfl⟩ := List.mem_map.mp listed
  exact sound.legal id (h.1 id there)

end

namespace Construction

/-- Whether a construction keeps an invariant of arenas if something is known of the arena, relates the arena to the one
that is left behind, and establishes something if it succeeds. -/
def Keeps {α : Type} (invariant : Arena → Prop) (grows : Arena → Arena → Prop) (construction : Construction α)
    (known : Arena → Prop) (post : α → Arena → Prop) : Prop :=
  ∀ arena, invariant arena → known arena → invariant (construction.runOn arena).2 ∧
    grows arena (construction.runOn arena).2 ∧
      ∀ value, (construction.runOn arena).1 = .ok value → post value (construction.runOn arena).2

/-- Whether a construction keeps an arena sound if something is known of the arena, and establishes something
if it succeeds. -/
abbrev Builds {α : Type} (construction : Construction α) (known : Arena → Prop) (post : α → Arena → Prop) : Prop :=
  Keeps Arena.Sound Arena.Grows construction known post

/-- An arena grows into itself. -/
instance : Std.Refl Arena.Grows := ⟨.refl⟩

/-- Growth goes on. -/
instance : IsTrans Arena Arena.Grows := ⟨fun _ _ _ => .trans⟩

section

variable {α β : Type} {known : Arena → Prop} {post : α → Arena → Prop} {goal : β → Arena → Prop}

/-- A sequence runs its first step and then, if that succeeds, the rest. -/
theorem runOn_bind (first : Construction α) (next : α → Construction β) (arena : Arena) :
    (first >>= next).runOn arena =
      match first.runOn arena with
      | (.ok value, reached) => (next value).runOn reached
      | (.error cause, reached) => (.error cause, reached) := by
  unfold runOn ExceptT.run StateT.run
  simp only [bind, ExceptT.bind, ExceptT.mk, StateT.bind, ExceptT.bindCont]
  cases first arena with
  | mk result reached => cases result <;> rfl

variable {invariant : Arena → Prop} {grows : Arena → Arena → Prop}

/-- An answer changes nothing. -/
theorem Keeps.pure [Std.Refl grows] {value : α} (h : ∀ arena, invariant arena → known arena → post value arena) :
    Keeps invariant grows (Pure.pure value) known post :=
  fun arena holds knows => ⟨holds, Std.Refl.refl arena, fun _ same => by cases same; exact h arena holds knows⟩

/-- A refusal changes nothing. -/
theorem Keeps.refuse [Std.Refl grows] (flaw : TypeFlaw) : Keeps invariant grows (refuse flaw) known post :=
  fun arena holds _ => ⟨holds, Std.Refl.refl arena, fun _ same => by cases same⟩

/-- An operation that cannot fail leaves what it makes of the arena. -/
theorem Keeps.operation {operation : Arena → Arena × NodeId} {post : NodeId → Arena → Prop}
    (h : ∀ arena, invariant arena → known arena → invariant (operation arena).1 ∧ grows arena (operation arena).1 ∧
      post (operation arena).2 (operation arena).1) :
    Keeps invariant grows (perform operation) known post := by
  intro arena holds knows
  obtain ⟨holds', grown, done⟩ := h arena holds knows
  exact ⟨holds', grown, fun _ same => by cases same; exact done⟩

/-- What the first of two steps establishes is known to the second one. -/
theorem Keeps.bind [IsTrans Arena grows] {first : Construction α} {next : α → Construction β}
    (h : Keeps invariant grows first known post) (h' : ∀ value, Keeps invariant grows (next value) (post value) goal) :
    Keeps invariant grows (first >>= next) known goal := by
  intro arena holds knows
  obtain ⟨holds', grown, established⟩ := h arena holds knows
  rw [runOn_bind]
  cases ended : first.runOn arena with
  | mk result reached =>
    rw [ended] at holds' grown established
    cases result with
    | error cause => exact ⟨holds', grown, fun _ same => by cases same⟩
    | ok value =>
      obtain ⟨holds'', grown', reached'⟩ := h' value reached holds' (established value rfl)
      exact ⟨holds'', IsTrans.trans _ _ _ grown grown', reached'⟩

/-- Nothing follows a refusal. -/
theorem Keeps.refuseFirst [Std.Refl grows] [IsTrans Arena grows] (flaw : TypeFlaw) (next : α → Construction β) :
    Keeps invariant grows (Construction.refuse flaw >>= next) known goal := by
  have refused : Keeps invariant grows (Construction.refuse flaw : Construction α) known fun _ _ => False :=
    .refuse flaw
  exact refused.bind fun _ _ _ never => never.elim

/-- What is known may be weakened, and so may what is established. -/
theorem Keeps.weaken {construction : Construction α} {weaker : Arena → Prop} {post' : α → Arena → Prop}
    (h : Keeps invariant grows construction weaker post) (knows : ∀ arena, invariant arena → known arena → weaker arena)
    (established : ∀ value arena, invariant arena → post value arena → post' value arena) :
    Keeps invariant grows construction known post' := by
  intro arena holds given
  obtain ⟨holds', grown, reached⟩ := h arena holds (knows arena holds given)
  exact ⟨holds', grown, fun value same => established value _ holds' (reached value same)⟩

/-- What lasts while an arena grows is still known behind a construction. -/
theorem Keeps.keeping {construction : Construction α} (h : Keeps invariant grows construction known post)
    (fact : Arena → Prop) (lasts : ∀ arena later, grows arena later → fact arena → fact later) :
    Keeps invariant grows construction (fun arena => known arena ∧ fact arena) fun value arena =>
      post value arena ∧ fact arena := by
  intro arena holds given
  obtain ⟨holds', grown, reached⟩ := h arena holds given.1
  exact ⟨holds', grown, fun value same => ⟨reached value same, lasts _ _ grown given.2⟩⟩

/-- A construction may look at the arena. -/
theorem Keeps.look {next : Arena → Construction β}
    (h : ∀ seen, Keeps invariant grows (next seen) (fun arena => arena = seen ∧ known arena) goal) :
    Keeps invariant grows (get >>= next) known goal :=
  fun arena holds knows => h arena arena holds ⟨rfl, knows⟩

/-- A construction may depend on a check. -/
theorem Keeps.ite {check : Prop} [Decidable check] {first second : Construction α}
    (h : check → Keeps invariant grows first known post) (h' : ¬ check → Keeps invariant grows second known post) :
    Keeps invariant grows (if check then first else second) known post := by
  split
  · exact h ‹_›
  · exact h' ‹_›

/-- Members are claimed in order. What is known of the nodes that have been claimed and of the members that are left has
to be kept by every claim and every label. -/
theorem Keeps.claimMembers [Std.Refl grows] [IsTrans Arena grows] (family : List NodeId → List NodeId → Arena → Prop)
    (claims : ∀ claimed node rest, Keeps invariant grows (claim node)
      (fun arena => (arena.shape node).isSignature = false ∧ family claimed (node :: rest) arena)
      fun copy => family (claimed ++ [copy]) rest)
    (labels : ∀ claimed rest node label, Keeps invariant grows (setLabel node label) (family claimed rest)
      fun _ => family claimed rest)
    (owner : String) (members : List (String × NodeId)) (claimed : List NodeId) :
    Keeps invariant grows (claimMembers owner members) (family claimed (members.map Prod.snd))
      fun ids => family (claimed ++ ids) [] := by
  induction members generalizing claimed with
  | nil => exact .pure fun arena _ knows => (List.append_nil claimed).symm ▸ knows
  | cons member rest ih =>
    obtain ⟨label, node⟩ := member
    refine .look fun seen => ?_
    by_cases signature : (seen.shape node).isSignature = true
    · simp only [signature, if_true]
      exact .refuseFirst _ _
    · simp only [signature, Bool.false_eq_true, if_false]
      refine .bind ((claims claimed node (rest.map Prod.snd)).weaken (fun arena _ there => ?_)
        fun _ _ _ done => done) fun copy => ?_
      · obtain ⟨rfl, knows⟩ := there
        exact ⟨by simpa using signature, knows⟩
      · have others : Keeps invariant grows (do
              let others ← Construction.claimMembers owner rest
              return copy :: others)
            (family (claimed ++ [copy]) (rest.map Prod.snd)) fun ids => family (claimed ++ ids) [] :=
          .bind (ih (claimed ++ [copy])) fun others => .pure fun arena _ knows =>
            List.append_cons claimed copy others ▸ knows
        split
        · exact others
        · exact .bind (labels _ _ copy label) fun _ => others

/-- What is known may be known of one of several things. -/
theorem Keeps.of_exists {ι : Type} {construction : Construction α} {family : ι → Arena → Prop}
    (h : ∀ choice, Keeps invariant grows construction (family choice) post) :
    Keeps invariant grows construction (fun arena => ∃ choice, family choice arena) post :=
  fun arena holds ⟨choice, knows⟩ => h choice arena holds knows

end

section

variable {α β : Type} {known : Arena → Prop} {post : α → Arena → Prop} {goal : β → Arena → Prop}
  {shape : Shape} {shapes : List Shape} {id : NodeId}

/-- An operation that adds a node. -/
theorem Keeps.perform {operation : Arena → Arena × NodeId}
    (adds : ∀ arena, arena.Sound → known arena → Adds arena (operation arena) shape) :
    Builds (Construction.perform operation) known fun id arena => arena.Has id shape :=
  .operation fun arena sound knows =>
    have added := adds arena sound knows
    ⟨added.sound, added.grows, added.inside, added.shaped⟩

/-- A node is claimed. -/
theorem claim_builds (id : NodeId) (shape : Shape) :
    Builds (claim id) (·.Has id shape) fun copy arena => arena.Has copy shape :=
  .perform fun _ sound there => there.2 ▸ sound.claim there.1

/-- A node is copied. -/
theorem deepCopy_builds (id : NodeId) (shape : Shape) :
    Builds (deepCopy id) (·.Has id shape) fun copy arena => arena.Has copy shape :=
  .perform fun _ sound there => there.2 ▸ sound.deepCopy there.1

/-- A node is labelled. -/
theorem setLabel_builds (id : NodeId) (label : String) :
    Builds (setLabel id label) (fun _ => True) fun _ _ => True := by
  intro arena sound _
  obtain ⟨sound', grown, -⟩ := sound.withLabel id (some label)
  exact ⟨sound', grown, fun _ _ => trivial⟩

/-- A node without parts is added. -/
theorem addLeaf_builds (kind : Kind) (leaf : kind.children = [])
    (same : ∀ arena : Arena, arena.shapeOfKind kind = shape) (legal : shape.isLegal = true) :
    Builds (addNode kind) known fun id arena => arena.Has id shape := by
  refine .perform fun arena sound _ => same arena ▸ sound.pushOwner ?_ ?_ ?_
  · rw [leaf]
    exact fun _ listed => absurd listed List.not_mem_nil
  · rw [same]
    exact legal
  · cases kind with
    | function _ _ _ _ | error _ _ | event _ _ _ _ _ => cases leaf
    | _ => trivial

/-- Whether members have shapes of which those that have been claimed are no signatures. -/
def Claimed (shapes : List Shape) (claimed rest : List NodeId) (arena : Arena) : Prop :=
  arena.HasAll (claimed ++ rest) shapes ∧ ∀ id ∈ claimed, (arena.shape id).isSignature = false

/-- Members that have been claimed stay there. -/
theorem Claimed.grows {arena later : Arena} {claimed rest : List NodeId} (h : Claimed shapes claimed rest arena)
    (grown : arena.Grows later) : Claimed shapes claimed rest later := by
  refine ⟨h.1.grows grown, fun id listed => ?_⟩
  rw [grown.shape id (h.1.1 id (List.mem_append_left _ listed))]
  exact h.2 id listed

/-- One more member is claimed. -/
theorem claim_claimed (claimed : List NodeId) (node : NodeId) (rest : List NodeId) : Builds (claim node)
    (fun arena => (arena.shape node).isSignature = false ∧ Claimed shapes claimed (node :: rest) arena)
    fun copy => Claimed shapes (claimed ++ [copy]) rest := by
  refine .operation fun arena sound ⟨plain, there⟩ => ?_
  obtain ⟨old, inside, others⟩ := by simpa only [List.forall_mem_append, List.forall_mem_cons] using there.1.1
  have added := sound.claim inside
  obtain ⟨⟨_, shaped⟩, plain'⟩ := there.grows added.grows
  refine ⟨added.sound, added.grows, ⟨?_, ?_⟩, ?_⟩
  · simp only [List.forall_mem_append, List.forall_mem_singleton]
    exact ⟨⟨fun id listed => Nat.lt_of_lt_of_le (old id listed) added.grows.size, added.inside⟩,
      fun id listed => Nat.lt_of_lt_of_le (others id listed) added.grows.size⟩
  · rw [← shaped]
    simp only [List.map_append, List.map_cons, List.append_assoc, List.cons_append, List.nil_append, added.shaped,
      added.grows.shape node inside]
  · refine List.forall_mem_append.mpr ⟨plain', List.forall_mem_singleton.mpr ?_⟩
    rw [added.shaped]
    exact plain

/-- Members are claimed in order and labelled. -/
theorem claimMembers_builds (owner : String) (members : List (String × NodeId)) (shapes : List Shape) :
    Builds (claimMembers owner members) (·.HasAll (members.map Prod.snd) shapes) fun ids arena =>
      arena.HasAll ids shapes ∧ ∀ shape ∈ shapes, shape.isSignature = false := by
  refine (Keeps.claimMembers (Claimed shapes) claim_claimed (fun claimed rest node label => ?_) owner members []).weaken
    (fun arena _ there => ⟨there, nofun⟩) fun ids arena _ ⟨there, plain⟩ => ?_
  · exact ((setLabel_builds node label).keeping (Claimed shapes claimed rest) fun _ _ grown known =>
      known.grows grown).weaken (fun _ _ known => ⟨trivial, known⟩) fun _ _ _ known => known.2
  · rw [List.nil_append, List.append_nil] at there
    rw [List.nil_append] at plain
    refine ⟨there, fun shape listed => ?_⟩
    rw [← there.2] at listed
    obtain ⟨id, among, rfl⟩ := List.mem_map.mp listed
    exact plain id among

/-- A node made of nodes that are there is added. -/
theorem addNode_builds (kind : Kind) : Builds (addNode kind) (fun arena =>
    (∀ child ∈ kind.children, child < arena.size) ∧ arena.shapeOfKind kind = shape ∧ shape.isLegal = true ∧
      arena.SignatureFits kind) fun id arena => arena.Has id shape :=
  .perform fun _ sound ⟨parts, same, legal, fits⟩ => same ▸ sound.pushOwner parts (same ▸ legal) fits

/-- Members that are there and are no signatures are legal. -/
theorem areLegal_of_hasAll {arena : Arena} {ids : List NodeId} (sound : arena.Sound) (there : arena.HasAll ids shapes)
    (plain : ∀ shape ∈ shapes, shape.isSignature = false) : Shape.areLegal shapes = true :=
  Shape.areLegal_iff.mpr fun shape listed => ⟨plain shape listed, there.legal sound shape listed⟩

/-- A struct is added. -/
theorem addStruct_builds (name : String) (members : List (String × NodeId)) (shapes : List Shape) :
    Builds (addStruct name members) (·.HasAll (members.map Prod.snd) shapes) fun id arena =>
      arena.Has id (.struct name shapes) := by
  refine .bind (claimMembers_builds name members shapes) fun ids => (addNode_builds (.struct name ids)).weaken
    (fun arena sound there => ?_) fun _ _ _ there => there
  exact ⟨there.1.1, congrArg _ there.1.2, areLegal_of_hasAll sound there.1 there.2, trivial⟩

/-- A tuple is added. -/
theorem addTuple_builds (members : List (String × NodeId)) (shapes : List Shape) :
    Builds (addTuple members) (·.HasAll (members.map Prod.snd) shapes) fun id arena =>
      arena.Has id (.tuple shapes) := by
  refine .bind (claimMembers_builds "tuple" members shapes) fun ids => (addNode_builds (.tuple ids)).weaken
    (fun arena sound there => ?_) fun _ _ _ there => there
  exact ⟨there.1.1, congrArg _ there.1.2, areLegal_of_hasAll sound there.1 there.2, trivial⟩

/-- A function is added with its two tuples. -/
theorem addFunction_builds (name : String) (parameters returns : List (String × NodeId)) (mutability : Mutability)
    (shapes shapes' : List Shape) : Builds (addFunction name parameters returns mutability)
      (fun arena => arena.HasAll (parameters.map Prod.snd) shapes ∧ arena.HasAll (returns.map Prod.snd) shapes')
      fun id arena => arena.Has id (.function shapes shapes') := by
  refine .bind ((addTuple_builds parameters shapes).keeping (·.HasAll (returns.map Prod.snd) shapes')
    fun _ _ grown there => there.grows grown) fun tuple => ?_
  refine .bind (((addTuple_builds returns shapes').keeping (·.Has tuple (.tuple shapes))
    fun _ _ grown there => there.grows grown).weaken (fun _ _ there => ⟨there.2, there.1⟩)
      fun _ _ _ there => there) fun tuple' => ?_
  refine (addNode_builds (.function name tuple tuple' mutability)).weaken (fun arena sound there => ?_)
    fun _ _ _ there => there
  obtain ⟨⟨inside', own'⟩, inside, own⟩ := there
  have legal := sound.legal tuple inside
  have legal' := sound.legal tuple' inside'
  rw [own, Shape.isLegal] at legal
  rw [own', Shape.isLegal] at legal'
  refine ⟨by simp [Kind.children, inside, inside'], ?_, by simp [Shape.isLegal, legal, legal'], ?_⟩
  · rw [Arena.shapeOfKind, own, own']
    rfl
  · rw [Arena.SignatureFits, own, own']
    exact ⟨rfl, rfl⟩

/-- An error is added with its tuple. -/
theorem addError_builds (name : String) (parameters : List (String × NodeId)) (shapes : List Shape) :
    Builds (addError name parameters) (·.HasAll (parameters.map Prod.snd) shapes) fun id arena =>
      arena.Has id (.error name shapes) := by
  refine .bind (addTuple_builds parameters shapes) fun tuple => (addNode_builds (.error name tuple)).weaken
    (fun arena sound there => ?_) fun _ _ _ there => there
  have legal := sound.legal tuple there.1
  rw [there.2, Shape.isLegal] at legal
  refine ⟨by simp [Kind.children, there.1], ?_, legal, ?_⟩
  · rw [Arena.shapeOfKind, there.2]
    rfl
  · rw [Arena.SignatureFits, there.2]
    rfl

/-- The parameters of an event that are no topics are copied in order. -/
theorem copyData_builds (parameters : List (EventParameter NodeId)) (shapes : List Shape) :
    Builds (copyData parameters) (·.HasAll (parameters.map EventParameter.type) shapes) fun members arena =>
      arena.HasAll (members.map Prod.snd) (topicFree shapes (parameters.map EventParameter.indexed)) := by
  induction parameters generalizing shapes with
  | nil =>
    refine .pure fun arena _ there => ?_
    obtain ⟨-, rfl⟩ := there
    exact ⟨fun _ listed => absurd listed List.not_mem_nil, rfl⟩
  | cons parameter rest ih =>
    obtain ⟨name, node, indexed⟩ := parameter
    cases shapes with
    | nil => exact fun arena _ there => absurd there.2 (by simp)
    | cons shape shapes =>
      cases indexed with
      | true => exact (ih shapes).weaken (fun _ _ there => (Arena.hasAll_cons.mp there).2) fun _ _ _ there => there
      | false =>
        have copied := (deepCopy_builds node shape).keeping
          (fun arena => arena.HasAll (rest.map EventParameter.type) shapes) fun _ _ grown there => there.grows grown
        refine .bind (copied.weaken (fun _ _ there => Arena.hasAll_cons.mp there) fun _ _ _ there => there)
          fun copy => ?_
        have others := (ih shapes).keeping (·.Has copy shape) fun _ _ grown there => there.grows grown
        refine .bind (others.weaken (fun _ _ there => ⟨there.2, there.1⟩) fun _ _ _ there => there) fun members =>
          .pure fun arena _ there => ?_
        exact Arena.hasAll_cons.mpr ⟨there.2, there.1⟩

/-- An event is added with its two tuples. -/
theorem addEvent_builds (name : String) (parameters : List (EventParameter NodeId)) (anonymous : Bool)
    (shapes : List Shape) :
    Builds (addEvent name parameters anonymous) (·.HasAll (parameters.map EventParameter.type) shapes) fun id arena =>
      arena.Has id (.event name shapes (parameters.map EventParameter.indexed) anonymous) := by
  let indexed := parameters.map EventParameter.indexed
  have types : (parameters.map fun parameter => (parameter.name, parameter.type)).map Prod.snd =
      parameters.map EventParameter.type := by
    rw [List.map_map]
    rfl
  refine .bind (((copyData_builds parameters shapes).keeping
    (fun arena => arena.HasAll (parameters.map EventParameter.type) shapes)
    fun _ _ grown there => there.grows grown).weaken (fun _ _ there => ⟨there, there⟩) fun _ _ _ there => there)
    fun members => ?_
  have whole := (addTuple_builds (parameters.map fun parameter => (parameter.name, parameter.type)) shapes).keeping
      (fun arena => arena.HasAll (members.map Prod.snd) (topicFree shapes indexed))
      fun _ _ grown there => there.grows grown
  rw [types] at whole
  refine .bind (whole.weaken (fun _ _ there => ⟨there.2, there.1⟩) fun _ _ _ there => there) fun tuple => ?_
  have data := (addTuple_builds members (topicFree shapes indexed)).keeping
    (·.Has tuple (.tuple shapes)) fun _ _ grown there => there.grows grown
  refine .bind (data.weaken (fun _ _ there => ⟨there.2, there.1⟩) fun _ _ _ there => there) fun tuple' => ?_
  refine (addNode_builds (.event name tuple tuple' indexed anonymous)).weaken (fun arena sound there => ?_)
    fun _ _ _ there => there
  obtain ⟨⟨inside', own'⟩, inside, own⟩ := there
  have legal := sound.legal tuple inside
  rw [own, Shape.isLegal] at legal
  refine ⟨by simp [Kind.children, inside, inside'], ?_, legal, ?_⟩
  · rw [Arena.shapeOfKind, own]
    rfl
  · rw [Arena.SignatureFits, own, own']
    exact ⟨rfl, rfl⟩

/-- An integer is added if its width is legal. -/
theorem addInteger_builds (signed : Bool) (bits : Nat) :
    Builds (addInteger signed bits) known fun id arena => arena.Has id (.integer signed bits) := by
  unfold addInteger
  split
  · exact .refuse _
  · rename_i wide
    exact addLeaf_builds _ rfl (fun _ => rfl) (Shape.isLegal_integer.mpr (by omega))

/-- A byte string of a fixed size is added if its size is legal. -/
theorem addFixedBytes_builds (size : Nat) :
    Builds (addFixedBytes size) known fun id arena => arena.Has id (.fixedBytes size) := by
  unfold addFixedBytes
  split
  · rename_i inside
    exact addLeaf_builds _ rfl (fun _ => rfl) (by simpa [Shape.isLegal] using inside)
  · exact .refuse _

/-- An enumeration is added if there are not too many members. -/
theorem addEnumeration_builds (name : String) (memberCount : Nat) : Builds (addEnumeration name memberCount) known
    fun id arena => arena.Has id (.enumeration name (if memberCount = 0 then 256 else memberCount)) := by
  unfold addEnumeration
  split
  · exact addLeaf_builds (.enumeration name 256) rfl (fun _ => rfl) rfl
  · split
    · rename_i some few
      exact addLeaf_builds (.enumeration name memberCount) rfl (fun _ => rfl)
        (by simp [Shape.isLegal, few, Nat.pos_of_ne_zero some])
    · exact .refuse _

/-- A user-defined type is added around a value type. -/
theorem addUserDefined_builds (name : String) (underlying : NodeId) :
    Builds (addUserDefined name underlying) (·.Has underlying shape) fun id arena =>
      arena.Has id (.userDefined name shape) := by
  refine .look fun seen => .ite (fun wrappable => ?_) fun _ => .refuse _
  have claimed : Builds (claim underlying) (fun arena => arena = seen ∧ arena.Has underlying shape)
      fun copy arena => arena.Has copy shape ∧ shape.isValueType = true := by
    refine ((claim_builds underlying shape).keeping (fun _ => shape.isValueType = true)
      fun _ _ _ word => word).weaken (fun arena _ there => ⟨there.2, ?_⟩) fun _ _ _ there => there
    obtain ⟨rfl, -, rfl⟩ := there
    split at wrappable
    · cases wrappable
    · exact wrappable
  refine .bind claimed fun copy => (addNode_builds (.userDefined name copy)).weaken (fun arena sound there => ?_)
    fun _ _ _ there => there
  have legal := sound.legal copy there.1.1
  rw [there.1.2] at legal
  refine ⟨by simp [Kind.children, there.1.1], ?_, Shape.isLegal_userDefined.mpr ⟨there.2, legal⟩, trivial⟩
  rw [Arena.shapeOfKind, there.1.2]

/-- An array is added. -/
theorem addArray_builds (base : NodeId) (length : Option Nat) :
    Builds (addArray base length) (·.Has base shape) fun id arena => arena.Has id (.array shape length) := by
  refine .look fun seen => .ite (fun _ => .refuse _) fun some => .ite (fun _ => .refuse _) fun plain => ?_
  have claimed : Builds (claim base) (fun arena => arena = seen ∧ arena.Has base shape)
      fun copy arena => arena.Has copy shape ∧ shape.isSignature = false := by
    refine ((claim_builds base shape).keeping (fun _ => shape.isSignature = false)
      fun _ _ _ own => own).weaken (fun arena _ there => ⟨there.2, ?_⟩) fun _ _ _ there => there
    obtain ⟨rfl, -, rfl⟩ := there
    simpa using plain
  refine .bind claimed fun copy => (addNode_builds (.array copy length)).weaken (fun arena sound there => ?_)
    fun _ _ _ there => there
  have legal := sound.legal copy there.1.1
  rw [there.1.2] at legal
  refine ⟨by simp [Kind.children, there.1.1], ?_, Shape.isLegal_array.mpr ⟨there.2, legal, some⟩, trivial⟩
  rw [Arena.shapeOfKind, there.1.2]

/-- Whether a node is in an arena, whatever shape it has. -/
def Placed (id : NodeId) (arena : Arena) : Prop := ∃ shape, arena.Has id shape

/-- Whether nodes are in an arena, whatever shapes they have. -/
def AllPlaced (ids : List NodeId) (arena : Arena) : Prop := ∃ shapes, arena.HasAll ids shapes

/-- Nodes with numbers that are not too large are in an arena. -/
theorem allPlaced_iff {ids : List NodeId} {arena : Arena} : AllPlaced ids arena ↔ ∀ id ∈ ids, id < arena.size :=
  ⟨fun ⟨_, there⟩ => there.1, fun there => ⟨_, there, rfl⟩⟩

/-- What adds a node with a shape places it. -/
theorem Keeps.placed {ι : Type} {construction : Construction NodeId} {family : ι → Arena → Prop}
    {shapeOf : ι → Shape} (h : ∀ choice, Builds construction (family choice) fun id arena =>
      arena.Has id (shapeOf choice)) :
    Builds construction (fun arena => ∃ choice, family choice arena) Placed :=
  .of_exists fun choice => (h choice).weaken (fun _ _ knows => knows) fun _ _ _ there => ⟨_, there⟩

mutual
/-- A description is built. -/
theorem build_builds (description : Description) : Builds (build description) (fun _ => True) Placed := by
  have leaf : ∀ {construction : Construction NodeId} {shape : Shape},
      Builds construction (fun _ => True) (fun id arena => arena.Has id shape) →
      Builds construction (fun _ => True) Placed :=
    fun built => built.weaken (fun _ _ knows => knows) fun _ _ _ there => ⟨_, there⟩
  cases description with
  | bool => exact leaf (addLeaf_builds .bool rfl (fun _ => rfl) rfl)
  | address => exact leaf (addLeaf_builds .address rfl (fun _ => rfl) rfl)
  | uint bits => exact leaf (addInteger_builds false bits)
  | int bits => exact leaf (addInteger_builds true bits)
  | enumeration name members => exact leaf (addEnumeration_builds name members.length)
  | fixedBytes size => exact leaf (addFixedBytes_builds size)
  | userDefined name underlying =>
    exact .bind (build_builds underlying) fun node => .placed fun _ => addUserDefined_builds name node
  | bytes => exact leaf (addLeaf_builds .bytes rfl (fun _ => rfl) rfl)
  | string => exact leaf (addLeaf_builds .string rfl (fun _ => rfl) rfl)
  | array base length => exact .bind (build_builds base) fun node => .placed fun _ => addArray_builds node length
  | struct name members =>
    exact .bind (buildMembers_builds members) fun nodes => .placed fun _ => addStruct_builds name nodes _
  | tuple members => exact .bind (buildMembers_builds members) fun nodes => .placed fun _ => addTuple_builds nodes _
  | function name parameters returns mutability =>
    refine .bind (buildMembers_builds parameters) fun nodes => ?_
    refine .bind (((buildMembers_builds returns).keeping (AllPlaced (nodes.map Prod.snd))
      fun _ _ grown ⟨_, there⟩ => ⟨_, there.grows grown⟩).weaken (fun _ _ there => ⟨trivial, there⟩)
        fun _ _ _ there => there) fun nodes' => ?_
    refine (Keeps.placed fun choice : List Shape × List Shape =>
      addFunction_builds name nodes nodes' mutability choice.1 choice.2).weaken (fun _ _ there => ?_)
        fun _ _ _ there => there
    obtain ⟨⟨shapes', there'⟩, shapes, there⟩ := there
    exact ⟨(shapes, shapes'), there, there'⟩
  | error name parameters =>
    exact .bind (buildMembers_builds parameters) fun nodes => .placed fun _ => addError_builds name nodes _
  | event name parameters anonymous =>
    exact .bind (buildParameters_builds parameters) fun nodes => .placed fun _ => addEvent_builds name nodes anonymous _
/-- Members are built in order. -/
theorem buildMembers_builds (members : List (Member Description)) :
    Builds (buildMembers members) (fun _ => True) fun nodes => AllPlaced (nodes.map Prod.snd) := by
  cases members with
  | nil => exact .pure fun _ _ _ => allPlaced_iff.mpr fun _ listed => absurd listed List.not_mem_nil
  | cons member rest =>
    obtain ⟨name, type⟩ := member
    refine .bind (build_builds type) fun node => ?_
    refine .bind (((buildMembers_builds rest).keeping (Placed node)
      fun _ _ grown ⟨_, there⟩ => ⟨_, there.grows grown⟩).weaken (fun _ _ there => ⟨trivial, there⟩)
        fun _ _ _ there => there) fun nodes => .pure fun _ _ there => ?_
    obtain ⟨⟨shapes, others⟩, shape, own⟩ := there
    exact ⟨shape :: shapes, Arena.hasAll_cons.mpr ⟨own, others⟩⟩
/-- Parameters of events are built in order. -/
theorem buildParameters_builds (parameters : List (EventParameter Description)) :
    Builds (buildParameters parameters) (fun _ => True) fun nodes =>
      AllPlaced (nodes.map EventParameter.type) := by
  cases parameters with
  | nil => exact .pure fun _ _ _ => allPlaced_iff.mpr fun _ listed => absurd listed List.not_mem_nil
  | cons parameter rest =>
    obtain ⟨name, type, indexed⟩ := parameter
    refine .bind (build_builds type) fun node => ?_
    refine .bind (((buildParameters_builds rest).keeping (Placed node)
      fun _ _ grown ⟨_, there⟩ => ⟨_, there.grows grown⟩).weaken (fun _ _ there => ⟨trivial, there⟩)
        fun _ _ _ there => there) fun nodes => .pure fun _ _ there => ?_
    obtain ⟨⟨shapes, others⟩, shape, own⟩ := there
    exact ⟨shape :: shapes, Arena.hasAll_cons.mpr ⟨own, others⟩⟩
end

end

end Construction

/-- What may be done with an arena. -/
inductive Addition where
  /-- A truth value. -/
  | bool
  /-- An address. -/
  | address
  /-- An integer of a width in bits. -/
  | integer (signed : Bool) (bits : Nat)
  /-- A byte string of a fixed size. -/
  | fixedBytes (size : Nat)
  /-- An enumeration with a number of members. -/
  | enumeration (name : String) (memberCount : Nat)
  /-- A user-defined type around a node. -/
  | userDefined (name : String) (underlying : NodeId)
  /-- A byte string of any size. -/
  | bytes
  /-- A text of any size. -/
  | string
  /-- An array of a node. -/
  | array (base : NodeId) (length : Option Nat)
  /-- A struct of nodes. -/
  | struct (name : String) (members : List (String × NodeId))
  /-- A tuple of nodes. -/
  | tuple (members : List (String × NodeId))
  /-- A function with parameters and returns. -/
  | function (name : String) (parameters returns : List (String × NodeId)) (mutability : Mutability)
  /-- An error with parameters. -/
  | error (name : String) (parameters : List (String × NodeId))
  /-- An event with parameters. -/
  | event (name : String) (parameters : List (EventParameter NodeId)) (anonymous : Bool)
  /-- Everything that a description names. -/
  | described (description : Description)
  /-- A copy of a node. -/
  | copy (id : NodeId)
  /-- A label for a node. -/
  | label (id : NodeId) (text : String)

namespace Addition

/-- The nodes that are named. -/
def nodes : Addition → List NodeId
  | .userDefined _ underlying => [underlying]
  | .array base _ => [base]
  | .struct _ members | .tuple members | .error _ members => members.map Prod.snd
  | .function _ parameters returns _ => parameters.map Prod.snd ++ returns.map Prod.snd
  | .event _ parameters _ => parameters.map EventParameter.type
  | .copy id | .label id _ => [id]
  | _ => []

/-- What is done. -/
def run : Addition → Construction Unit
  | .bool => do let _ ← Construction.addBool
  | .address => do let _ ← Construction.addAddress
  | .integer signed bits => do let _ ← Construction.addInteger signed bits
  | .fixedBytes size => do let _ ← Construction.addFixedBytes size
  | .enumeration name memberCount => do let _ ← Construction.addEnumeration name memberCount
  | .userDefined name underlying => do let _ ← Construction.addUserDefined name underlying
  | .bytes => do let _ ← Construction.addBytes
  | .string => do let _ ← Construction.addString
  | .array base length => do let _ ← Construction.addArray base length
  | .struct name members => do let _ ← Construction.addStruct name members
  | .tuple members => do let _ ← Construction.addTuple members
  | .function name parameters returns mutability => do
    let _ ← Construction.addFunction name parameters returns mutability
  | .error name parameters => do let _ ← Construction.addError name parameters
  | .event name parameters anonymous => do let _ ← Construction.addEvent name parameters anonymous
  | .described description => do let _ ← Construction.build description
  | .copy id => do let _ ← Construction.deepCopy id
  | .label id text => Construction.setLabel id text

open Construction (Builds Keeps AllPlaced allPlaced_iff)

/-- Everything that may be done with nodes that are there keeps an arena sound. -/
theorem run_builds (addition : Addition) : Builds addition.run (AllPlaced addition.nodes) fun _ _ => True := by
  have ends : ∀ {known : Arena → Prop} {construction : Construction NodeId} {post : NodeId → Arena → Prop},
      Builds construction known post → Builds (do let _ ← construction) known fun _ _ => True :=
    fun built => .bind built fun _ => .pure fun _ _ _ => trivial
  have single : ∀ {construction : Construction NodeId} {node : NodeId} {post : Shape → NodeId → Arena → Prop},
      (∀ shape, Builds construction (·.Has node shape) (post shape)) →
      Builds (do let _ ← construction) (AllPlaced [node]) fun _ _ => True := by
    intro construction node post built
    refine (Keeps.of_exists fun shape => ends (built shape)).weaken (fun arena _ there => ?_) fun _ _ _ done => done
    exact ⟨_, allPlaced_iff.mp there node List.mem_cons_self, rfl⟩
  cases addition with
  | bool => exact ends (Construction.addLeaf_builds .bool rfl (fun _ => rfl) rfl)
  | address => exact ends (Construction.addLeaf_builds .address rfl (fun _ => rfl) rfl)
  | integer signed bits => exact ends (Construction.addInteger_builds signed bits)
  | fixedBytes size => exact ends (Construction.addFixedBytes_builds size)
  | enumeration name memberCount => exact ends (Construction.addEnumeration_builds name memberCount)
  | userDefined name underlying => exact single fun shape => Construction.addUserDefined_builds name underlying
  | bytes => exact ends (Construction.addLeaf_builds .bytes rfl (fun _ => rfl) rfl)
  | string => exact ends (Construction.addLeaf_builds .string rfl (fun _ => rfl) rfl)
  | array base length => exact single fun shape => Construction.addArray_builds base length
  | struct name members => exact .of_exists fun shapes => ends (Construction.addStruct_builds name members shapes)
  | tuple members => exact .of_exists fun shapes => ends (Construction.addTuple_builds members shapes)
  | function name parameters returns mutability =>
    refine (Keeps.of_exists fun choice : List Shape × List Shape => ends (Construction.addFunction_builds name
      parameters returns mutability choice.1 choice.2)).weaken (fun arena _ there => ?_)
        fun _ _ _ done => done
    have inside := allPlaced_iff.mp there
    exact ⟨(_, _), ⟨fun id listed => inside id (List.mem_append_left _ listed), rfl⟩,
      fun id listed => inside id (List.mem_append_right _ listed), rfl⟩
  | error name parameters => exact .of_exists fun shapes => ends (Construction.addError_builds name parameters shapes)
  | event name parameters anonymous =>
    exact .of_exists fun shapes => ends (Construction.addEvent_builds name parameters anonymous shapes)
  | described description =>
    exact ends ((Construction.build_builds description).weaken (fun _ _ _ => trivial) fun _ _ _ there => there)
  | copy id => exact single fun shape => Construction.deepCopy_builds id shape
  | label id text =>
    exact (Construction.setLabel_builds id text).weaken (fun _ _ _ => trivial) fun _ _ _ done => done

end Addition

namespace Arena

/-- The arenas that are made from an empty one, where nodes are named that are there. What fails may leave nodes
behind. -/
inductive Made : Arena → Prop where
  /-- Nothing has been added yet. -/
  | empty : Made .empty
  /-- One more thing is done. -/
  | extended {arena : Arena} (addition : Addition) (earlier : Made arena)
    (there : ∀ id ∈ addition.nodes, id < arena.size) :
    Made (addition.run.runOn arena).2

/-- Every arena that is made is sound. -/
theorem Made.sound {arena : Arena} (made : arena.Made) : arena.Sound := by
  induction made with
  | empty => exact sound_empty
  | extended addition _ there ih => exact (addition.run_builds _ ih (Construction.allPlaced_iff.mpr there)).1

section

variable {arena : Arena} {id : NodeId}

/-- The types that are read have the shapes of their nodes. The induction is on the node, whose parts come before it. -/
theorem Sound.shape_typeAt (sound : arena.Sound) (inside : id < arena.size) :
    (arena.typeAt id).shape = arena.shape id := by
  induction id using Nat.strongRecOn with
  | _ id ih =>
    have parts : ∀ child ∈ (arena.kind id).children,
        (if child < id then arena.typeAt child else .bool).shape = arena.shape child := by
      intro child listed
      have earlier := sound.below id inside child listed
      rw [if_pos earlier]
      exact ih child earlier (Nat.lt_trans earlier inside)
    have several : ∀ members : List NodeId, (∀ child ∈ members, child ∈ (arena.kind id).children) →
        SolType.shapes (members.map fun child =>
          ⟨arena.label child, if child < id then arena.typeAt child else .bool⟩) = members.map arena.shape := by
      intro members listed
      rw [SolType.shapes_eq_map, List.map_map]
      exact List.map_congr_left fun child member => parts child (listed child member)
    rw [sound.shaped id inside, typeAt]
    cases own : arena.kind id with
    | struct name members => exact congrArg _ (several members (by rw [own]; exact fun _ listed => listed))
    | tuple members => exact congrArg _ (several members (by rw [own]; exact fun _ listed => listed))
    | _ =>
      rw [own] at parts
      simp_all [Kind.children, SolType.shape, shapeOfKind, ← SolType.shape_members]

/-- The type at a node is legal. -/
theorem Sound.isLegal_typeAt (sound : arena.Sound) (inside : id < arena.size) :
    (arena.typeAt id).shape.isLegal = true := by
  rw [sound.shape_typeAt inside]
  exact sound.legal id inside

/-- The signature of an error is that of its shape. -/
theorem Sound.signature_of_error (sound : arena.Sound) (inside : id < arena.size) {name : String}
    {parameters : List Shape} (own : arena.shape id = .error name parameters) :
    arena.signature id = .ok (Shape.error name parameters).abiType := by
  have shaped := sound.shaped id inside
  rw [own] at shaped
  rw [signature, own]
  cases kind : arena.kind id with
  | error _ _ | event _ _ _ _ _ => rfl
  | _ =>
    rw [kind] at shaped
    cases shaped

/-- The data of an event that is read are the parameters without the topics. -/
theorem Sound.shapes_data (sound : arena.Sound) (inside : id < arena.size) {name : String}
    {parameters data : List (Labelled SolType)} {indexed : List Bool} {anonymous : Bool}
    (event : arena.typeAt id = .event name parameters data indexed anonymous) :
    SolType.shapes data = topicFree (SolType.shapes parameters) indexed := by
  have fits := sound.signatures id inside
  have below := sound.below id inside
  rw [typeAt] at event
  cases own : arena.kind id with
  | event name' node node' indexed' anonymous' =>
    rw [own] at event fits below
    have first := below node (by simp [Kind.children])
    have second := below node' (by simp [Kind.children])
    simp only [if_pos first, if_pos second, SolType.event.injEq] at event
    obtain ⟨-, rfl, rfl, rfl, -⟩ := event
    have members := congrArg Shape.members fits.2
    rw [← sound.shape_typeAt (Nat.lt_trans second inside),
      ← sound.shape_typeAt (Nat.lt_trans first inside), SolType.shape_members, SolType.shape_members] at members
    exact members
  | _ =>
    rw [own] at event
    cases event

end

end Arena

end YulAbi
