import Mathlib.Data.List.TakeWhile
import YulAbi.Proofs.Arena.Copies

/-!
# How constructions end

What a construction does with an arena is said by a condition on its input, by what it answers and leaves behind if the
condition holds, and by what it leaves behind if not. Members are claimed in order, so a signature among them is found
when those in front of it have been labelled already, and nothing else has happened to nodes that were there.
-/

namespace YulAbi

open Arena

/-- Whether a user-defined type may be around a shape. -/
def Shape.isWrappable : Shape → Bool
  | .function .. => false
  | shape => shape.isValueType

/-- Parameters of an event as members of a tuple. -/
def EventParameter.entries (parameters : List (EventParameter NodeId)) : List (String × NodeId) :=
  parameters.map fun parameter => (parameter.name, parameter.type)

/-- The nodes of parameters stay the same. -/
theorem EventParameter.map_snd_entries (parameters : List (EventParameter NodeId)) :
    (entries parameters).map Prod.snd = parameters.map EventParameter.type := List.map_map

namespace Construction

/-- Whether a construction succeeds on an arena exactly if a condition holds, where what it answers and leaves behind is
related, and something holds of what it leaves behind if it fails. -/
def Ends {α : Type} (construction : Construction α) (arena : Arena) (valid : Prop) (post : α → Arena → Prop)
    (left : Arena → Prop) : Prop :=
  match construction.runOn arena with
  | (.ok value, later) => valid ∧ post value later
  | (.error _, later) => ¬valid ∧ left later

section

variable {α β : Type} {construction first : Construction α} {next : α → Construction β} {arena later : Arena}
  {valid valid' : Prop} {post post' : α → Arena → Prop} {goal : β → Arena → Prop} {left left' : Arena → Prop}
  {value : α}

/-- An answer is given whatever the arena is. -/
theorem Ends.pure (done : post value arena) : Ends (Pure.pure value) arena True post left := ⟨trivial, done⟩

/-- A refusal leaves the arena as it is. -/
theorem Ends.refuse {flaw : TypeFlaw} (stays : left arena) : Ends (refuse flaw) arena False post left :=
  ⟨not_false, stays⟩

/-- An operation that cannot fail answers with what it makes of the arena. -/
theorem Ends.operation {operation : Arena → Arena × NodeId} {post : NodeId → Arena → Prop}
    (done : post (operation arena).2 (operation arena).1) : Ends (perform operation) arena True post left :=
  ⟨trivial, done⟩

/-- The second of two steps begins with what the first one has left. -/
theorem Ends.bind (h : Ends first arena valid post left)
    (h' : ∀ value later, post value later → Ends (next value) later valid' goal left) :
    Ends (first >>= next) arena (valid ∧ valid') goal left := by
  unfold Ends at h ⊢
  rw [runOn_bind]
  cases ended : first.runOn arena with
  | mk result reached =>
    rw [ended] at h
    cases result with
    | error cause => exact ⟨fun both => h.1 both.1, h.2⟩
    | ok value =>
      have rest := h' value reached h.2
      unfold Ends at rest
      simp only
      cases ended' : (next value).runOn reached with
      | mk result' later =>
        rw [ended'] at rest
        cases result' with
        | error cause => exact ⟨fun both => rest.1 both.2, rest.2⟩
        | ok value' => exact ⟨⟨h.1, rest.1⟩, rest.2⟩

/-- The condition may be said in another way. -/
theorem Ends.of_iff (h : Ends construction arena valid post left) (same : valid ↔ valid') :
    Ends construction arena valid' post left := propext same ▸ h

/-- What is known of the end may be weakened. -/
theorem Ends.weaken (h : Ends construction arena valid post left)
    (established : ∀ value later, post value later → post' value later) (refused : ∀ later, left later → left' later) :
    Ends construction arena valid post' left' := by
  unfold Ends at h ⊢
  cases ended : construction.runOn arena with
  | mk result later =>
    rw [ended] at h
    cases result with
    | ok value => exact ⟨h.1, established value later h.2⟩
    | error cause => exact ⟨h.1, refused later h.2⟩

/-- What is known of a success may be weakened. -/
theorem Ends.establish (h : Ends construction arena valid post left)
    (established : ∀ value later, post value later → post' value later) :
    Ends construction arena valid post' left :=
  h.weaken established fun _ done => done

/-- What is known of a refusal may be weakened. -/
theorem Ends.leave (h : Ends construction arena valid post left) (refused : ∀ later, left later → left' later) :
    Ends construction arena valid post left' :=
  h.weaken (fun _ _ done => done) refused

/-- It is known of the end whether the condition holds. -/
theorem Ends.knowing (h : Ends construction arena valid post left) :
    Ends construction arena valid (fun value later => valid ∧ post value later) fun later => ¬valid ∧ left later := by
  unfold Ends at h ⊢
  cases ended : construction.runOn arena with
  | mk result later =>
    rw [ended] at h
    cases result with
    | ok value => exact ⟨h.1, h⟩
    | error cause => exact ⟨h.1, h⟩

/-- What follows a step that cannot fail decides whether both succeed. -/
theorem Ends.after (h : Ends first arena True post left)
    (h' : ∀ value later, post value later → Ends (next value) later valid goal left) :
    Ends (first >>= next) arena valid goal left :=
  (h.bind h').of_iff (true_and _).to_iff

/-- Nothing follows a refusal. -/
theorem Ends.refuseFirst {flaw : TypeFlaw} (stays : left arena) :
    Ends (Construction.refuse flaw >>= next) arena False goal left := by
  have refused : Ends (Construction.refuse flaw : Construction α) arena False (fun _ _ => False) left := .refuse stays
  exact (refused.bind fun _ _ never => never.elim).of_iff (false_and False).to_iff

/-- What follows and cannot fail leaves the condition as it is. -/
theorem Ends.finish (h : Ends first arena valid post left)
    (h' : ∀ value later, post value later → Ends (next value) later True goal left) :
    Ends (first >>= next) arena valid goal left :=
  (h.bind h').of_iff (and_true _).to_iff

/-- What a construction answers may be made into another answer. -/
theorem Ends.map {answer : α → β} (h : Ends first arena valid (fun value later => goal (answer value) later) left) :
    Ends (do return answer (← first)) arena valid goal left :=
  h.finish fun _ _ done => .pure done

/-- What a construction answers may be dropped. -/
theorem Ends.drop (h : Ends first arena valid post left) :
    Ends (do let _ ← first) arena valid (fun _ _ => True) left :=
  h.finish fun _ _ _ => .pure trivial

/-- A check may have to hold. -/
theorem Ends.guard {check : Prop} [Decidable check] {flaw : TypeFlaw} (h : check → Ends first arena valid post left)
    (stays : left arena) :
    Ends (if check then first else Construction.refuse flaw) arena (check ∧ valid) post left := by
  split
  · rename_i holds
    exact (h holds).of_iff (and_iff_right holds).symm
  · rename_i fails
    exact (Ends.refuse stays).of_iff (iff_of_false not_false fun both => fails both.1)

/-- A check may have to fail. -/
theorem Ends.unless {check : Prop} [Decidable check] {flaw : TypeFlaw} (h : ¬check → Ends first arena valid post left)
    (stays : left arena) :
    Ends (if check then Construction.refuse flaw else first) arena (¬check ∧ valid) post left := by
  rw [← ite_not]
  exact .guard h stays

/-- A construction may look at the arena. -/
theorem Ends.look {next : Arena → Construction β} (h : Ends (next arena) arena valid goal left) :
    Ends (get >>= next) arena valid goal left := by
  have looked : (get : Construction Arena).runOn arena = (.ok arena, arena) := rfl
  unfold Ends at h ⊢
  rw [runOn_bind, looked]
  exact h

/-- What holds if a construction keeps an arena sound holds of its end, too. -/
theorem Ends.builds {known : Arena → Prop} (h : Ends construction arena valid post left)
    (built : Builds construction known post') (sound : arena.Sound) (knows : known arena) :
    Ends construction arena valid (fun value later => post value later ∧ later.Sound ∧ post' value later) left := by
  obtain ⟨sound', -, reached⟩ := built arena sound knows
  unfold Ends at h ⊢
  cases ended : construction.runOn arena with
  | mk result later =>
    rw [ended] at h sound' reached
    cases result with
    | ok value => exact ⟨h.1, h.2, sound', reached value rfl⟩
    | error cause => exact h

/-- What is known of how a construction ends if the condition holds is how it ends. -/
theorem Ends.exactly (h : Ends construction arena valid post left)
    (run : valid → construction.runOn arena = (.ok value, later)) :
    Ends construction arena valid (fun value' later' => (value' = value ∧ later' = later) ∧ post value' later')
      left := by
  unfold Ends at h ⊢
  cases ended : construction.runOn arena with
  | mk result later' =>
    rw [ended] at h
    cases result with
    | error cause => exact h
    | ok value' =>
      cases ended.symm.trans (run h.1)
      exact ⟨h.1, ⟨rfl, rfl⟩, h.2⟩

/-- A construction succeeds exactly if the condition holds. -/
theorem Ends.succeeds_iff (h : Ends construction arena valid post left) :
    (∃ value later, construction.runOn arena = (.ok value, later)) ↔ valid := by
  unfold Ends at h
  cases ended : construction.runOn arena with
  | mk result later =>
    rw [ended] at h
    cases result with
    | ok value => exact ⟨fun _ => h.1, fun _ => ⟨value, later, rfl⟩⟩
    | error cause => exact ⟨nofun, fun holds => absurd holds h.1⟩

/-- What is known of the end of a construction that succeeds. -/
theorem Ends.of_ok (h : Ends construction arena valid post left)
    (run : construction.runOn arena = (.ok value, later)) : post value later := by
  unfold Ends at h
  rw [run] at h
  exact h.2

/-- What is known of what a construction that fails leaves behind. -/
theorem Ends.of_error {cause : GenerationError} (h : Ends construction arena valid post left)
    (run : construction.runOn arena = (.error cause, later)) : ¬valid ∧ left later := by
  unfold Ends at h
  rwa [run] at h

end

end Construction

namespace Arena

/-- The members in front of the first one that is a signature. -/
def front (arena : Arena) (members : List (String × NodeId)) : List (String × NodeId) :=
  members.takeWhile fun member => !(arena.shape member.2).isSignature

/-- Whether no member is a signature. -/
def AllPlain (arena : Arena) (members : List (String × NodeId)) : Prop :=
  ∀ id ∈ members.map Prod.snd, (arena.shape id).isSignature = false

/-- Whether nodes have been claimed for members: they have no owner, and each of them is a member itself or a new
node. -/
structure Taken (arena : Arena) (members : List (String × NodeId)) (ids : List NodeId) (later : Arena) : Prop where
  /-- Members may have been labelled. -/
  touched : arena.Touches members [] later
  /-- The arena is sound. -/
  sound : later.Sound
  /-- The nodes are there. -/
  inside : ∀ id ∈ ids, id < later.size
  /-- They have no owner. -/
  free : ∀ id ∈ ids, later.parent id = none
  /-- Those that were there are members. -/
  listed : ∀ id ∈ ids, id < arena.size → id ∈ members.map Prod.snd

/-- Whether a new node has neither label nor owner. -/
structure AppendsRoot (arena : Arena) (root : NodeId) (later : Arena) : Prop where
  /-- The node was not there. -/
  fresh : arena.size ≤ root
  /-- It is there now. -/
  inside : root < later.size
  /-- It has no owner. -/
  free : later.parent root = none
  /-- It has no label. -/
  unlabelled : later.label root = none

section

variable {arena reached later : Arena} {labelled members rest : List (String × NodeId)}
  {adopted ids others : List NodeId}
  {label : String} {node : NodeId}

/-- A node that is new now was not there before. -/
theorem AppendsRoot.earlier (h : reached.AppendsRoot node later) (grown : arena.size ≤ reached.size) :
    arena.AppendsRoot node later := ⟨Nat.le_trans grown h.fresh, h.inside, h.free, h.unlabelled⟩

/-- A step leaves what is in front of the first signature as it is. -/
theorem Touches.front (h : arena.Touches labelled adopted later) (sound : arena.Sound)
    (inside : ∀ id ∈ members.map Prod.snd, id < arena.size) : later.front members = arena.front members := by
  induction members with
  | nil => rfl
  | cons member rest ih =>
    obtain ⟨own, others⟩ := List.forall_mem_cons.mp inside
    rw [Arena.front, Arena.front, List.takeWhile_cons, List.takeWhile_cons, h.shape sound own]
    split
    · exact congrArg (member :: ·) (ih others)
    · rfl

/-- A step leaves it as it is whether members are signatures. -/
theorem Touches.allPlain (h : arena.Touches labelled adopted later) (sound : arena.Sound)
    (inside : ∀ id ∈ members.map Prod.snd, id < arena.size) : later.AllPlain members ↔ arena.AllPlain members :=
  forall₂_congr fun id listed => by rw [h.shape sound (inside id listed)]

/-- The first member and the others are no signatures. -/
theorem allPlain_cons : arena.AllPlain ((label, node) :: members) ↔
    (arena.shape node).isSignature = false ∧ arena.AllPlain members := List.forall_mem_cons

/-- Members are claimed one after the other. -/
theorem Taken.append (h : arena.Taken members ids reached) (h' : reached.Taken rest others later) :
    arena.Taken (members ++ rest) (ids ++ others) later := by
  refine ⟨h.touched.trans h'.touched, h'.sound, List.forall_mem_append.mpr ⟨fun id listed => ?_, h'.inside⟩,
    List.forall_mem_append.mpr ⟨fun id listed => ?_, h'.free⟩,
    List.map_append ▸ List.forall_mem_append.mpr ⟨fun id listed inside => ?_, fun id listed inside => ?_⟩⟩
  · exact Nat.lt_of_lt_of_le (h.inside id listed) h'.touched.size
  · rcases h'.touched.parent id (h.inside id listed) with same | ⟨-, never, -⟩
    · exact same.trans (h.free id listed)
    · cases never
  · exact List.mem_append_left _ (h.listed id listed inside)
  · exact List.mem_append_right _ (h'.listed id listed (Nat.lt_of_lt_of_le inside h.touched.size))

/-- A node without owner is claimed as it is, and may be labelled. -/
theorem Sound.taken_free (sound : arena.Sound) (inside : node < arena.size) (free : arena.parent node = none) :
    arena.Taken [(label, node)] [node] arena ∧
      (label ≠ "" → arena.Taken [(label, node)] [node] (arena.withLabel node (some label))) := by
  have listed : ∀ id ∈ [node], id < arena.size → id ∈ [(label, node)].map Prod.snd := fun id listed _ => listed
  obtain ⟨sound', -, size⟩ := sound.withLabel node (some label)
  refine ⟨⟨.refl _, sound, List.forall_mem_singleton.mpr inside, List.forall_mem_singleton.mpr free, listed⟩, ?_⟩
  refine fun named => ⟨touches_withLabel inside free named, sound', List.forall_mem_singleton.mpr (size ▸ inside),
    List.forall_mem_singleton.mpr ?_, listed⟩
  exact ((arena.withLabel_spec node (some label)).2.2.1 node).trans free

/-- For a node with an owner a copy is claimed, and may be labelled. -/
theorem Sound.taken_copy (sound : arena.Sound) (inside : node < arena.size) :
    arena.Taken [(label, node)] [(arena.deepCopy node).2] (arena.deepCopy node).1 ∧
      arena.Taken [(label, node)] [(arena.deepCopy node).2]
        ((arena.deepCopy node).1.withLabel (arena.deepCopy node).2 (some label)) := by
  have copied := sound.deepCopy_duplicates inside
  have touched : arena.Touches [(label, node)] [] (arena.deepCopy node).1 := copied.appended.mono nofun nofun
  have listed : ∀ id ∈ [(arena.deepCopy node).2], id < arena.size → id ∈ [(label, node)].map Prod.snd :=
    List.forall_mem_singleton.mpr fun earlier => absurd earlier (Nat.not_lt.mpr copied.fresh)
  obtain ⟨sound', -, size⟩ := copied.adds.sound.withLabel (arena.deepCopy node).2 (some label)
  refine ⟨⟨touched, copied.adds.sound, List.forall_mem_singleton.mpr copied.adds.inside,
      List.forall_mem_singleton.mpr copied.free, listed⟩,
    ⟨touched.labelled_of_fresh copied.fresh (some label), sound',
      List.forall_mem_singleton.mpr (size ▸ copied.adds.inside), List.forall_mem_singleton.mpr ?_, listed⟩⟩
  exact ((withLabel_spec _ _ _).2.2.1 _).trans copied.free

end

end Arena

namespace Construction

section

variable {arena : Arena} {left : Arena → Prop}

/-- A member is claimed, and may be labelled. -/
theorem claim_ends (label : String) {node : NodeId} (sound : arena.Sound) (inside : node < arena.size) :
    Ends (claim node) arena True (fun copy later => arena.Taken [(label, node)] [copy] later ∧
      (label ≠ "" → arena.Taken [(label, node)] [copy] (later.withLabel copy (some label)))) left := by
  refine .operation ?_
  unfold Arena.claim
  split
  · obtain ⟨taken, named⟩ := sound.taken_copy inside
    exact ⟨taken, fun _ => named⟩
  · rename_i root
    exact sound.taken_free inside (by simpa using root)

/-- A node is copied. -/
theorem deepCopy_ends {node : NodeId} (sound : arena.Sound) (inside : node < arena.size) :
    Ends (deepCopy node) arena True (fun copy later => arena.Duplicates node (later, copy)) left :=
  .operation (sound.deepCopy_duplicates inside)

/-- A node gets its label. -/
theorem setLabel_ends {id : NodeId} {label : String} :
    Ends (setLabel id label) arena True (fun _ later => later = arena.withLabel id (some label)) left :=
  ⟨trivial, rfl⟩

/-- Members are claimed and labelled if none of them is a signature, and up to the first one that is. -/
theorem claimMembers_ends (owner : String) {members : List (String × NodeId)} (sound : arena.Sound)
    (inside : ∀ id ∈ members.map Prod.snd, id < arena.size) :
    Ends (claimMembers owner members) arena (arena.AllPlain members) (arena.Taken members)
      (arena.Touches (arena.front members) []) := by
  induction members generalizing arena with
  | nil =>
    have plain : arena.AllPlain [] := fun _ listed => nomatch listed
    exact (Ends.pure ⟨.refl arena, sound, nofun, nofun, nofun⟩).of_iff (iff_of_true trivial plain)
  | cons member rest ih =>
    obtain ⟨label, node⟩ := member
    obtain ⟨own, others⟩ := List.forall_mem_cons.mp inside
    refine .look ?_
    by_cases signature : (arena.shape node).isSignature = true
    · simp only [signature, if_true]
      refine (Ends.refuseFirst (.refl arena)).of_iff ⟨False.elim, fun plain => ?_⟩
      cases signature.symm.trans (allPlain_cons.mp plain).1
    · have mine : (arena.shape node).isSignature = false := by simpa using signature
      have front : arena.front ((label, node) :: rest) = (label, node) :: arena.front rest :=
        List.takeWhile_cons_of_pos (by simp [mine])
      -- the members that follow are claimed in whatever arena the first one leaves
      have onward : ∀ {reached : Arena} {copy : NodeId}, arena.Taken [(label, node)] [copy] reached →
          Ends (do return copy :: (← claimMembers owner rest)) reached (arena.AllPlain rest)
            (arena.Taken ((label, node) :: rest)) (arena.Touches ((label, node) :: arena.front rest) []) := by
        intro reached copy taken
        have more := ih taken.sound fun id listed => Nat.lt_of_lt_of_le (others id listed) taken.touched.size
        rw [taken.touched.front sound others] at more
        exact ((more.of_iff (taken.touched.allPlain sound others)).weaken (fun _ _ => taken.append)
          fun _ left => taken.touched.trans left).map
      simp only [mine, Bool.false_eq_true, if_false]
      rw [front]
      refine Ends.of_iff (.after (claim_ends label sound own) fun copy reached ⟨taken, named⟩ => ?_)
        ⟨fun plain => allPlain_cons.mpr ⟨mine, plain⟩, fun plain => (allPlain_cons.mp plain).2⟩
      split
      · exact onward taken
      · rename_i some
        exact .after setLabel_ends fun _ _ same => same ▸ onward (named (by simpa using some))

/-- A node is appended behind the others, with neither label nor owner, and its parts get it as their owner. -/
theorem addNode_ends {kind : Kind} (free : ∀ child ∈ kind.children, child < arena.size ∧ arena.parent child = none) :
    Ends (addNode kind) arena True (fun root later => arena.AppendsRoot root later ∧
      arena.Touches [] kind.children later) left := by
  have own := node_pushOwner_self fun child listed => (free child listed).1
  have size := (@pushOwner_spec arena kind fun child listed => (free child listed).1).2.1
  exact .operation ⟨⟨Nat.le_refl _, size ▸ Nat.lt_succ_self _, congrArg Node.parent own, congrArg Node.label own⟩,
    touches_pushOwner free⟩

/-- A composite is added if no member is a signature. -/
theorem addComposite_ends (ofMembers : List NodeId → Kind) (parts : ∀ ids, (ofMembers ids).children = ids)
    (owner : String) {members : List (String × NodeId)} (sound : arena.Sound)
    (inside : ∀ id ∈ members.map Prod.snd, id < arena.size) :
    Ends (do addNode (ofMembers (← claimMembers owner members))) arena (arena.AllPlain members)
      (fun root later => arena.AppendsRoot root later ∧ arena.Touches members (members.map Prod.snd) later)
      (arena.Touches (arena.front members) []) := by
  refine (claimMembers_ends owner sound inside).finish fun ids reached taken => ?_
  have free : ∀ child ∈ (ofMembers ids).children, child < reached.size ∧ reached.parent child = none := by
    rw [parts]
    exact fun child listed => ⟨taken.inside child listed, taken.free child listed⟩
  refine (addNode_ends free).establish fun root later ⟨added, touched⟩ => ?_
  rw [parts] at touched
  refine ⟨added.earlier taken.touched.size, ?_⟩
  exact (taken.touched.trans touched).mono (fun _ listed _ _ => by simpa using listed) taken.listed

/-- A user-defined type is added around a value type that is no function. -/
theorem addUserDefined_ends {name : String} {node : NodeId} {post : NodeId → Arena → Prop}
    (wrapped : Ends (do addNode (.userDefined name (← claim node))) arena True post left) (stays : left arena) :
    Ends (addUserDefined name node) arena ((arena.shape node).isWrappable = true) post left := by
  refine .look ((Ends.guard (fun _ => wrapped) stays).of_iff ?_)
  rw [and_true]
  cases arena.shape node <;> rfl

/-- An array is added if its length is not zero and its elements are no signatures. -/
theorem addArray_ends {length : Option Nat} {node : NodeId} {post : NodeId → Arena → Prop}
    (wrapped : Ends (do addNode (.array (← claim node) length)) arena True post left) (stays : left arena) :
    Ends (addArray node length) arena (length ≠ some 0 ∧ (arena.shape node).isSignature = false) post left := by
  refine .look (.unless (fun _ => (Ends.unless (fun _ => wrapped) stays).of_iff ?_) stays)
  simp

/-- An integer is added if its width is legal. -/
theorem addInteger_ends {signed : Bool} {bits : Nat} {post : NodeId → Arena → Prop}
    (added : Ends (addNode (.integer signed bits)) arena True post left) (stays : left arena) :
    Ends (addInteger signed bits) arena (8 ≤ bits ∧ bits ≤ 256 ∧ bits % 8 = 0) post left := by
  have word : wordBits = 256 := rfl
  refine (Ends.unless (fun _ => added) stays).of_iff ?_
  rw [word, and_true]
  omega

/-- A byte string of a fixed size is added if its size is legal. -/
theorem addFixedBytes_ends {size : Nat} {post : NodeId → Arena → Prop}
    (added : Ends (addNode (.fixedBytes size)) arena True post left) (stays : left arena) :
    Ends (addFixedBytes size) arena (1 ≤ size ∧ size ≤ 32) post left :=
  (Ends.guard (fun _ => added) stays).of_iff (and_true _).to_iff

/-- An enumeration is added if there are not too many members. -/
theorem addEnumeration_ends {name : String} {memberCount : Nat} {post : NodeId → Arena → Prop}
    (added : Ends (addNode (.enumeration name (if memberCount = 0 then 256 else memberCount))) arena True post left)
    (stays : left arena) : Ends (addEnumeration name memberCount) arena (memberCount ≤ 256) post left := by
  unfold addEnumeration
  split at added
  · rename_i unknown
    rw [if_pos unknown]
    exact added.of_iff (iff_of_true trivial (unknown ▸ Nat.zero_le _))
  · rename_i known
    rw [if_neg known]
    exact (Ends.guard (fun _ => added) stays).of_iff (and_true _).to_iff

end

end Construction

end YulAbi
