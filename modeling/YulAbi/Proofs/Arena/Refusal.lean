import YulAbi.Proofs.Arena.Described

/-!
# What a refusal leaves behind

A construction that is refused has no effect on nodes that were there, but for those that members of a composite name.
They are claimed in order, so what stands in front of the first error or event has been labelled already. A function
whose returns are refused has already made its parameters the members of a tuple. Kinds and shapes stay in any case, and
so does every node that has an owner.
-/

namespace YulAbi

open Arena Construction

/-- What is left without the topics is among what was there. -/
theorem topicFree_sublist {α : Type} (entries : List α) (topics : List Bool) :
    (topicFree entries topics).Sublist entries := by
  induction entries generalizing topics with
  | nil => cases topics <;> exact .slnil
  | cons entry rest ih =>
    cases topics with
    | nil => exact List.nil_sublist _
    | cons topic more =>
      rw [topicFree]
      split
      · exact (ih more).cons entry
      · exact (ih more).cons_cons entry

namespace Arena

/-- It can be decided whether no member is a signature. -/
instance (arena : Arena) (members : List (String × NodeId)) : Decidable (arena.AllPlain members) :=
  inferInstanceAs (Decidable (∀ id ∈ members.map Prod.snd, (arena.shape id).isSignature = false))

end Arena

namespace Construction

section

variable {arena : Arena} {left : Arena → Prop}

/-- A tuple is added if no member is a signature. -/
theorem addTuple_ends {members : List (String × NodeId)} (sound : arena.Sound)
    (inside : ∀ id ∈ members.map Prod.snd, id < arena.size) :
    Ends (addTuple members) arena (arena.AllPlain members)
      (fun _ later => arena.Touches members (members.map Prod.snd) later ∧ later.Sound)
      (arena.Touches (arena.front members) []) :=
  ((addComposite_ends .tuple (fun _ => rfl) "tuple" sound inside).builds (addTuple_builds members _) sound
    ⟨inside, rfl⟩).establish fun _ _ ⟨⟨_, touched⟩, sound', _⟩ => ⟨touched, sound'⟩

/-- Copies of parameters change nothing that was there. -/
theorem copyData_ends {parameters : List (EventParameter NodeId)} (sound : arena.Sound)
    (inside : ∀ id ∈ parameters.map EventParameter.type, id < arena.size) :
    Ends (copyData parameters) arena True (fun _ later => arena.Appends later) left := by
  induction parameters generalizing arena with
  | nil => exact .pure (.refl arena)
  | cons parameter rest ih =>
    obtain ⟨own, others⟩ := List.forall_mem_cons.mp inside
    rw [copyData]
    split
    · exact ih sound others
    · refine .after (deepCopy_ends sound own) fun copy reached copied => .map ?_
      refine (ih copied.adds.sound fun id listed => ?_).establish fun _ _ => copied.appended.trans
      exact Nat.lt_of_lt_of_le (others id listed) copied.appended.size

/-- A function that is refused for its parameters has labelled those in front of the first signature, and one that is
refused for its returns has made all of its parameters the members of a tuple. -/
theorem addFunction_ends (name : String) (mutability : Mutability) {parameters returns : List (String × NodeId)}
    (sound : arena.Sound) (inside : ∀ id ∈ parameters.map Prod.snd, id < arena.size)
    (inside' : ∀ id ∈ returns.map Prod.snd, id < arena.size) :
    Ends (addFunction name parameters returns mutability) arena (arena.AllPlain parameters ∧ arena.AllPlain returns)
      (fun _ _ => True) fun later => ¬arena.AllPlain parameters ∧ arena.Touches (arena.front parameters) [] later ∨
        arena.AllPlain parameters ∧
          arena.Touches (parameters ++ arena.front returns) (parameters.map Prod.snd) later := by
  refine ((addTuple_ends sound inside).knowing.leave fun _ => .inl).bind
    fun first reached ⟨plain, touched, sound'⟩ => ?_
  have ends := (addTuple_ends sound' fun id listed => Nat.lt_of_lt_of_le (inside' id listed) touched.size).of_iff
    (touched.allPlain sound inside')
  rw [touched.front sound inside'] at ends
  refine (ends.leave fun later touched' => .inr ⟨plain, ?_⟩).finish
    fun _ _ _ => ⟨trivial, trivial⟩
  simpa only [List.append_nil] using touched.trans touched'

/-- An event that is refused has labelled the parameters in front of the first signature. -/
theorem addEvent_ends (name : String) (anonymous : Bool) {parameters : List (EventParameter NodeId)}
    (sound : arena.Sound) (inside : ∀ id ∈ parameters.map EventParameter.type, id < arena.size) :
    Ends (addEvent name parameters anonymous) arena (arena.AllPlain (EventParameter.entries parameters))
      (fun _ _ => True) (arena.Touches (arena.front (EventParameter.entries parameters)) []) := by
  have entries := (EventParameter.map_snd_entries parameters).symm ▸ inside
  refine .after ((copyData_ends sound inside).builds (copyData_builds parameters _) sound ⟨inside, rfl⟩)
    fun data reached ⟨appended, sound', has⟩ => ?_
  have ends := (addTuple_ends sound' fun id listed => Nat.lt_of_lt_of_le (entries id listed) appended.size).of_iff
    (appended.allPlain sound entries)
  rw [appended.front sound entries] at ends
  refine (ends.knowing.leave fun _ ⟨_, touched⟩ => appended.touches touched).finish
    fun first reached' ⟨plain, touched, sound''⟩ => ?_
  -- the data are copies of parameters, none of which is a signature by now
  have has' := has.grows (touched.grows sound')
  have plain' : reached'.AllPlain data := by
    intro id listed
    have among := (topicFree_sublist _ _).subset (has'.2 ▸ List.mem_map_of_mem listed)
    rw [← EventParameter.map_snd_entries] at among
    obtain ⟨source, entry, same⟩ := List.mem_map.mp among
    exact same ▸ plain source entry
  have last := (addTuple_ends sound'' has'.1).knowing.of_iff (iff_true_intro plain')
  exact (last.leave fun _ ⟨mixed, _⟩ => absurd plain' mixed).finish fun _ _ _ => ⟨trivial, trivial⟩

end

end Construction

namespace Addition

/-- The members that have been labelled when something is refused. -/
def labelled (arena : Arena) : Addition → List (String × NodeId)
  | .struct _ members | .tuple members | .error _ members => arena.front members
  | .function _ parameters returns _ =>
    if arena.AllPlain parameters then parameters ++ arena.front returns else arena.front parameters
  | .event _ parameters _ => arena.front (EventParameter.entries parameters)
  | _ => []

/-- The nodes that have been made members of a tuple when something is refused. -/
def adopted (arena : Arena) : Addition → List NodeId
  | .function _ parameters _ _ => if arena.AllPlain parameters then parameters.map Prod.snd else []
  | _ => []

end Addition

/-- A refusal leaves all nodes as they were, but for members without owner that are named in front of the first error or
event, which may have been labelled, and for the parameters of a function whose returns are refused, which may have been
made the members of a tuple. -/
theorem Arena.Made.refusal_touches {arena later : Arena} (made : arena.Made) (addition : Addition)
    (inside : ∀ id ∈ addition.nodes, id < arena.size) {cause : GenerationError}
    (refused : addition.run.runOn arena = (.error cause, later)) :
    arena.Touches (addition.labelled arena) (addition.adopted arena) later := by
  have sound := made.sound
  have done : ∀ {kind : Kind}, Ends (addNode kind) arena True (fun _ _ => True) (arena.Touches [] []) :=
    ⟨trivial, trivial⟩
  have wrapped : ∀ (part : NodeId) (ofPart : NodeId → Kind),
      Ends (do addNode (ofPart (← Construction.claim part))) arena True (fun _ _ => True) (arena.Touches [] []) :=
    fun _ _ => ⟨trivial, trivial⟩
  cases addition with
  | bool | address | bytes | string | copy id | label id text => cases refused
  | integer signed bits => exact ((addInteger_ends done (.refl arena)).drop.of_error refused).2
  | fixedBytes size => exact ((addFixedBytes_ends done (.refl arena)).drop.of_error refused).2
  | enumeration name memberCount => exact ((addEnumeration_ends done (.refl arena)).drop.of_error refused).2
  | userDefined name underlying =>
    exact ((addUserDefined_ends (wrapped underlying (.userDefined name)) (.refl arena)).drop.of_error refused).2
  | array base length =>
    exact ((addArray_ends (wrapped base (.array · length)) (.refl arena)).drop.of_error refused).2
  | struct name members =>
    exact ((addComposite_ends (.struct name) (fun _ => rfl) name sound inside).drop.of_error refused).2
  | tuple members => exact ((addTuple_ends sound inside).drop.of_error refused).2
  | error name parameters =>
    have ends : Ends (addError name parameters) arena (arena.AllPlain parameters) (fun _ _ => True)
        (arena.Touches (arena.front parameters) []) :=
      (addTuple_ends sound inside).finish fun _ _ _ => ⟨trivial, trivial⟩
    exact (ends.drop.of_error refused).2
  | function name parameters returns mutability =>
    obtain ⟨first, second⟩ := List.forall_mem_append.mp inside
    rw [Addition.labelled, Addition.adopted]
    rcases ((addFunction_ends name mutability sound first second).drop.of_error refused).2 with
      ⟨mixed, touched⟩ | ⟨plain, touched⟩
    · rw [if_neg mixed, if_neg mixed]
      exact touched
    · rw [if_pos plain, if_pos plain]
      exact touched
  | event name parameters anonymous => exact ((addEvent_ends name anonymous sound inside).drop.of_error refused).2
  | described description => exact ((build_ends description sound).drop.of_error refused).2

/-- A tuple that is refused for its second member has labelled the first one. -/
example :
    let arena := ((do
      let node ← addInteger false 256
      let refused ← addError "E" []
      addTuple [("a", node), ("b", refused)]).runOn .empty).2
    arena.label 0 = some "a" ∧ arena.parent 0 = none ∧ arena.size = 3 := by decide +kernel

end YulAbi
