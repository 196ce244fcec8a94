import YulAbi.Proofs.Arena.Composites
import YulAbi.Proofs.Shape.Runs

/-!
# How structs and tuples of an arena are split

The members of a struct or tuple node are split as those of its shape. If their heads have
sizes, the split succeeds and its segments go as far as they can.
-/

namespace YulAbi

/-- The members of a struct or tuple; other kinds have none. -/
def Kind.members? : Kind → Option (List NodeId)
  | .struct _ members | .tuple members => some members
  | _ => none

namespace Arena

/-- What there is to know of the members of a struct or tuple node to split them. -/
def memberView (arena : Arena) (id : NodeId) (members : List NodeId) : MemberView where
  value := HoldsAt (arena.isValueType · = true) members
  reference := HoldsAt (arena.isReferenceType · = true) members
  oneWord := HoldsAt (arena.headSize · = .ok wordBytes) members
  offset := arena.memberOffset id

section

variable {arena : Arena} {id : NodeId} {members : List NodeId}

/-- The shape of a struct or tuple node is made of the shapes of its members, which are earlier nodes and legal parts. -/
theorem Sound.composite_of_members (sound : arena.Sound) (inside : id < arena.size)
    (own : (arena.kind id).members? = some members) :
    (arena.shape id).IsComposite (members.map arena.shape) ∧ Shape.areLegal (members.map arena.shape) = true ∧
      ∀ member ∈ members, member < id := by
  have legal := sound.legal id inside
  obtain ⟨kind, shape, same, shaped, stands⟩ := sound.stands inside
  rw [same] at own
  rw [shaped] at legal ⊢
  cases stands with
  | struct name first =>
    cases own
    exact ⟨.inl ⟨name, rfl⟩, legal, first⟩
  | tuple first =>
    cases own
    exact ⟨.inr rfl, legal, first⟩
  | _ => cases own

/-- The members of a struct or tuple node are seen as those of its shape. -/
theorem Sound.memberView_eq (sound : arena.Sound) (inside : id < arena.size)
    (there : ∀ member ∈ members, member < arena.size) :
    arena.memberView id members = (arena.shape id).memberView (members.map arena.shape) := by
  have agree : ∀ (holds : NodeId → Prop) (holds' : Shape → Prop),
      (∀ member < arena.size, holds member ↔ holds' (arena.shape member)) →
      HoldsAt holds members = HoldsAt holds' (members.map arena.shape) := fun holds holds' same =>
    funext fun index => propext ((holdsAt_congr fun member listed => same member (there member listed)).trans
      holdsAt_map.symm)
  rw [memberView, Shape.memberView, MemberView.mk.injEq]
  refine ⟨agree _ _ fun member inside => ?_, agree _ _ fun member inside => ?_, agree _ _ fun member inside => ?_,
    funext fun index => funext fun regime => sound.memberOffset_eq inside index regime⟩
  · rw [sound.isValueType_eq inside]
  · rw [sound.isReferenceType_eq inside]
  · rw [sound.headSize_eq inside]

/-- A struct or tuple whose heads have a size is split whatever number of references may be bridged, and no two of its
segments could be one. -/
theorem members_split_maximally (made : arena.Made) (inside : id < arena.size)
    (own : (arena.kind id).members? = some members) {size : Nat} (sized : total arena.headSize members = .ok size)
    (cap : Nat) : ∃ segmentation, arena.segmentation id cap = .ok segmentation ∧
      segmentation.Exhausts (arena.memberView id members) members.length cap := by
  have sound := made.sound
  obtain ⟨composite, legal, below⟩ := sound.composite_of_members inside own
  have there : ∀ member ∈ members, member < arena.size := fun member listed => Nat.lt_trans (below member listed) inside
  have heads : Shape.Sized (members.map arena.shape) := by
    refine Shape.headSizeSum_ok_iff.mp ⟨size, ?_⟩
    rw [Shape.headSizeSum_eq_total, ← total_eq fun member listed => sound.headSize_eq (there member listed)]
    exact sized
  rw [sound.segmentation_eq inside, sound.memberView_eq inside there, ← List.length_map arena.shape]
  exact Shape.segmentation_exhausts composite heads (fun shape listed => (Shape.areLegal_iff.mp legal shape listed).1) cap

/-- An arena with a struct that has words, references of one word, and a pair of words in place. -/
def orderArena : Arena :=
  ((Addition.described (.struct "Order" [⟨"buyer", .address⟩, ⟨"note", .bytes⟩, ⟨"amount", .uint 256⟩,
    ⟨"range", .array (.uint 256) (some 2)⟩, ⟨"price", .uint 256⟩, ⟨"tags", .string⟩, ⟨"memo", .bytes⟩,
    ⟨"paid", .bool⟩])).run.runOn .empty).2

/-- With one bridged reference, the note lies in the first segment; the pair is two words wide, and the tags and the memo
are two references in a row, so neither is bridged. -/
theorem order_splits_maximally : ∃ segmentation, orderArena.segmentation 9 1 = .ok segmentation ∧
    segmentation.segments.map Segment.indices = [[0, 1, 2], [4], [7]] ∧ segmentation.standalone = [3, 5, 6] ∧
    segmentation.Exhausts (orderArena.memberView 9 [0, 1, 2, 4, 5, 6, 7, 8]) 8 1 := by
  have made : orderArena.Made := .extended _ .empty fun _ named => nomatch named
  have own : (orderArena.kind 9).members? = some [0, 1, 2, 4, 5, 6, 7, 8] := by decide +kernel
  have sized : total orderArena.headSize [0, 1, 2, 4, 5, 6, 7, 8] = .ok 288 := by decide +kernel
  obtain ⟨segmentation, split, exhausts⟩ := members_split_maximally made (show 9 < orderArena.size by decide +kernel)
    own sized 1
  have parts : (orderArena.segmentation 9 1).toOption.map (fun split => (split.segments.map Segment.indices,
      split.standalone)) = some ([[0, 1, 2], [4], [7]], [3, 5, 6]) := by decide +kernel
  rw [split] at parts
  obtain ⟨runs, alone⟩ := Prod.mk.inj (Option.some.inj parts)
  exact ⟨segmentation, split, runs, alone, exhausts⟩

end

end Arena

end YulAbi
