import Mathlib.Data.List.Chain
import YulAbi.Proofs.Shape.Coverage

/-!
# How long segments are

Segments and standalone members hold every member once. A segment runs from a value to a
value over heads of one word each, with at most the given number of references in a row,
and its members lie one word behind each other on both sides. It ends at the last value
that it can: in front of every later value there is a head that is not one word, or more
references in a row than may be bridged.
-/

namespace YulAbi

/-- Whether there is a member at an index of which something holds. -/
def HoldsAt {α : Type} (holds : α → Prop) (members : List α) (index : Nat) : Prop :=
  ∃ member, members[index]? = some member ∧ holds member

/-- What holds of an entry of a mapped list holds of the image of an entry. -/
theorem holdsAt_map {α β : Type} {holds : β → Prop} {image : α → β} {members : List α} {index : Nat} :
    HoldsAt holds (members.map image) index ↔ HoldsAt (holds ∘ image) members index := by
  simp [HoldsAt]

/-- The entries of two properties that agree on all members are the same. -/
theorem holdsAt_congr {α : Type} {holds holds' : α → Prop} {members : List α} {index : Nat}
    (agree : ∀ member ∈ members, (holds member ↔ holds' member)) :
    HoldsAt holds members index ↔ HoldsAt holds' members index :=
  exists_congr fun _ => and_congr_right fun found => agree _ (List.mem_of_getElem? found)

/-- The member behind some members. -/
theorem holdsAt_length {α : Type} {holds : α → Prop} {before others : List α} {member : α} :
    HoldsAt holds (before ++ member :: others) before.length ↔ holds member := by
  simp [HoldsAt]

/-- What there is to know of the members of a struct or tuple to split them. -/
structure MemberView where
  /-- Whether a member is a word. -/
  value : Nat → Prop
  /-- Whether a member lies in memory behind a pointer. -/
  reference : Nat → Prop
  /-- Whether the head of a member is one word. -/
  oneWord : Nat → Prop
  /-- Where a member lies. -/
  offset : Nat → Regime → Generated Nat

namespace MemberView

/-- Whether the members from `start` up to `stop` may be copied in one go: from a value to a value, all heads are one
word, and at most `cap` references follow each other. -/
structure Run (view : MemberView) (cap start stop : Nat) : Prop where
  /-- There is at least one member. -/
  nonempty : start < stop
  /-- The first one is a value. -/
  first : view.value start
  /-- So is the last one. -/
  last : view.value (stop - 1)
  /-- All heads are one word. -/
  words : ∀ index, start ≤ index → index < stop → view.oneWord index
  /-- Among any `cap + 1` members in a row one is no reference. -/
  capped : ∀ first, start ≤ first → first + cap < stop → ∃ step ≤ cap, ¬ view.reference (first + step)

/-- Whether no run goes on from `stop` to `later`: there is a head that is not one word in between, or more than `cap`
references in a row. -/
def Barrier (view : MemberView) (cap stop later : Nat) : Prop :=
  (∃ index, stop ≤ index ∧ index < later ∧ ¬ view.oneWord index) ∨
    ∃ first, stop ≤ first ∧ first + cap < later ∧ ∀ step ≤ cap, view.reference (first + step)

/-- Whether values are no references, have heads of one word, and are the only members besides references. -/
structure Plain (view : MemberView) (count : Nat) : Prop where
  /-- Values are no references. -/
  apart : ∀ index, view.value index → ¬ view.reference index
  /-- The head of a value is the word. -/
  words : ∀ index, view.value index → view.oneWord index
  /-- Every other member is a reference. -/
  others : ∀ index < count, ¬ view.value index → view.reference index

/-- A value is a run of its own. -/
theorem Plain.single {view : MemberView} {count cap start : Nat} (plain : view.Plain count)
    (value : view.value start) : view.Run cap start (start + 1) := by
  refine ⟨Nat.lt_succ_self _, value, value, fun index above below => ?_, fun first above below => ?_⟩
  · obtain rfl : index = start := by omega
    exact plain.words index value
  · obtain rfl : first = start := by omega
    exact ⟨0, Nat.zero_le _, plain.apart first value⟩

/-- A value that does not come before some references comes behind them. -/
theorem Plain.beyond {view : MemberView} {count first stop later : Nat} (plain : view.Plain count)
    (references : ∀ index, first ≤ index → index < stop → view.reference index) (behind : first ≤ later)
    (value : view.value later) : stop ≤ later :=
  Nat.le_of_not_lt fun within => plain.apart later value (references later behind within)

/-- A run goes on to a value behind at most `cap` references whose heads are one word. -/
theorem Run.extend {view : MemberView} {count cap start stop next : Nat} (run : view.Run cap start stop)
    (plain : view.Plain count) (behind : stop ≤ next) (few : next ≤ stop + cap)
    (bridged : ∀ index, stop ≤ index → index < next → view.oneWord index ∧ view.reference index)
    (value : view.value next) : view.Run cap start (next + 1) := by
  have nonempty := run.nonempty
  refine ⟨by omega, run.first, value, fun index above below => ?_, fun first above below => ?_⟩
  · by_cases within : index < stop
    · exact run.words index above within
    · rcases Nat.lt_or_eq_of_le (Nat.le_of_lt_succ below) with less | rfl
      · exact (bridged index (by omega) less).1
      · exact plain.words index value
  · -- A window of `cap + 1` members ends in the old run, ends at the new value, or spans the end of the old run.
    by_cases within : first + cap < stop
    · exact run.capped first above within
    · by_cases ends : first + cap = next
      · exact ⟨cap, Nat.le_refl _, ends ▸ plain.apart next value⟩
      · obtain ⟨step, spanned⟩ : ∃ step, stop - 1 = first + step := ⟨stop - 1 - first, by omega⟩
        exact ⟨step, by omega, spanned ▸ plain.apart _ run.last⟩

end MemberView

/-- Whether the members of a struct or tuple are split into as few segments as the rules for these allow. -/
structure Segmentation.Exhausts (segmentation : Segmentation) (view : MemberView) (count cap : Nat) : Prop where
  /-- Segments and standalone members hold every member once. -/
  covers : segmentation.coversEachMemberOnce count = true
  /-- Segments may be copied in one go. -/
  runs : ∀ segment ∈ segmentation.segments, view.Run cap segment.start segment.stop
  /-- Their members lie one word behind each other on both sides. -/
  lockstep : ∀ segment ∈ segmentation.segments, ∀ index, segment.start ≤ index → index < segment.stop →
    view.offset index .calldata = .ok (segment.callOffset + (index - segment.start) * wordBytes) ∧
      view.offset index .memory = .ok (segment.memoryOffset + (index - segment.start) * wordBytes)
  /-- They follow each other. -/
  ordered : segmentation.segments.Pairwise fun segment later => segment.stop ≤ later.start
  /-- Standalone members are references. -/
  standalone : ∀ index ∈ segmentation.standalone, view.reference index
  /-- No two segments in a row could be one. -/
  maximal : segmentation.segments.IsChain fun segment next => view.Barrier cap segment.stop next.start

/-- Whether the members from an index on are split into segments that go as far as they can. -/
structure Segmentation.ExhaustsFrom (segmentation : Segmentation) (view : MemberView) (count cap start : Nat) :
    Prop where
  /-- Segments and standalone members hold every member once. -/
  covered : segmentation.coveredIndices.Perm (List.range' start (count - start))
  /-- Segments may be copied in one go. -/
  runs : ∀ segment ∈ segmentation.segments, start ≤ segment.start ∧ view.Run cap segment.start segment.stop
  /-- They start where their first member lies. -/
  placed : ∀ segment ∈ segmentation.segments, view.offset segment.start .calldata = .ok segment.callOffset ∧
    view.offset segment.start .memory = .ok segment.memoryOffset
  /-- They follow each other. -/
  ordered : segmentation.segments.Pairwise fun segment later => segment.stop ≤ later.start
  /-- Standalone members are references. -/
  standalone : ∀ index ∈ segmentation.standalone, view.reference index
  /-- No two segments could be one. -/
  maximal : segmentation.segments.Pairwise fun segment later => view.Barrier cap segment.stop later.start

section

variable {view : MemberView} {count cap start : Nat} {segment : Segment} {later : Segmentation}

/-- A segment in front of others that stops where it has to. -/
theorem Segmentation.ExhaustsFrom.run (starts : segment.start = start) (stops : segment.stop ≤ count)
    (fits : view.Run cap segment.start segment.stop)
    (placed : view.offset segment.start .calldata = .ok segment.callOffset ∧
      view.offset segment.start .memory = .ok segment.memoryOffset)
    (barred : ∀ index, segment.stop ≤ index → view.value index → view.Barrier cap segment.stop index)
    (behind : later.ExhaustsFrom view count cap segment.stop) :
    (Segmentation.mk (segment :: later.segments) later.standalone).ExhaustsFrom view count cap start := by
  have nonempty := fits.nonempty
  have divided : List.range' start (count - start) =
      segment.indices ++ List.range' segment.stop (count - segment.stop) := by
    have reached : segment.stop = segment.start + segment.length := by
      rw [Segment.length]
      omega
    have total : count - segment.start = segment.length + (count - segment.stop) := by
      omega
    rw [← starts, total, ← List.range'_append_1, Segment.indices, ← reached]
  refine ⟨?_, List.forall_mem_cons.mpr ⟨⟨Nat.le_of_eq starts.symm, fits⟩, fun other listed => ?_⟩,
    List.forall_mem_cons.mpr ⟨placed, behind.placed⟩, .cons (fun other listed => (behind.runs other listed).1)
    behind.ordered, behind.standalone, .cons (fun other listed => ?_) behind.maximal⟩
  · rw [divided, Segmentation.coveredIndices, List.flatMap_cons, List.append_assoc]
    exact behind.covered.append_left segment.indices
  · exact ⟨by have := (behind.runs other listed).1; omega, (behind.runs other listed).2⟩
  · exact barred other.start (behind.runs other listed).1 (behind.runs other listed).2.first

/-- A reference in front of segments. -/
theorem Segmentation.ExhaustsFrom.alone (inside : start < count) (reference : view.reference start)
    (behind : later.ExhaustsFrom view count cap (start + 1)) :
    (Segmentation.mk later.segments (start :: later.standalone)).ExhaustsFrom view count cap start := by
  refine ⟨?_, fun other listed => ⟨by have := (behind.runs other listed).1; omega, (behind.runs other listed).2⟩,
    behind.placed, behind.ordered, List.forall_mem_cons.mpr ⟨reference, behind.standalone⟩, behind.maximal⟩
  have total : count - start = count - (start + 1) + 1 := by omega
  rw [total, List.range'_succ]
  exact List.perm_middle.trans (behind.covered.cons start)

end

/-- Every index below a number is covered once if the covered ones are those, in any order. -/
theorem Segmentation.coversEachMemberOnce_of_perm {segmentation : Segmentation} {count : Nat}
    (covered : segmentation.coveredIndices.Perm (List.range count)) :
    segmentation.coversEachMemberOnce count = true := by
  have once : ∀ index < count, segmentation.coveredIndices.count index = 1 := fun index below => by
    rw [covered.count_eq, List.nodup_range.count, if_pos (List.mem_range.mpr below)]
  have below : ∀ index ∈ segmentation.coveredIndices, index < count := fun index listed =>
    List.mem_range.mp (covered.mem_iff.mp listed)
  simp only [coversEachMemberOnce, Bool.and_eq_true, List.all_eq_true, decide_eq_true_eq, List.mem_range, beq_iff_eq]
  exact ⟨below, once⟩

namespace Shape

/-- The members of a struct or tuple. -/
def memberView (owner : Shape) (members : List Shape) : MemberView where
  value := HoldsAt (·.isValueType = true) members
  reference := HoldsAt (·.isReferenceType = true) members
  oneWord := HoldsAt (·.headSize = .ok wordBytes) members
  offset := owner.memberOffset

/-- Members that are no signatures are words or references. -/
theorem memberView_plain {owner : Shape} {members : List Shape}
    (plain : ∀ member ∈ members, member.isSignature = false) : (owner.memberView members).Plain members.length := by
  refine ⟨?_, ?_, fun index inside other => ?_⟩
  · rintro index ⟨member, found, value⟩ ⟨same, again, reference⟩
    cases found.symm.trans again
    rw [isReferenceType_of_isValueType value] at reference
    cases reference
  · rintro index ⟨member, found, value⟩
    exact ⟨member, found, headSize_word value⟩
  · have found := List.getElem?_eq_getElem inside
    rcases isValueType_or_isReferenceType_of_plain (plain _ (List.getElem_mem inside)) with value | reference
    · exact absurd ⟨_, found, value⟩ other
    · exact ⟨_, found, reference⟩

section

variable {owner : Shape} {members : List Shape} {cap : Nat}

/-- A segment ends at the last value that it can reach. The run up to the last value seen holds `kept` members besides
the first one, and `bridged` references of one word each have been seen behind it. -/
theorem segmentExtent_spec (plain : (owner.memberView members).Plain members.length) {start : Nat}
    {before rest : List Shape} (all : members = before ++ rest) {bridged taken kept extent : Nat}
    (here : before.length = start + 1 + taken) (counted : taken = kept + bridged) (few : bridged ≤ cap)
    (run : (owner.memberView members).Run cap start (start + 1 + kept))
    (seen : ∀ index, start + 1 + kept ≤ index → index < start + 1 + taken →
      (owner.memberView members).oneWord index ∧ (owner.memberView members).reference index)
    (h : segmentExtent cap bridged taken kept rest = .ok extent) :
    (owner.memberView members).Run cap start (start + 1 + extent) ∧
      ∀ later, start + 1 + extent ≤ later → (owner.memberView members).value later →
        (owner.memberView members).Barrier cap (start + 1 + extent) later := by
  induction rest generalizing before bridged taken kept with
  | nil =>
    cases h
    refine ⟨run, fun later behind value => ?_⟩
    have passed := plain.beyond (fun index above below => (seen index above below).2) behind value
    obtain ⟨member, found, -⟩ := value
    have inside := (List.getElem?_eq_some_iff.mp found).1
    rw [all, List.append_nil, here] at inside
    omega
  | cons member others ih =>
    have all' : members = (before ++ [member]) ++ others := by rw [all, List.append_assoc, List.singleton_append]
    have here' : (before ++ [member]).length = start + 1 + (taken + 1) := by
      rw [List.length_append, List.length_singleton, here]
      rfl
    have at' : ∀ holds : Shape → Prop, HoldsAt holds members (start + 1 + taken) ↔ holds member := fun holds => by
      rw [all, ← here]
      exact holdsAt_length
    rw [segmentExtent] at h
    obtain ⟨size, measured, h⟩ := Attempt.bind_eq_ok.mp h
    split at h
    · rename_i wide
      cases h
      have notWord : ¬ (owner.memberView members).oneWord (start + 1 + taken) := fun oneWord => by
        rw [(at' _).mp oneWord] at measured
        cases measured
        exact wide rfl
      refine ⟨run, fun later behind value => .inl ⟨start + 1 + taken, by omega, ?_, notWord⟩⟩
      have passed := plain.beyond (fun index above below => (seen index above below).2) behind value
      refine Nat.lt_of_le_of_ne passed fun same => notWord ?_
      exact same ▸ plain.words later value
    · rename_i oneWord
      have oneWord : (owner.memberView members).oneWord (start + 1 + taken) :=
        (at' _).mpr (measured.trans (congrArg _ (Decidable.not_not.mp oneWord)))
      split at h
      · rename_i isValue
        have value : (owner.memberView members).value (start + 1 + taken) := (at' _).mpr isValue
        have longer : (owner.memberView members).Run cap start (start + 1 + taken + 1) :=
          run.extend plain (by omega) (by omega) seen value
        exact ih all' here' (by omega) (Nat.zero_le _) longer (fun index above below => by omega) h
      · rename_i isReference
        have isReference : ¬ (owner.memberView members).value (start + 1 + taken) := fun value =>
          isReference ((at' _).mp value)
        have reference := plain.others _ (by rw [all', List.length_append, here']; omega) isReference
        have seen' : ∀ index, start + 1 + kept ≤ index → index < start + 1 + (taken + 1) →
            (owner.memberView members).oneWord index ∧ (owner.memberView members).reference index := by
          intro index above below
          rcases Nat.lt_or_eq_of_le (Nat.le_of_lt_succ below) with less | rfl
          · exact seen index above less
          · exact ⟨oneWord, reference⟩
        split at h
        · rename_i full
          cases h
          refine ⟨run, fun later behind value => .inr ⟨_, Nat.le_refl _, ?_, fun step within => ?_⟩⟩
          · have passed := plain.beyond (fun index above below => (seen index above below).2) behind value
            have apart : later ≠ start + 1 + taken := fun same => isReference (same ▸ value)
            omega
          · exact (seen' _ (Nat.le_add_right _ _) (by omega)).2
        · exact ih all' here' (by omega) (by omega) run seen' h

/-- Members from an index on are split into segments that go as far as they can. -/
theorem segmentsFrom_exhausts (plain : (owner.memberView members).Plain members.length) (before rest : List Shape)
    {segmentation : Segmentation} (all : members = before ++ rest)
    (h : owner.segmentsFrom cap before.length rest = .ok segmentation) :
    segmentation.ExhaustsFrom (owner.memberView members) members.length cap before.length := by
  refine segmentsFrom_induction
    (motive := fun start split => split.ExhaustsFrom (owner.memberView members) members.length cap start)
    ?_ ?_ ?_ before rest all h
  · refine ⟨?_, nofun, nofun, .nil, nofun, .nil⟩
    rw [Nat.sub_self]
    exact .refl _
  · intro before others member extent segment later all value extended made behind
    obtain ⟨starts, stops, called, stored⟩ := segmentAt_eq_ok made
    have own : ∀ holds : Shape → Prop, HoldsAt holds members before.length ↔ holds member := fun holds => by
      rw [all]
      exact holdsAt_length
    have isValue : (owner.memberView members).value before.length := (own _).mpr value
    have all' : members = (before ++ [member]) ++ others := by rw [all, List.append_assoc, List.singleton_append]
    have next : (before ++ [member]).length = before.length + 1 + 0 := by simp
    obtain ⟨run, barred⟩ := segmentExtent_spec plain all' next rfl (Nat.zero_le _) (plain.single isValue)
      (fun index above below => by omega) extended
    rw [← stops, ← starts] at run
    rw [← stops] at barred behind
    rw [← starts] at called stored
    refine .run starts ?_ run ⟨called, stored⟩ barred behind
    obtain ⟨last, found, -⟩ := run.last
    have inside := (List.getElem?_eq_some_iff.mp found).1
    have nonempty := run.nonempty
    omega
  · intro before others member later all value behind
    have inside : before.length < members.length := by
      rw [all, List.length_append, List.length_cons]
      omega
    refine .alone inside (plain.others _ inside fun isValue => ?_) behind
    rw [all] at isValue
    rw [holdsAt_length.mp isValue] at value
    cases value

/-- The members of a struct or tuple whose heads have sizes are split, and no other segments could be longer. -/
theorem segmentation_exhausts (composite : owner.IsComposite members) (sized : Sized members)
    (plain : ∀ member ∈ members, member.isSignature = false) (cap : Nat) :
    ∃ segmentation, owner.segmentation cap = .ok segmentation ∧
      segmentation.Exhausts (owner.memberView members) members.length cap := by
  obtain ⟨segmentation, split⟩ := segmentation_ok composite sized cap
  refine ⟨segmentation, split, ?_⟩
  have cover := segmentation_cover composite split
  have unfolded : owner.segmentation cap = owner.segmentsFrom cap 0 members := by
    rcases composite with ⟨name, rfl⟩ | rfl <;> rfl
  rw [unfolded] at split
  have exhausts := segmentsFrom_exhausts (memberView_plain plain) [] members rfl split
  refine ⟨?_, fun segment listed => (exhausts.runs segment listed).2, fun segment listed index above below => ?_,
    exhausts.ordered, exhausts.standalone, exhausts.maximal.isChain⟩
  · apply Segmentation.coversEachMemberOnce_of_perm
    rw [List.range_eq_range']
    exact exhausts.covered
  · have fits := cover.fits segment listed
    have stops := fits.stops
    obtain ⟨called, stored⟩ := exhausts.placed segment listed
    obtain ⟨calledFirst, storedFirst⟩ := memberOffset_ok composite sized segment.start (by omega)
    obtain ⟨calledOwn, storedOwn⟩ := memberOffset_ok composite sized index (by omega)
    rw [Except.ok.inj (called.symm.trans calledFirst), Except.ok.inj (stored.symm.trans storedFirst)]
    refine ⟨calledOwn.trans ?_, storedOwn.trans ?_⟩
    · rw [fits.aligned index above (Nat.le_of_lt below), Nat.mul_comm]
    · rw [← Nat.add_mul, Nat.add_sub_cancel' above]

end

end Shape

end YulAbi
