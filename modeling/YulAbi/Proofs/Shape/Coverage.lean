import YulAbi.Proofs.Shape.Size
import YulAbi.Shape.Segments

/-!
# What segments cover

The members of a segment have heads of one word each, so they lie alike in call data and
in memory, and every value among the members lies in a segment. A struct or tuple can be
split whenever its heads have sizes.
-/

namespace YulAbi

/-- Whether a segment is a run of members whose heads are one word each. -/
structure Segment.Fits (members : List Shape) (segment : Segment) : Prop where
  /-- There is at least one member. -/
  starts : segment.start < segment.stop
  /-- All of them are members. -/
  stops : segment.stop ≤ members.length
  /-- Their heads advance by one word each. -/
  aligned : ∀ index, segment.start ≤ index → index ≤ segment.stop →
    Shape.headBytesSum (members.take index) =
      Shape.headBytesSum (members.take segment.start) + wordBytes * (index - segment.start)

/-- Whether segments are runs that hold every value among the members from an index on. -/
structure Segment.Cover (members : List Shape) (index : Nat) (segments : List Segment) : Prop where
  /-- Each segment is a run. -/
  fits : ∀ segment ∈ segments, segment.Fits members
  /-- Each value lies in one of them. -/
  covers : ∀ position (inside : position < members.length), index ≤ position →
    members[position].isValueType = true →
    ∃ segment ∈ segments, segment.start ≤ position ∧ position < segment.stop

namespace Shape

section

variable {owner : Shape} {members rest : List Shape} {cap index : Nat}

/-- How far a segment extends: the members that it takes have heads of one word each. -/
theorem segmentExtent_heads {bridged taken kept extent : Nat} (behind : kept ≤ taken)
    (h : segmentExtent cap bridged taken kept rest = .ok extent) :
    kept ≤ extent ∧ extent ≤ taken + rest.length ∧
      ∀ step (inside : step < rest.length), taken + step < extent → rest[step].headBytes = wordBytes := by
  induction rest generalizing bridged taken kept with
  | nil =>
    cases h
    exact ⟨Nat.le_refl _, behind, fun step inside => absurd inside (Nat.not_lt_zero _)⟩
  | cons member others ih =>
    have stopped : extent = kept → kept ≤ extent ∧ extent ≤ taken + (member :: others).length ∧
        ∀ step (inside : step < (member :: others).length), taken + step < extent →
          (member :: others)[step].headBytes = wordBytes := by
      rintro rfl
      exact ⟨Nat.le_refl _, by omega, fun step _ within => by omega⟩
    have gone_on : ∀ {bridged' kept'}, kept ≤ kept' → kept' ≤ taken + 1 → member.headBytes = wordBytes →
        segmentExtent cap bridged' (taken + 1) kept' others = .ok extent →
        kept ≤ extent ∧ extent ≤ taken + (member :: others).length ∧
          ∀ step (inside : step < (member :: others).length), taken + step < extent →
            (member :: others)[step].headBytes = wordBytes := by
      intro bridged' kept' more few own later
      obtain ⟨least, most, heads⟩ := ih few later
      refine ⟨by omega, by simp only [List.length_cons]; omega, fun step inside within => ?_⟩
      cases step with
      | zero => exact own
      | succ step => exact heads step (by simpa using inside) (by omega)
    rw [segmentExtent] at h
    obtain ⟨size, measured, h⟩ := Attempt.bind_eq_ok.mp h
    have own := headSize_eq measured
    split at h
    · cases h
      exact stopped rfl
    · rename_i oneWord
      have oneWord : member.headBytes = wordBytes := own ▸ Decidable.not_not.mp oneWord
      split at h
      · exact gone_on (by omega) (Nat.le_refl _) oneWord h
      · split at h
        · cases h
          exact stopped rfl
        · exact gone_on (Nat.le_refl _) (by omega) oneWord h

/-- Heads of one word each advance by one word each. -/
theorem headBytesSum_take_add {start count : Nat}
    (heads : ∀ step < count, ∃ inside : start + step < members.length, members[start + step].headBytes = wordBytes) :
    headBytesSum (members.take (start + count)) = headBytesSum (members.take start) + wordBytes * count := by
  induction count with
  | zero => rfl
  | succ count ih =>
    obtain ⟨inside, own⟩ := heads count (Nat.lt_succ_self _)
    rw [← Nat.add_assoc, List.take_succ_eq_append_getElem inside, headBytesSum_append,
      ih fun step below => heads step (Nat.lt_succ_of_lt below), headBytesSum, headBytesSum, own, Nat.mul_succ]
    omega

/-- A value and the members that its segment takes have heads of one word each. -/
theorem segmentExtent_widths {before others : List Shape} {member : Shape} {extent : Nat}
    (all : members = before ++ member :: others) (value : member.isValueType = true)
    (extended : segmentExtent cap 0 0 0 others = .ok extent) :
    ∀ step < 1 + extent, ∃ inside : before.length + step < members.length,
      members[before.length + step].headBytes = wordBytes := by
  obtain ⟨-, most, heads⟩ := segmentExtent_heads (Nat.le_refl 0) extended
  intro step within
  have total : members.length = before.length + 1 + others.length := by
    rw [all, List.length_append, List.length_cons]
    omega
  refine ⟨by omega, ?_⟩
  simp only [all, List.getElem_append_right (Nat.le_add_right _ _), Nat.add_sub_cancel_left]
  cases step with
  | zero => exact headBytes_word value
  | succ step => exact heads step (by omega) (by omega)

/-- The segment of given members has these members and the offsets of the first of them. -/
theorem segmentAt_eq_ok {start stop : Nat} {segment : Segment} (h : owner.segmentAt start stop = .ok segment) :
    segment.start = start ∧ segment.stop = stop ∧ owner.memberOffset start .calldata = .ok segment.callOffset ∧
      owner.memberOffset start .memory = .ok segment.memoryOffset := by
  obtain ⟨_, called, h⟩ := Attempt.bind_eq_ok.mp h
  obtain ⟨_, stored, h⟩ := Attempt.bind_eq_ok.mp h
  obtain ⟨_, -, h⟩ := Attempt.bind_eq_ok.mp h
  cases h
  exact ⟨rfl, rfl, called, stored⟩

/-- What holds where no members are left, and of a segment or a reference if it holds of how the members behind it are
split, holds of how members are split. The induction is on their number, as a segment takes several. -/
theorem segmentsFrom_induction {motive : Nat → Segmentation → Prop} (none : motive members.length ⟨[], []⟩)
    (run : ∀ (before others : List Shape) (member : Shape) (extent : Nat) (segment : Segment) (later : Segmentation),
      members = before ++ member :: others → member.isValueType = true →
      segmentExtent cap 0 0 0 others = .ok extent →
      owner.segmentAt before.length (before.length + 1 + extent) = .ok segment →
      motive (before.length + 1 + extent) later →
      motive before.length ⟨segment :: later.segments, later.standalone⟩)
    (alone : ∀ (before others : List Shape) (member : Shape) (later : Segmentation),
      members = before ++ member :: others → member.isValueType = false → motive (before.length + 1) later →
      motive before.length ⟨later.segments, before.length :: later.standalone⟩)
    (before rest : List Shape) {segmentation : Segmentation} (all : members = before ++ rest)
    (h : owner.segmentsFrom cap before.length rest = .ok segmentation) : motive before.length segmentation := by
  cases rest with
  | nil =>
    rw [segmentsFrom] at h
    cases h
    rw [List.append_nil] at all
    exact all ▸ none
  | cons member others =>
    rw [segmentsFrom] at h
    split at h
    · rename_i value
      obtain ⟨extent, extended, h⟩ := Attempt.bind_eq_ok.mp h
      obtain ⟨segment, made, h⟩ := Attempt.bind_eq_ok.mp h
      obtain ⟨later, split, h⟩ := Attempt.bind_eq_ok.mp h
      cases h
      obtain ⟨-, most, -⟩ := segmentExtent_heads (Nat.le_refl 0) extended
      have next : (before ++ member :: others.take extent).length = before.length + 1 + extent := by
        simp only [List.length_append, List.length_cons, List.length_take]
        omega
      have all' : members = (before ++ member :: others.take extent) ++ others.drop extent := by
        rw [all, List.append_assoc, List.cons_append, List.take_append_drop]
      rw [← next] at split
      have behind := segmentsFrom_induction none run alone _ _ all' split
      rw [next] at behind
      exact run before others member extent segment later all value extended made behind
    · rename_i reference
      obtain ⟨later, split, h⟩ := Attempt.bind_eq_ok.mp h
      cases h
      have next : (before ++ [member]).length = before.length + 1 := by simp
      have all' : members = (before ++ [member]) ++ others := by rw [all, List.append_assoc, List.singleton_append]
      rw [← next] at split
      have behind := segmentsFrom_induction none run alone _ _ all' split
      rw [next] at behind
      exact alone before others member later all (by simpa using reference) behind
  termination_by rest.length

/-- The segments of the members from an index on hold all values among these. -/
theorem segmentsFrom_cover (before rest : List Shape) {segmentation : Segmentation} (all : members = before ++ rest)
    (h : owner.segmentsFrom cap before.length rest = .ok segmentation) :
    Segment.Cover members before.length segmentation.segments := by
  refine segmentsFrom_induction (motive := fun index split => Segment.Cover members index split.segments) ?_ ?_ ?_
    before rest all h
  · exact ⟨fun segment listed => absurd listed List.not_mem_nil, fun position inside behind _ => by omega⟩
  · intro before others member extent segment later all value extended made cover
    obtain ⟨starts, stops, -, -⟩ := segmentAt_eq_ok made
    have widths := segmentExtent_widths all value extended
    have fits : segment.Fits members := by
      obtain ⟨within, -⟩ := widths extent (by omega)
      refine ⟨by omega, by omega, fun index above below => ?_⟩
      obtain ⟨count, rfl⟩ : ∃ count, index = segment.start + count := ⟨index - segment.start, by omega⟩
      rw [Nat.add_sub_cancel_left, starts]
      exact headBytesSum_take_add fun step within => widths step (by omega)
    refine ⟨fun run listed => ?_, fun position inside behind isValue => ?_⟩
    · rcases List.mem_cons.mp listed with same | listed
      · exact same ▸ fits
      · exact cover.fits run listed
    · by_cases within : position < before.length + 1 + extent
      · exact ⟨segment, List.mem_cons_self, by omega, by omega⟩
      · obtain ⟨run, listed, held⟩ := cover.covers position inside (by omega) isValue
        exact ⟨run, List.mem_cons_of_mem _ listed, held⟩
  · intro before others member later all reference cover
    refine ⟨cover.fits, fun position inside behind isValue => cover.covers position inside ?_ isValue⟩
    refine Nat.lt_of_le_of_ne behind fun same => ?_
    subst same
    simp only [all, List.getElem_append_right (Nat.le_refl _), Nat.sub_self, List.getElem_cons_zero] at isValue
    rw [reference] at isValue
    cases isValue

/-- All values among the members of a struct or tuple lie in segments. -/
theorem segmentation_cover (composite : owner.IsComposite members) {segmentation : Segmentation}
    (h : owner.segmentation cap = .ok segmentation) : Segment.Cover members 0 segmentation.segments := by
  have unfolded : owner.segmentation cap = owner.segmentsFrom cap 0 members := by
    rcases composite with ⟨name, rfl⟩ | rfl <;> rfl
  rw [unfolded] at h
  exact segmentsFrom_cover [] members rfl h

/-- Whether the heads of all members have sizes. -/
def Sized (members : List Shape) : Prop := ∀ member ∈ members, ∃ size, member.headSize = .ok size

/-- Heads have a total size exactly if each of them has a size. -/
theorem headSizeSum_ok_iff : (∃ total, headSizeSum members = .ok total) ↔ Sized members := by
  induction members with
  | nil => exact ⟨fun _ _ listed => absurd listed List.not_mem_nil, fun _ => ⟨0, rfl⟩⟩
  | cons member rest ih =>
    rw [headSizeSum]
    constructor
    · rintro ⟨total, h⟩
      obtain ⟨size, measured, h⟩ := Attempt.bind_eq_ok.mp h
      obtain ⟨others, summed, -⟩ := Attempt.bind_eq_ok.mp h
      intro other listed
      rcases List.mem_cons.mp listed with same | listed
      · exact ⟨size, same ▸ measured⟩
      · exact ih.mp ⟨others, summed⟩ other listed
    · intro sized
      obtain ⟨size, measured⟩ := sized member List.mem_cons_self
      obtain ⟨others, summed⟩ := ih.mpr fun other listed => sized other (List.mem_cons_of_mem _ listed)
      exact ⟨size + others, Attempt.bind_eq_ok.mpr ⟨size, measured, Attempt.bind_eq_ok.mpr ⟨others, summed, rfl⟩⟩⟩

/-- The first of sized members are sized. -/
theorem Sized.take (sized : Sized members) (count : Nat) : Sized (members.take count) :=
  fun member listed => sized member (List.mem_of_mem_take listed)

/-- The offsets of members whose heads have sizes. -/
theorem memberOffset_ok (composite : owner.IsComposite members) (sized : Sized members) (index : Nat)
    (inside : index < members.length) :
    owner.memberOffset index .calldata = .ok (headBytesSum (members.take index)) ∧
      owner.memberOffset index .memory = .ok (index * wordBytes) := by
  have unfolded : ∀ regime, owner.memberOffset index regime = owner.compositeOffset members index regime := by
    rcases composite with ⟨name, rfl⟩ | rfl <;> exact fun _ => rfl
  obtain ⟨total, summed⟩ := headSizeSum_ok_iff.mpr (sized.take index)
  rw [unfolded, unfolded, compositeOffset, compositeOffset, if_pos inside, if_pos inside]
  exact ⟨headSizeSum_eq summed ▸ summed, rfl⟩

/-- How far a segment extends is known if heads have sizes. -/
theorem segmentExtent_ok (sized : Sized rest) (bridged taken kept : Nat) :
    ∃ extent, segmentExtent cap bridged taken kept rest = .ok extent := by
  induction rest generalizing bridged taken kept with
  | nil => exact ⟨kept, rfl⟩
  | cons member others ih =>
    obtain ⟨size, measured⟩ := sized member List.mem_cons_self
    have later := ih fun other listed => sized other (List.mem_cons_of_mem _ listed)
    rw [segmentExtent, measured]
    change ∃ extent, (if size ≠ wordBytes then _ else _) = _
    split
    · exact ⟨kept, rfl⟩
    · split
      · exact later _ _ _
      · split
        · exact ⟨kept, rfl⟩
        · exact later _ _ _

/-- The check of a segment passes if offsets advance by one word each. -/
theorem checkSteps_ok {callStart memoryStart step count : Nat}
    (steps : ∀ more < count, owner.memberOffset (index + more) .calldata = .ok (callStart + (step + more) * wordBytes) ∧
      owner.memberOffset (index + more) .memory = .ok (memoryStart + (step + more) * wordBytes)) :
    owner.checkSteps callStart memoryStart index step count = .ok () := by
  induction count generalizing index step with
  | zero => rfl
  | succ count ih =>
    obtain ⟨called, stored⟩ := steps 0 (Nat.succ_pos _)
    have later := ih fun more below => by
      have next := steps (more + 1) (Nat.succ_lt_succ below)
      rwa [Nat.add_comm more 1, ← Nat.add_assoc, ← Nat.add_assoc] at next
    rw [Nat.add_zero, Nat.add_zero] at called stored
    rw [checkSteps, called, stored]
    change (if callStart + step * wordBytes - callStart = step * wordBytes ∧
      memoryStart + step * wordBytes - memoryStart = step * wordBytes then _ else _) = _
    rw [if_pos ⟨Nat.add_sub_cancel_left .., Nat.add_sub_cancel_left ..⟩]
    exact later

/-- Members whose heads have sizes can be split, and the checks of segments pass. -/
theorem segmentsFrom_ok (composite : owner.IsComposite members) (sized : Sized members) (before rest : List Shape)
    (all : members = before ++ rest) : ∃ segmentation, owner.segmentsFrom cap before.length rest = .ok segmentation := by
  cases rest with
  | nil => exact ⟨⟨[], []⟩, by rw [segmentsFrom]⟩
  | cons member others =>
    have listed : ∀ other ∈ others, other ∈ members := fun other inside => by simp [all, inside]
    rw [segmentsFrom]
    split
    · rename_i value
      obtain ⟨extent, extended⟩ := segmentExtent_ok (fun other inside => sized other (listed other inside))
        0 0 0
      obtain ⟨-, most, -⟩ := segmentExtent_heads (Nat.le_refl 0) extended
      have widths := segmentExtent_widths all value extended
      have total : members.length = before.length + 1 + others.length := by
        rw [all, List.length_append, List.length_cons]
        omega
      obtain ⟨called, stored⟩ := memberOffset_ok composite sized before.length (by omega)
      have steps : owner.checkSteps (headBytesSum (members.take before.length)) (before.length * wordBytes)
          before.length 0 (before.length + 1 + extent - before.length) = .ok () := by
        refine checkSteps_ok fun more below => ?_
        obtain ⟨called', stored'⟩ := memberOffset_ok composite sized (before.length + more) (by omega)
        rw [called', stored', headBytesSum_take_add fun step within => widths step (by omega), Nat.zero_add,
          Nat.mul_comm more, Nat.add_mul, Nat.mul_comm more]
        exact ⟨rfl, rfl⟩
      have made : owner.segmentAt before.length (before.length + 1 + extent) =
          .ok ⟨before.length, before.length + 1 + extent, headBytesSum (members.take before.length),
            before.length * wordBytes⟩ :=
        Attempt.bind_eq_ok.mpr ⟨_, called, Attempt.bind_eq_ok.mpr ⟨_, stored,
          Attempt.bind_eq_ok.mpr ⟨(), steps, rfl⟩⟩⟩
      have next : (before ++ member :: others.take extent).length = before.length + 1 + extent := by
        simp only [List.length_append, List.length_cons, List.length_take]
        omega
      obtain ⟨later, split⟩ := segmentsFrom_ok composite sized (before ++ member :: others.take extent)
        (others.drop extent) (by rw [all, List.append_assoc, List.cons_append, List.take_append_drop])
      rw [next] at split
      exact ⟨_, Attempt.bind_eq_ok.mpr ⟨extent, extended, Attempt.bind_eq_ok.mpr ⟨_, made,
        Attempt.bind_eq_ok.mpr ⟨later, split, rfl⟩⟩⟩⟩
    · have next : (before ++ [member]).length = before.length + 1 := by simp
      obtain ⟨later, split⟩ := segmentsFrom_ok composite sized (before ++ [member]) others
        (by rw [all, List.append_assoc, List.singleton_append])
      rw [next] at split
      exact ⟨_, Attempt.bind_eq_ok.mpr ⟨later, split, rfl⟩⟩
  termination_by rest.length

/-- A struct or tuple whose heads have sizes can be split. -/
theorem segmentation_ok (composite : owner.IsComposite members) (sized : Sized members) (cap : Nat) :
    ∃ segmentation, owner.segmentation cap = .ok segmentation := by
  have unfolded : owner.segmentation cap = owner.segmentsFrom cap 0 members := by
    rcases composite with ⟨name, rfl⟩ | rfl <;> rfl
  rw [unfolded]
  exact segmentsFrom_ok composite sized [] members rfl

end

end Shape

end YulAbi
