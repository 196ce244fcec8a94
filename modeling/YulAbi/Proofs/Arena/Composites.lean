import YulAbi.Proofs.Arena.Geometry
import YulAbi.Proofs.Step

/-!
# Queries about composites

Offsets of parts, strategies for arrays, runs of members and encodings of values look further than
at the parts of a node. They are those of the shape of the node as well: runs are found by reaching
ahead and going back over references, which ends where the last value was seen on the way.
-/

namespace YulAbi

/-- There is a width for every shape. -/
theorem Shape.exactBitsAll_length {shapes : List Shape} {widths : List Nat} (h : exactBitsAll shapes = .ok widths) :
    widths.length = shapes.length := by
  induction shapes generalizing widths with
  | nil =>
    cases h
    rfl
  | cons shape rest ih =>
    obtain ⟨width, -, others⟩ := Attempt.bind_eq_ok.mp h
    obtain ⟨more, measured, ended⟩ := Attempt.bind_eq_ok.mp others
    cases ended
    rw [List.length_cons, List.length_cons, ih measured]

/-- A total over copies of one part. -/
theorem total_replicate {α : Type} (size : α → Generated Nat) (count : Nat) (part : α) :
    total size (List.replicate count part) = if count = 0 then .ok 0 else do return count * (← size part) := by
  induction count with
  | zero => rfl
  | succ count ih =>
    rw [List.replicate_succ, total, ih, if_neg (Nat.succ_ne_zero count)]
    cases size part with
    | error _ => rfl
    | ok own =>
      rcases Nat.eq_zero_or_pos count with rfl | positive
      · exact congrArg Except.ok (Nat.one_mul own).symm
      · rw [if_neg (Nat.ne_of_gt positive)]
        exact congrArg Except.ok ((Nat.add_comm _ _).trans (Nat.succ_mul count own).symm)

namespace Arena

/-- One more member in front is left if it is a value, or if any behind it is. -/
theorem valueExtent_cons (arena : Arena) (member : NodeId) (rest : List NodeId) :
    arena.valueExtent (member :: rest) =
      if arena.valueExtent rest = 0 ∧ arena.isValueType member = false then 0 else arena.valueExtent rest + 1 := by
  rw [valueExtent, valueExtent, List.reverse_cons, List.dropWhile_append]
  cases rest.reverse.dropWhile fun member => !arena.isValueType member with
  | nil => cases value : arena.isValueType member <;> simp [value]
  | cons entry more => simp

end Arena

namespace Value

/-- The encoding of the elements of an array. -/
theorem encodeEach_replicate (base : Shape) (elements : List Value) :
    encodeEach (List.replicate elements.length base) elements = elements.mapM fun element => do
      return (base.isDynamicallyEncoded, ← encodeAs base element) := by
  induction elements with
  | nil => rfl
  | cons element rest ih =>
    rw [List.length_cons, List.replicate_succ, encodeEach, List.mapM_cons, ih]
    cases encodeAs base element <;> rfl

/-- The size of the heads of the elements of an array. -/
theorem requireSize_replicate (base : Shape) (count : Nat) :
    requireSize (Shape.headSizeSum (List.replicate count base)) = elementHeads base count := by
  rw [Shape.headSizeSum_eq_total, total_replicate, elementHeads]
  split
  · rfl
  · cases base.headSize <;> rfl

end Value

namespace Arena

section

variable {arena : Arena} {id : NodeId} (sound : arena.Sound) (inside : id < arena.size)

include sound inside

/-- The packed offset of a part that is there. -/
theorem Sound.packedOffset_eq {index : Nat}
    (there : ∀ widths, (arena.shape id).partWidths = .ok widths → index < widths.length) :
    arena.packedOffset id index = (arena.shape id).packedOffset index := by
  rw [packedOffset, sound.packedLayout_eq inside fun child earlier => sound.exactBits_eq (Nat.lt_trans earlier inside),
    Shape.packedOffset]
  cases widths : (arena.shape id).partWidths with
  | error _ => rfl
  | ok listed => exact congrArg Except.ok (packedStarts_fst 0 listed index (there listed widths))

/-- The offset of a part. -/
theorem Sound.memberOffset_eq (index : Nat) (regime : Regime) :
    arena.memberOffset id index regime = (arena.shape id).memberOffset index regime := by
  refine @descend_eq arena id _ _ _ (fun shape => shape.memberOffset index regime)
    (fun id inside again earlier => ?_) inside
  have stride := sound.callStride_eq inside
  have memory := sound.memoryStride_eq inside
  have packed := fun there => @Sound.packedOffset_eq arena id sound inside index there
  obtain ⟨kind, shape, own, shaped, stands⟩ := sound.stands inside
  rw [own, shaped]
  rw [shaped] at stride memory packed
  cases stands with
  | struct name first | tuple first =>
    dsimp only
    rw [Shape.memberOffset, Shape.compositeOffset.eq_def, List.length_map]
    split
    · rename_i within
      cases regime with
      | calldata =>
        rw [Shape.headSizeSum_eq_total, ← List.map_take]
        exact total_eq fun member listed =>
          sound.headSize_eq (Nat.lt_trans (first member (List.mem_of_mem_take listed)) inside)
      | memory => rfl
      | packed => exact packed fun widths measured =>
          Nat.lt_of_lt_of_eq within ((List.length_map _).symm.trans (Shape.exactBitsAll_length measured).symm)
    · rfl
  | array length first =>
    dsimp only
    rw [Shape.memberOffset, Shape.elementOffset.eq_def]
    split
    · rfl
    · rename_i within
      cases regime with
      | calldata => rw [stride]; rfl
      | memory => rw [memory]; rfl
      | packed =>
        refine packed fun widths measured => ?_
        cases length with
        | none => exact nomatch measured
        | some count =>
          obtain ⟨width, -, ended⟩ := Attempt.bind_eq_ok.mp measured
          cases ended
          rw [List.length_replicate]
          simpa using within
  | error name first listed | event name data indexed anonymous first listed =>
    exact (earlier _ first).trans (by rw [listed]; rfl)
  | _ => rfl

/-- The strategy of an array. -/
theorem Sound.arrayStrategy_eq : arena.arrayStrategy id = (arena.shape id).arrayStrategy := by
  obtain ⟨kind, shape, own, shaped, stands⟩ := sound.stands inside
  rw [arrayStrategy, identifier, own, shaped]
  cases stands with
  | array length first =>
    have there := Nat.lt_trans first inside
    rw [Shape.arrayStrategy, Shape.elementStrategy]
    dsimp only
    rw [sound.isValueType_eq there, sound.nestedReferences_eq there, sound.nestedDynamics_eq there,
      sound.isDynamicallyEncoded_eq there]
    split
    · rfl
    · split <;> rfl
  | _ => rfl

end

section

variable {arena : Arena} {id : NodeId} (sound : arena.Sound)

include sound

/-- How far a segment reaches without the references at its end is where the last value was seen on the way. -/
theorem Sound.segmentReach_eq {members : List NodeId} (there : ∀ member ∈ members, member < arena.size)
    (cap bridged taken kept : Nat) :
    Shape.segmentExtent cap bridged taken kept (members.map arena.shape) = (do
      let extent := arena.valueExtent (members.take (← arena.segmentReach cap bridged members))
      return if extent = 0 then kept else taken + extent) := by
  induction members generalizing bridged taken kept with
  | nil => rfl
  | cons member rest ih =>
    obtain ⟨own, others⟩ := List.forall_mem_cons.mp there
    rw [List.map_cons, Shape.segmentExtent, segmentReach, ← sound.headSize_eq own, ← sound.isValueType_eq own,
      ih others, ih others]
    cases arena.headSize member with
    | error _ => rfl
    | ok size =>
      dsimp only [Bind.bind, Except.bind, Pure.pure, Except.pure]
      by_cases wide : size ≠ wordBytes
      · rw [if_pos wide, if_pos wide]
        rfl
      rw [if_neg wide, if_neg wide]
      cases value : arena.isValueType member with
      | true =>
        rw [if_pos rfl, if_pos rfl]
        cases arena.segmentReach cap 0 rest with
        | error _ => rfl
        | ok count =>
          simp only [List.take_succ_cons, valueExtent_cons, value]
          by_cases none : arena.valueExtent (rest.take count) = 0 <;> simp [none, Nat.add_assoc, Nat.add_comm 1]
      | false =>
        rw [if_neg Bool.false_ne_true, if_neg Bool.false_ne_true]
        by_cases full : cap < bridged + 1
        · rw [if_pos full, if_pos full]
          rfl
        rw [if_neg full, if_neg full]
        cases arena.segmentReach cap (bridged + 1) rest with
        | error _ => rfl
        | ok count =>
          simp only [List.take_succ_cons, valueExtent_cons, value]
          by_cases none : arena.valueExtent (rest.take count) = 0 <;> simp [none, Nat.add_assoc, Nat.add_comm 1]

/-- How many of the following members a segment takes. -/
theorem Sound.segmentExtent_eq {members : List NodeId} (there : ∀ member ∈ members, member < arena.size) (cap : Nat) :
    arena.segmentExtent cap members = Shape.segmentExtent cap 0 0 0 (members.map arena.shape) := by
  rw [sound.segmentReach_eq there, segmentExtent]
  refine Attempt.bind_congr fun count _ => congrArg Except.ok ?_
  split
  · assumption
  · exact (Nat.zero_add _).symm

/-- The check that members advance by one word each. -/
theorem Sound.checkSteps_eq {owner : NodeId} (inside : owner < arena.size)
    (callStart memoryStart index step count : Nat) :
    arena.checkSteps owner callStart memoryStart index step count =
      (arena.shape owner).checkSteps callStart memoryStart index step count := by
  induction count generalizing index step with
  | zero => rfl
  | succ count ih =>
    rw [checkSteps, Shape.checkSteps, sound.memberOffset_eq inside, sound.memberOffset_eq inside, ih]
    rfl

/-- A segment with its offsets. -/
theorem Sound.segmentAt_eq {owner : NodeId} (inside : owner < arena.size) (start stop : Nat) :
    arena.segmentAt owner start stop = (arena.shape owner).segmentAt start stop := by
  rw [segmentAt, Shape.segmentAt, sound.memberOffset_eq inside, sound.memberOffset_eq inside]
  simp only [sound.checkSteps_eq inside]

/-- Members are split as their shapes are. The induction is on their number, as a segment takes several. -/
theorem Sound.segmentsFrom_eq {owner : NodeId} (inside : owner < arena.size) (cap index : Nat) {members : List NodeId}
    (there : ∀ member ∈ members, member < arena.size) :
    arena.segmentsFrom owner cap index members =
      (arena.shape owner).segmentsFrom cap index (members.map arena.shape) := by
  induction counted : members.length using Nat.strongRecOn generalizing index members with
  | _ count ih =>
    subst counted
    cases members with
    | nil => rw [segmentsFrom, List.map_nil, Shape.segmentsFrom]
    | cons member rest =>
      obtain ⟨own, others⟩ := List.forall_mem_cons.mp there
      have behind : ∀ index extent : Nat, arena.segmentsFrom owner cap index (rest.drop extent) =
          (arena.shape owner).segmentsFrom cap index ((rest.map arena.shape).drop extent) := by
        intro index extent
        rw [← List.map_drop]
        have fewer : (rest.drop extent).length < (member :: rest).length := by
          rw [List.length_drop, List.length_cons]
          omega
        exact ih _ fewer index (fun other listed => others other (List.mem_of_mem_drop listed)) rfl
      rw [segmentsFrom, List.map_cons, Shape.segmentsFrom, sound.isValueType_eq own, sound.segmentExtent_eq others]
      split
      · refine Attempt.bind_congr fun extent _ => ?_
        rw [sound.segmentAt_eq inside, behind]
      · rw [← List.drop_zero (l := rest), behind]
        rfl

/-- The runs of a struct or tuple. -/
theorem Sound.segmentation_eq (inside : id < arena.size) (cap : Nat) :
    arena.segmentation id cap = (arena.shape id).segmentation cap := by
  have runs : ∀ members : List NodeId, (∀ member ∈ members, member < arena.size) → _ :=
    fun _ there => sound.segmentsFrom_eq inside cap 0 there
  obtain ⟨kind, shape, own, shaped, stands⟩ := sound.stands inside
  rw [segmentation, identifier, own, shaped]
  rw [shaped] at runs
  cases stands with
  | struct name first | tuple first =>
    exact runs _ fun member listed => Nat.lt_trans (first member listed) inside
  | _ => rfl

/-- The encodings of values with their marks, one node for each. -/
theorem Sound.encodeEach_eq {encode : NodeId → Value → Except Fault (List UInt8)} {members : List NodeId}
    (there : ∀ member ∈ members, member < arena.size ∧ encode member = Value.encodeAs (arena.shape member))
    (values : List Value) :
    ((members.zip values).mapM fun part => do
      return (arena.isDynamicallyEncoded part.1, ← encode part.1 part.2)) =
        Value.encodeEach (members.map arena.shape) values := by
  induction members generalizing values with
  | nil => rfl
  | cons member rest ih =>
    obtain ⟨⟨inside, own⟩, others⟩ := List.forall_mem_cons.mp there
    cases values with
    | nil => rfl
    | cons value more =>
      rw [List.zip_cons_cons, List.mapM_cons, List.map_cons, Value.encodeEach, ih others]
      dsimp only
      rw [own, sound.isDynamicallyEncoded_eq inside]
      cases Value.encodeAs (arena.shape member) value <;> rfl

/-- The encoding of parts with their values. -/
theorem Sound.encodeParts_eq {encode : NodeId → Value → Except Fault (List UInt8)} {members : List NodeId}
    (there : ∀ member ∈ members, member < arena.size ∧ encode member = Value.encodeAs (arena.shape member))
    (values : List Value) : arena.encodeParts encode members values = (do
      let headSize ← Value.requireSize (Shape.headSizeSum (members.map arena.shape))
      return Value.assemble headSize (← Value.encodeEach (members.map arena.shape) values)) := by
  have heads : total (fun member =>
      if arena.isDynamicallyEncoded member then .ok wordBytes else arena.encodedSize member) members =
        Shape.headSizeSum (members.map arena.shape) := by
    rw [Shape.headSizeSum_eq_total]
    refine total_eq fun member listed => ?_
    rw [sound.isDynamicallyEncoded_eq (there member listed).1, sound.encodedSize_eq (there member listed).1]
    rfl
  rw [encodeParts, heads, sound.encodeEach_eq there]

/-- The encoding of a value. -/
theorem Sound.encodeAs_eq (inside : id < arena.size) : arena.encodeAs id = Value.encodeAs (arena.shape id) := by
  refine descend_eq (fun id inside again earlier => funext fun value => ?_) inside
  have several : ∀ {members : List NodeId}, (∀ member ∈ members, member < id) → ∀ member ∈ members,
      member < arena.size ∧ again member = Value.encodeAs (arena.shape member) := fun first member listed =>
    ⟨Nat.lt_trans (first member listed) inside, earlier member (first member listed)⟩
  obtain ⟨kind, shape, own, shaped, stands⟩ := sound.stands inside
  rw [sound.isValueType_eq inside, own, shaped, Value.encodeAs.eq_def]
  cases stands with
  | array length first =>
    cases value with
    | array elements =>
      dsimp only
      rw [if_neg (by simp [Shape.isValueType])]
      refine Attempt.bind_congr fun _ _ => ?_
      rw [sound.encodeParts_eq (several fun member listed => List.eq_of_mem_replicate listed ▸ first),
        List.map_replicate, Value.encodeEach_replicate, Value.requireSize_replicate]
      simp only [bind_assoc, pure_bind]
    | _ => rfl
  | struct name first | tuple first =>
    cases value with
    | tuple values =>
      dsimp only
      rw [if_neg (by simp [Shape.isValueType]), sound.encodeParts_eq (several first), List.length_map]
    | _ => rfl
  | bytes | string => cases value <;> rfl
  | _ => cases value <;> rfl

end

end Arena

/-- The answers to all queries about layouts. -/
structure Answers where
  /-- Whether values are a single word. -/
  isValueType : Bool
  /-- Whether values live in memory behind a pointer. -/
  isReferenceType : Bool
  /-- Whether values are raw bytes behind a length word. -/
  isBytesLike : Bool
  /-- Whether the number of parts varies. -/
  isDynamicallySized : Bool
  /-- Whether the encoding has a tail behind an offset. -/
  isDynamicallyEncoded : Bool
  /-- Whether the significant bits are at the high end of the word. -/
  isLeftAligned : Bool
  /-- Whether values are sign-extended. -/
  isSigned : Bool
  /-- The size of a static encoding. -/
  encodedSize : Generated Nat
  /-- The size of the head. -/
  headSize : Generated Nat
  /-- The size of the fixed part of a dynamic encoding. -/
  tailSize : Generated Nat
  /-- The size in the memory of the owner. -/
  memoryHeadSize : Nat
  /-- The size of the memory that a value owns directly. -/
  memorySize : Generated Nat
  /-- The memory that a value owns together with all its parts. -/
  extendedMemorySize : Generated Nat
  /-- The distance between the heads of two elements. -/
  callStride : Generated Nat
  /-- The distance between two elements in memory. -/
  memoryStride : Generated Nat
  /-- The width in bits without padding. -/
  exactBits : Generated Nat
  /-- The number of reference levels. -/
  nestedReferences : Nat
  /-- The number of levels that vary in size. -/
  nestedDynamics : Nat
  /-- The offset of every part in every regime. -/
  memberOffset : Nat → Regime → Generated Nat
  /-- The strategy of an array. -/
  arrayStrategy : Generated ArrayStrategy
  /-- The runs under every cap. -/
  segmentation : Nat → Generated Segmentation
  /-- The canonical type string. -/
  abiType : String
  /-- The encoding of every value. -/
  encodeAs : Value → Except Fault (List UInt8)

/-- What a node answers to all queries. -/
def Arena.answers (arena : Arena) (id : NodeId) : Answers where
  isValueType := arena.isValueType id
  isReferenceType := arena.isReferenceType id
  isBytesLike := arena.isBytesLike id
  isDynamicallySized := arena.isDynamicallySized id
  isDynamicallyEncoded := arena.isDynamicallyEncoded id
  isLeftAligned := arena.isLeftAligned id
  isSigned := arena.isSigned id
  encodedSize := arena.encodedSize id
  headSize := arena.headSize id
  tailSize := arena.tailSize id
  memoryHeadSize := memoryHeadSize id
  memorySize := arena.memorySize id
  extendedMemorySize := arena.extendedMemorySize id
  callStride := arena.callStride id
  memoryStride := arena.memoryStride id
  exactBits := arena.exactBits id
  nestedReferences := arena.nestedReferences id
  nestedDynamics := arena.nestedDynamics id
  memberOffset := arena.memberOffset id
  arrayStrategy := arena.arrayStrategy id
  segmentation := arena.segmentation id
  abiType := arena.abiType id
  encodeAs := arena.encodeAs id

/-- What a shape answers to all queries. -/
def Shape.answers (shape : Shape) : Answers where
  isValueType := shape.isValueType
  isReferenceType := shape.isReferenceType
  isBytesLike := shape.isBytesLike
  isDynamicallySized := shape.isDynamicallySized
  isDynamicallyEncoded := shape.isDynamicallyEncoded
  isLeftAligned := shape.isLeftAligned
  isSigned := shape.isSigned
  encodedSize := shape.encodedSize
  headSize := shape.headSize
  tailSize := shape.tailSize
  memoryHeadSize := shape.memoryHeadSize
  memorySize := shape.memorySize
  extendedMemorySize := shape.extendedMemorySize
  callStride := shape.callStride
  memoryStride := shape.memoryStride
  exactBits := shape.exactBits
  nestedReferences := shape.nestedReferences
  nestedDynamics := shape.nestedDynamics
  memberOffset := shape.memberOffset
  arrayStrategy := shape.arrayStrategy
  segmentation := shape.segmentation
  abiType := shape.abiType
  encodeAs := Value.encodeAs shape

/-- A node answers what its shape answers. -/
theorem Arena.Sound.answers_eq {arena : Arena} {id : NodeId} (sound : arena.Sound) (inside : id < arena.size) :
    arena.answers id = (arena.shape id).answers := by
  have offsets : arena.memberOffset id = (arena.shape id).memberOffset :=
    funext fun index => funext fun regime => sound.memberOffset_eq inside index regime
  have runs : arena.segmentation id = (arena.shape id).segmentation :=
    funext fun cap => sound.segmentation_eq inside cap
  rw [answers, sound.isValueType_eq inside, sound.isReferenceType_eq inside, sound.isBytesLike_eq inside,
    sound.isDynamicallySized_eq inside, sound.isDynamicallyEncoded_eq inside, sound.isLeftAligned_eq inside,
    sound.isSigned_eq inside, sound.encodedSize_eq inside, sound.headSize_eq inside, sound.tailSize_eq inside,
    sound.memorySize_eq inside, sound.extendedMemorySize_eq inside, sound.callStride_eq inside,
    sound.memoryStride_eq inside, sound.exactBits_eq inside, sound.nestedReferences_eq inside,
    sound.nestedDynamics_eq inside, sound.arrayStrategy_eq inside, sound.abiType_eq inside, sound.encodeAs_eq inside,
    offsets, runs]
  rfl

end YulAbi
