import YulAbi.Arena.Geometry
import YulAbi.Proofs.Arena.Made
import YulAbi.Proofs.Shape.Kinds

/-!
# Queries about nodes are queries about shapes

A node of a sound arena stands for its shape: what it is made of stands for the parts of the
shape. So a query gives the answer that the shape gives, whatever labels, owners and names of
functions are. A query that is put again to earlier nodes gives the answer of the shape if it
does so whenever the earlier answers are those of their shapes.
-/

namespace YulAbi

/-- Whether a kind of nodes before `id` has a shape. Signatures are made of tuples. -/
inductive Arena.Stands (arena : Arena) (id : NodeId) : Kind → Shape → Prop where
  /-- Truth value. -/
  | bool : Stands arena id .bool .bool
  /-- Account address. -/
  | address : Stands arena id .address .address
  /-- Integer of a width in bits. -/
  | integer (signed : Bool) (bits : Nat) : Stands arena id (.integer signed bits) (.integer signed bits)
  /-- Enumeration with a number of members. -/
  | enumeration (name : String) (memberCount : Nat) :
    Stands arena id (.enumeration name memberCount) (.enumeration name memberCount)
  /-- Byte string of a fixed size. -/
  | fixedBytes (size : Nat) : Stands arena id (.fixedBytes size) (.fixedBytes size)
  /-- User-defined value type. -/
  | userDefined (name : String) {underlying : NodeId} (earlier : underlying < id) :
    Stands arena id (.userDefined name underlying) (.userDefined name (arena.shape underlying))
  /-- Byte string of any size. -/
  | bytes : Stands arena id .bytes .bytes
  /-- Text of any size. -/
  | string : Stands arena id .string .string
  /-- Array. -/
  | array (length : Option Nat) {base : NodeId} (earlier : base < id) :
    Stands arena id (.array base length) (.array (arena.shape base) length)
  /-- Named struct. -/
  | struct (name : String) {members : List NodeId} (earlier : ∀ member ∈ members, member < id) :
    Stands arena id (.struct name members) (.struct name (members.map arena.shape))
  /-- Unnamed tuple. -/
  | tuple {members : List NodeId} (earlier : ∀ member ∈ members, member < id) :
    Stands arena id (.tuple members) (.tuple (members.map arena.shape))
  /-- Function with two tuples. -/
  | function (name : String) (parameters returns : NodeId) (mutability : Mutability) (shapes shapes' : List Shape) :
    Stands arena id (.function name parameters returns mutability) (.function shapes shapes')
  /-- Error with a tuple. -/
  | error (name : String) {parameters : NodeId} {shapes : List Shape} (earlier : parameters < id)
    (own : arena.shape parameters = .tuple shapes) : Stands arena id (.error name parameters) (.error name shapes)
  /-- Event with the tuple of all parameters and the tuple of those that are data. -/
  | event (name : String) (data : NodeId) (indexed : List Bool) (anonymous : Bool) {parameters : NodeId}
    {shapes : List Shape} (earlier : parameters < id) (own : arena.shape parameters = .tuple shapes) :
    Stands arena id (.event name parameters data indexed anonymous) (.event name shapes indexed anonymous)

/-- The last field in the packed layout ends where the layout ends. -/
theorem packedStarts_snd (cursor : Nat) (widths : List Nat) :
    (packedStarts cursor widths).2 = Shape.packedEnd cursor widths := by
  induction widths generalizing cursor with
  | nil => rfl
  | cons width rest ih => exact ih _

/-- Every field starts where the fields before it allow. -/
theorem packedStarts_fst (cursor : Nat) (widths : List Nat) (index : Nat) (inside : index < widths.length) :
    (packedStarts cursor widths).1[index]?.getD 0 =
      Shape.nextFieldStart (Shape.packedEnd cursor (widths.take index)) (widths[index]?.getD 0) := by
  induction widths generalizing cursor index with
  | nil => exact absurd inside (Nat.not_lt_zero _)
  | cons width rest ih =>
    cases index with
    | zero => rfl
    | succ before => exact ih _ before (Nat.lt_of_succ_lt_succ inside)

namespace Shape

/-- The size of static encodings is a total. -/
theorem encodedSizeSum_eq_total (shapes : List Shape) : encodedSizeSum shapes = total encodedSize shapes := by
  induction shapes with
  | nil => rfl
  | cons shape rest ih => rw [encodedSizeSum, ih, total]

/-- The size of heads is a total. -/
theorem headSizeSum_eq_total (shapes : List Shape) : headSizeSum shapes = total headSize shapes := by
  induction shapes with
  | nil => rfl
  | cons shape rest ih => rw [headSizeSum, ih, total]

/-- The memory of references is a total. -/
theorem extendedMemorySizeSum_eq_total (shapes : List Shape) :
    extendedMemorySizeSum shapes = total extendedMemorySize (shapes.filter isReferenceType) := by
  induction shapes with
  | nil => rfl
  | cons shape rest ih =>
    rw [extendedMemorySizeSum, ih, List.filter_cons]
    split
    · rw [total]
    · rfl

/-- The widths of several shapes, one for each. -/
theorem exactBitsAll_eq_mapM (shapes : List Shape) : exactBitsAll shapes = shapes.mapM exactBits := by
  induction shapes with
  | nil => rfl
  | cons shape rest ih => rw [exactBitsAll, ih, List.mapM_cons]

/-- The number of reference levels of several shapes is a sum. -/
theorem nestedReferencesSum_eq (shapes : List Shape) :
    nestedReferencesSum shapes = (shapes.map nestedReferences).foldr (· + ·) 0 := by
  induction shapes with
  | nil => rfl
  | cons shape rest ih => rw [nestedReferencesSum, ih, List.map_cons, List.foldr_cons]

/-- The number of varying levels of several shapes is a sum. -/
theorem nestedDynamicsSum_eq (shapes : List Shape) :
    nestedDynamicsSum shapes = (shapes.map nestedDynamics).foldr (· + ·) 0 := by
  induction shapes with
  | nil => rfl
  | cons shape rest ih => rw [nestedDynamicsSum, ih, List.map_cons, List.foldr_cons]

/-- The canonical type strings of several shapes, one for each. -/
theorem abiTypes_eq_map (shapes : List Shape) : abiTypes shapes = shapes.map abiType := by
  induction shapes with
  | nil => rfl
  | cons shape rest ih => rw [abiTypes, ih, List.map_cons]

end Shape

namespace Arena

section

variable {arena : Arena} {id : NodeId}

/-- A node stands for its shape. -/
theorem Sound.stands (sound : arena.Sound) (inside : id < arena.size) :
    ∃ kind shape, arena.kind id = kind ∧ arena.shape id = shape ∧ arena.Stands id kind shape := by
  refine ⟨_, _, rfl, rfl, ?_⟩
  have below := sound.below id inside
  have fits := sound.signatures id inside
  rw [sound.shaped id inside]
  cases own : arena.kind id with
  | bool => exact .bool
  | address => exact .address
  | integer signed bits => exact .integer signed bits
  | enumeration name memberCount => exact .enumeration name memberCount
  | fixedBytes size => exact .fixedBytes size
  | bytes => exact .bytes
  | string => exact .string
  | function name parameters returns mutability => exact .function name parameters returns mutability _ _
  | userDefined name underlying =>
    rw [own] at below
    exact .userDefined name (below underlying List.mem_cons_self)
  | array base length =>
    rw [own] at below
    exact .array length (below base List.mem_cons_self)
  | struct name members =>
    rw [own] at below
    exact .struct name below
  | tuple members =>
    rw [own] at below
    exact .tuple below
  | error name parameters =>
    rw [own] at below fits
    exact .error name (below parameters List.mem_cons_self) fits
  | event name parameters data indexed anonymous =>
    rw [own] at below fits
    exact .event name data indexed anonymous (below parameters List.mem_cons_self) fits.1

/-- A node with the shape of a tuple has the members of the tuple. -/
theorem Sound.members_of_tuple (sound : arena.Sound) (inside : id < arena.size) {shapes : List Shape}
    (own : arena.shape id = .tuple shapes) :
    (arena.members id).map arena.shape = shapes ∧ ∀ member ∈ arena.members id, member < id := by
  obtain ⟨kind, shape, kept, shaped, stands⟩ := sound.stands inside
  rw [shaped] at own
  subst own
  rw [members, kept]
  cases stands with
  | tuple earlier => exact ⟨rfl, earlier⟩

/-- A query gives the answers of the shapes if it does so whenever the earlier answers are those of their shapes. The
induction is on the node. -/
theorem descend_eq {α : Type} {outside : α} {query : (NodeId → α) → NodeId → α} {answer : Shape → α}
    (step : ∀ id < arena.size, ∀ again : NodeId → α, (∀ child < id, again child = answer (arena.shape child)) →
      query again id = answer (arena.shape id)) (inside : id < arena.size) :
    descend outside query id = answer (arena.shape id) := by
  induction id using Nat.strongRecOn with
  | _ id ih =>
    rw [descend]
    refine step id inside _ fun child earlier => ?_
    rw [if_pos earlier]
    exact ih child earlier (Nat.lt_trans earlier inside)

/-- A total of sizes of nodes is that of the sizes of their shapes. -/
theorem total_eq {again : NodeId → Generated Nat} {size : Shape → Generated Nat} {members : List NodeId}
    (earlier : ∀ member ∈ members, again member = size (arena.shape member)) :
    total again members = total size (members.map arena.shape) := by
  induction members with
  | nil => rfl
  | cons member rest ih =>
    obtain ⟨own, others⟩ := List.forall_mem_cons.mp earlier
    rw [total, List.map_cons, total, own, ih others]

/-- The first failure among several nodes is that of their shapes. -/
theorem mapM_eq {again : NodeId → Generated Nat} {answer : Shape → Generated Nat} {members : List NodeId}
    (earlier : ∀ member ∈ members, again member = answer (arena.shape member)) :
    members.mapM again = (members.map arena.shape).mapM answer := by
  induction members with
  | nil => rfl
  | cons member rest ih =>
    obtain ⟨own, others⟩ := List.forall_mem_cons.mp earlier
    rw [List.mapM_cons, List.map_cons, List.mapM_cons, own, ih others]

/-- Answers for several nodes are those of their shapes. -/
theorem map_eq {α : Type} {again : NodeId → α} {answer : Shape → α} {members : List NodeId}
    (earlier : ∀ member ∈ members, again member = answer (arena.shape member)) :
    members.map again = (members.map arena.shape).map answer := by
  rw [List.map_map]
  exact List.map_congr_left earlier

end

section

variable {arena : Arena} {id : NodeId} (sound : arena.Sound) (inside : id < arena.size)

include sound inside

/-- Whether values are a single word. -/
theorem Sound.isValueType_eq : arena.isValueType id = (arena.shape id).isValueType := by
  obtain ⟨kind, shape, own, shaped, stands⟩ := sound.stands inside
  rw [isValueType, own, shaped]
  cases stands <;> rfl

/-- Whether values live in memory behind a pointer. -/
theorem Sound.isReferenceType_eq : arena.isReferenceType id = (arena.shape id).isReferenceType := by
  obtain ⟨kind, shape, own, shaped, stands⟩ := sound.stands inside
  rw [isReferenceType, own, shaped]
  cases stands <;> rfl

/-- Whether values are raw bytes. -/
theorem Sound.isBytesLike_eq : arena.isBytesLike id = (arena.shape id).isBytesLike := by
  obtain ⟨kind, shape, own, shaped, stands⟩ := sound.stands inside
  rw [isBytesLike, own, shaped]
  cases stands <;> rfl

/-- Whether the number of parts varies. -/
theorem Sound.isDynamicallySized_eq : arena.isDynamicallySized id = (arena.shape id).isDynamicallySized := by
  obtain ⟨kind, shape, own, shaped, stands⟩ := sound.stands inside
  rw [isDynamicallySized, own, shaped]
  cases stands with
  | array length _ => cases length <;> rfl
  | _ => rfl

/-- Whether the significant bits are at the high end. -/
theorem Sound.isLeftAligned_eq : arena.isLeftAligned id = (arena.shape id).isLeftAligned := by
  refine descend_eq (fun id inside again earlier => ?_) inside
  obtain ⟨kind, shape, own, shaped, stands⟩ := sound.stands inside
  rw [own, shaped]
  cases stands with
  | userDefined name first => exact earlier _ first
  | _ => rfl

/-- Whether values are sign-extended. -/
theorem Sound.isSigned_eq : arena.isSigned id = (arena.shape id).isSigned := by
  refine descend_eq (fun id inside again earlier => ?_) inside
  obtain ⟨kind, shape, own, shaped, stands⟩ := sound.stands inside
  rw [own, shaped]
  cases stands with
  | userDefined name first => exact earlier _ first
  | _ => rfl

/-- Whether the encoding has a tail. -/
theorem Sound.isDynamicallyEncoded_eq : arena.isDynamicallyEncoded id = (arena.shape id).isDynamicallyEncoded := by
  refine descend_eq (fun id inside again earlier => ?_) inside
  have several : ∀ {members : List NodeId}, (∀ member ∈ members, member < id) →
      members.any again = Shape.anyDynamicallyEncoded (members.map arena.shape) := by
    intro members first
    rw [Shape.anyDynamicallyEncoded_eq_any, List.any_map, Bool.eq_iff_iff, List.any_eq_true, List.any_eq_true]
    exact exists_congr fun member => and_congr_right fun listed => by
      rw [earlier member (first member listed), Function.comp_apply]
  obtain ⟨kind, shape, own, shaped, stands⟩ := sound.stands inside
  rw [sound.isDynamicallySized_eq inside, own, shaped]
  cases stands with
  | array length first => cases length <;> simp [Shape.isDynamicallySized, Shape.isDynamicallyEncoded, earlier _ first]
  | struct name first | tuple first => exact several first
  | error name first listed | event name data indexed anonymous first listed =>
    exact (earlier _ first).trans (by rw [listed]; rfl)
  | _ => rfl

/-- The size of a static encoding. -/
theorem Sound.encodedSize_eq : arena.encodedSize id = (arena.shape id).encodedSize := by
  refine descend_eq (fun id inside again earlier => ?_) inside
  have several : ∀ {members : List NodeId}, (∀ member ∈ members, member < id) →
      total again members = Shape.encodedSizeSum (members.map arena.shape) := fun first =>
    (total_eq fun member listed => earlier member (first member listed)).trans
      (Shape.encodedSizeSum_eq_total _).symm
  obtain ⟨kind, shape, own, shaped, stands⟩ := sound.stands inside
  rw [sound.isDynamicallyEncoded_eq inside, own, shaped, Shape.encodedSize.eq_def]
  split
  · rfl
  · rename_i static
    cases stands with
    | array length first => cases length <;> simp [earlier _ first]
    | struct name first | tuple first => exact several first
    | error name first listed | event name data indexed anonymous first listed =>
      refine (earlier _ first).trans ?_
      rw [listed, Shape.encodedSize]
      exact if_neg static
    | _ => rfl

/-- The size of the head. -/
theorem Sound.headSize_eq : arena.headSize id = (arena.shape id).headSize := by
  refine descend_eq (fun id inside again earlier => ?_) inside
  obtain ⟨kind, shape, own, shaped, stands⟩ := sound.stands inside
  rw [sound.isDynamicallyEncoded_eq inside, sound.encodedSize_eq inside, own, shaped]
  cases stands with
  | error name first listed | event name data indexed anonymous first listed =>
    refine (earlier _ first).trans ?_
    rw [listed, Shape.headSize, Shape.headSize, Shape.encodedSize, Shape.encodedSize, Shape.isDynamicallyEncoded,
      Shape.isDynamicallyEncoded]
    split <;> simp_all
  | _ => rfl

/-- The size of the fixed part of a dynamic encoding. -/
theorem Sound.tailSize_eq : arena.tailSize id = (arena.shape id).tailSize := by
  refine descend_eq (fun id inside again earlier => ?_) inside
  have several : ∀ {members : List NodeId}, (∀ member ∈ members, member < id) →
      total arena.headSize members = Shape.headSizeSum (members.map arena.shape) := fun first =>
    (total_eq fun member listed => sound.headSize_eq (Nat.lt_trans (first member listed) inside)).trans
      (Shape.headSizeSum_eq_total _).symm
  obtain ⟨kind, shape, own, shaped, stands⟩ := sound.stands inside
  rw [sound.isDynamicallyEncoded_eq inside, own, shaped, Shape.tailSize.eq_def]
  split
  · rename_i dynamic
    cases stands with
    | array length first =>
      cases length with
      | none => rfl
      | some count =>
        dsimp only
        rw [sound.headSize_eq (Nat.lt_trans first inside)]
    | struct name first | tuple first => exact several first
    | error name first listed | event name data indexed anonymous first listed =>
      refine (earlier _ first).trans ?_
      rw [listed, Shape.tailSize]
      exact if_pos dynamic
    | _ => rfl
  · rfl

/-- The memory that a value owns directly. -/
theorem Sound.memorySize_eq : arena.memorySize id = (arena.shape id).memorySize := by
  refine descend_eq (fun id inside again earlier => ?_) inside
  obtain ⟨kind, shape, own, shaped, stands⟩ := sound.stands inside
  rw [own, shaped]
  cases stands with
  | array length first => cases length <;> rfl
  | struct name first | tuple first => exact congrArg (Except.ok <| · * wordBytes) (List.length_map _).symm
  | error name first listed | event name data indexed anonymous first listed =>
    exact (earlier _ first).trans (by rw [listed]; rfl)
  | _ => rfl

/-- The memory that a value owns together with all its parts. -/
theorem Sound.extendedMemorySize_eq : arena.extendedMemorySize id = (arena.shape id).extendedMemorySize := by
  refine descend_eq (fun id inside again earlier => ?_) inside
  have several : ∀ {members : List NodeId}, (∀ member ∈ members, member < id) →
      total again (members.filter arena.isReferenceType) =
        Shape.extendedMemorySizeSum (members.map arena.shape) := by
    intro members first
    have references : members.filter arena.isReferenceType =
        members.filter (Shape.isReferenceType ∘ arena.shape) :=
      List.filter_congr fun member listed => sound.isReferenceType_eq (Nat.lt_trans (first member listed) inside)
    rw [Shape.extendedMemorySizeSum_eq_total, List.filter_map, references]
    exact total_eq fun member listed => earlier member (first member (List.mem_filter.mp listed).1)
  obtain ⟨kind, shape, own, shaped, stands⟩ := sound.stands inside
  rw [sound.memorySize_eq inside, own, shaped]
  cases stands with
  | array length first =>
    cases length with
    | none => rfl
    | some count =>
      dsimp only
      rw [sound.isReferenceType_eq (Nat.lt_trans first inside), earlier _ first]
      rfl
  | struct name first | tuple first =>
    dsimp only
    rw [several first]
    rfl
  | error name first listed | event name data indexed anonymous first listed =>
    dsimp only
    rw [earlier _ first, listed]
    rfl
  | _ => rfl

/-- The distance between the heads of two elements. -/
theorem Sound.callStride_eq : arena.callStride id = (arena.shape id).callStride := by
  obtain ⟨kind, shape, own, shaped, stands⟩ := sound.stands inside
  rw [callStride, own, shaped]
  cases stands with
  | array length first => exact sound.headSize_eq (Nat.lt_trans first inside)
  | _ => rfl

/-- The distance between two elements in memory. -/
theorem Sound.memoryStride_eq : arena.memoryStride id = (arena.shape id).memoryStride := by
  obtain ⟨kind, shape, own, shaped, stands⟩ := sound.stands inside
  rw [memoryStride, own, shaped]
  cases stands <;> rfl

/-- The elements or members in the packed layout. -/
theorem Sound.packedLayout_eq {width : NodeId → Generated Nat}
    (earlier : ∀ child < id, width child = (arena.shape child).exactBits) :
    arena.packedLayout width id = (arena.shape id).partWidths.map (packedStarts 0) := by
  obtain ⟨kind, shape, own, shaped, stands⟩ := sound.stands inside
  rw [packedLayout, own, shaped]
  cases stands with
  | array length first =>
    cases length with
    | none => rfl
    | some count =>
      dsimp only
      rw [earlier _ first, Shape.partWidths]
      cases (arena.shape _).exactBits <;> rfl
  | struct name first | tuple first =>
    dsimp only
    rw [mapM_eq fun member listed => earlier member (first member listed), Shape.partWidths, Shape.exactBitsAll_eq_mapM]
    cases (List.map arena.shape _).mapM Shape.exactBits <;> rfl
  | _ => rfl

/-- The width without padding. -/
theorem Sound.exactBits_eq : arena.exactBits id = (arena.shape id).exactBits := by
  refine descend_eq (fun id inside again earlier => ?_) inside
  have packed := sound.packedLayout_eq inside earlier
  obtain ⟨kind, shape, own, shaped, stands⟩ := sound.stands inside
  rw [sound.isDynamicallyEncoded_eq inside, packed, own, shaped, Shape.exactBits.eq_def]
  cases stands with
  | userDefined name first => exact earlier _ first
  | array length first =>
    cases length with
    | none => rfl
    | some count =>
      refine if_congr Iff.rfl rfl ?_
      rw [Shape.partWidths]
      cases (arena.shape _).exactBits with
      | error _ => rfl
      | ok width => exact congrArg Except.ok (packedStarts_snd 0 _)
  | struct name first | tuple first =>
    refine if_congr Iff.rfl rfl ?_
    rw [Shape.partWidths]
    cases Shape.exactBitsAll _ with
    | error _ => rfl
    | ok widths => exact congrArg Except.ok (packedStarts_snd 0 widths)
  | _ => rfl

/-- The number of reference levels. -/
theorem Sound.nestedReferences_eq : arena.nestedReferences id = (arena.shape id).nestedReferences := by
  refine descend_eq (fun id inside again earlier => ?_) inside
  have several : ∀ {members : List NodeId}, (∀ member ∈ members, member < id) →
      (members.map again).foldr (· + ·) 0 = Shape.nestedReferencesSum (members.map arena.shape) := by
    intro members first
    rw [map_eq fun member listed => earlier member (first member listed), Shape.nestedReferencesSum_eq]
  obtain ⟨kind, shape, own, shaped, stands⟩ := sound.stands inside
  rw [own, shaped]
  cases stands with
  | array length first => exact congrArg (1 + ·) (earlier _ first)
  | struct name first | tuple first => exact congrArg (1 + ·) (several first)
  | error name first listed | event name data indexed anonymous first listed =>
    obtain ⟨shapes, before⟩ := sound.members_of_tuple (Nat.lt_trans first inside) listed
    rw [← shapes]
    exact several fun member within => Nat.lt_trans (before member within) first
  | _ => rfl

/-- The number of levels that vary in size. -/
theorem Sound.nestedDynamics_eq : arena.nestedDynamics id = (arena.shape id).nestedDynamics := by
  refine descend_eq (fun id inside again earlier => ?_) inside
  have several : ∀ {members : List NodeId}, (∀ member ∈ members, member < id) →
      (members.map again).foldr (· + ·) 0 = Shape.nestedDynamicsSum (members.map arena.shape) := by
    intro members first
    rw [map_eq fun member listed => earlier member (first member listed), Shape.nestedDynamicsSum_eq]
  obtain ⟨kind, shape, own, shaped, stands⟩ := sound.stands inside
  rw [own, shaped]
  cases stands with
  | array length first =>
    dsimp only
    rw [earlier _ first]
    cases length <;> simp [Shape.nestedDynamics]
  | struct name first | tuple first => exact several first
  | error name first listed | event name data indexed anonymous first listed =>
    exact (earlier _ first).trans (by rw [listed]; rfl)
  | _ => rfl

/-- The canonical type string. -/
theorem Sound.abiType_eq : arena.abiType id = (arena.shape id).abiType := by
  refine descend_eq (fun id inside again earlier => ?_) inside
  have several : ∀ {members : List NodeId}, (∀ member ∈ members, member < id) →
      members.map again = Shape.abiTypes (members.map arena.shape) := by
    intro members first
    rw [map_eq fun member listed => earlier member (first member listed), Shape.abiTypes_eq_map]
  obtain ⟨kind, shape, own, shaped, stands⟩ := sound.stands inside
  rw [own, shaped]
  cases stands with
  | userDefined name first => exact earlier _ first
  | array length first => exact congrArg (· ++ Shape.arraySuffix length) (earlier _ first)
  | struct name first | tuple first => exact congrArg ("(" ++ ",".intercalate · ++ ")") (several first)
  | error name first listed | event name data indexed anonymous first listed =>
    dsimp only
    rw [earlier _ first, listed, Shape.abiType, Shape.abiType, String.append_assoc, String.append_assoc,
      String.append_assoc]
  | _ => rfl

end

end Arena

end YulAbi
