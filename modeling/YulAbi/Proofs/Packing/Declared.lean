import Mathlib.Data.List.Chain
import YulAbi.Proofs.Arena.Made
import YulAbi.Proofs.Packing.Walk

/-!
# Fields in declaration order

A type that is encoded statically has a layout in which its values lie in declaration order,
each right behind the one before it. A field starts a new slot only where it does not fit or
where a struct, tuple or array begins in between. So the fields do not overlap, none crosses a
slot, and two of them are in one group if the same outermost array is around both. What carries
the walk through the parts is where the cursor stands: behind the last field, or at the
beginning of the next slot if a composite has begun since.
-/

namespace YulAbi.Packing

/-- Whether a field has the type, label and width of a part, and its element of the outermost array. -/
structure Records (mode : PackingMode) (part : Part) (field : Placement) : Prop where
  /-- Type. -/
  shape : field.shape = part.type.shape
  /-- Label. -/
  label : field.label = part.label
  /-- Width. -/
  width : fieldBits part.type.shape mode = .ok field.bitLength
  /-- Element. -/
  element : field.group.map ArrayGroup.index = part.array.map Prod.snd

/-- Whether a struct, tuple or fixed-size array begins between two parts of a type. -/
def Separated (root : SolType) (left right : Part) : Prop :=
  ∃ part, (Part.root root).at? part.path = some part ∧ part.isComposite = true ∧ left.path < part.path ∧
    part.path < right.path

/-- Whether the field of a part is next to that of the part before. -/
structure NextTo (root : SolType) (left right : Part × Placement) : Prop where
  /-- A new slot begins if nothing else is possible. -/
  fresh : Separated root left.1 right.1 ∨ wordBits < left.2.bitEnd + right.2.bitLength →
    right.2.slot = left.2.slot + 1 ∧ right.2.bitOffset = 0
  /-- Otherwise there is nothing between the fields. -/
  behind : ¬ (Separated root left.1 right.1 ∨ wordBits < left.2.bitEnd + right.2.bitLength) →
    right.2.slot = left.2.slot ∧ right.2.bitOffset = left.2.bitEnd

/-- Whether a layout has the values of a type in declaration order, each as near to the one before as it may be. -/
structure InDeclarationOrder (root : SolType) (layout : PackedLayout) (entries : List (Part × Placement)) : Prop where
  /-- The fields are those of the layout. -/
  fields : entries.map Prod.snd = layout.placements
  /-- The parts are in declaration order. -/
  ordered : entries.Pairwise fun left right => left.1.path < right.1.path
  /-- They are the values inside the type. -/
  complete : ∀ part, part ∈ entries.map Prod.fst ↔ (Part.root root).at? part.path = some part ∧ part.isValue = true
  /-- Every field is that of its part. -/
  records : ∀ entry ∈ entries, Records layout.mode entry.1 entry.2
  /-- Fields go up. -/
  increasing : entries.Pairwise fun left right =>
    left.2.slot < right.2.slot ∨ left.2.slot = right.2.slot ∧ left.2.bitOffset < right.2.bitOffset
  /-- The first field is in front. -/
  first : ∀ entry ∈ entries.head?, entry.2.slot = 0 ∧ entry.2.bitOffset = 0
  /-- Every other one is next to the one before. -/
  next : entries.IsChain (NextTo root)
  /-- There is no slot behind the last field. -/
  slotCount : layout.slotCount = (entries.getLast?.map fun entry => entry.2.slot + 1).getD 0
  /-- Fields are in one group if the same outermost array is around them. -/
  grouped : ∀ left ∈ entries, ∀ right ∈ entries,
    (left.2.group.map ArrayGroup.id = right.2.group.map ArrayGroup.id ↔
      left.1.array.map Prod.fst = right.1.array.map Prod.fst)

/-- The outermost arrays inside a type, in declaration order. -/
def outermostArrays (root : SolType) : List (List Nat) :=
  ((Part.root root).parts.filter Part.isOutermostArray).map Part.path

section

variable {root : SolType} {mode : PackingMode} {seen rest : List Part} {part : Part} {cursor : PackingCursor}

/-- What lies between a path and something inside it is inside as well. -/
theorem exists_append_of_lt {outer middle inner : List Nat} (h : outer < middle) (h' : middle < outer ++ inner) :
    ∃ behind, middle = outer ++ behind := by
  induction outer generalizing middle with
  | nil => exact ⟨middle, rfl⟩
  | cons index outer ih =>
    cases middle with
    | nil => exact absurd h (List.not_lt_nil _)
    | cons other middle =>
      rw [List.cons_append, List.cons_lt_cons_iff] at h'
      rcases List.cons_lt_cons_iff.mp h with less | ⟨rfl, further⟩
      · omega
      · obtain ⟨behind, rfl⟩ := ih further (by simpa using h')
        exact ⟨behind, rfl⟩

/-- A part splits the parts into those before and those behind it. -/
theorem path_lt_iff (split : (Part.root root).parts = seen ++ part :: rest) {other : Part}
    (listed : other ∈ (Part.root root).parts) : other.path < part.path ↔ other ∈ seen := by
  have ordered := (Part.root root).parts_ordered
  rw [split, List.pairwise_append, List.pairwise_cons] at ordered
  obtain ⟨-, ⟨behind, -⟩, before⟩ := ordered
  rw [split] at listed
  refine ⟨fun earlier => ?_, fun among => before other among part List.mem_cons_self⟩
  rcases List.mem_append.mp listed with among | listed
  · exact among
  · rcases List.mem_cons.mp listed with rfl | later
    · exact absurd earlier (List.lt_irrefl _)
    · exact absurd (List.lt_trans earlier (behind other later)) (List.lt_irrefl _)

/-- The array around a part is the last one that has begun. -/
theorem outermostArrays_getElem? (split : (Part.root root).parts = seen ++ part :: rest) {array : List Nat × Nat}
    (around : part.array = some array) :
    (outermostArrays root)[(seen.filter Part.isOutermostArray).length - 1]? = some array.1 := by
  have listed : part ∈ (Part.root root).parts := by simp [split]
  obtain ⟨outer, inner, listed', outermost, same, inside⟩ := Part.array_spec (Part.mem_parts_root.mp listed) rfl around
  have before : outer ∈ seen := (path_lt_iff split listed').mp (by rw [same, inside]; exact Part.lt_append_cons _ _ _)
  have begun := List.mem_filter.mpr ⟨before, outermost⟩
  rcases List.eq_nil_or_concat' (seen.filter Part.isOutermostArray) with none | ⟨earlier, last, opened⟩
  · rw [none] at begun
    exact absurd begun List.not_mem_nil
  · -- an array that begins behind the one around the part would lie inside of it
    have latest : last = outer := by
      rw [opened] at begun
      refine (List.mem_append.mp begun).elim (fun among => ?_) fun own => (List.mem_singleton.mp own).symm
      have both := List.mem_filter.mp (show last ∈ seen.filter Part.isOutermostArray by simp [opened])
      have there : last ∈ (Part.root root).parts := by simp [split, both.1]
      have ordered := ((Part.root root).parts_ordered.sublist (by
        rw [split]; exact (List.filter_sublist.trans (List.sublist_append_left ..)))
          : (seen.filter Part.isOutermostArray).Pairwise _)
      rw [opened, List.pairwise_append] at ordered
      have later := ordered.2.2 outer among last (List.mem_singleton.mpr rfl)
      have earlier' := (path_lt_iff split there).mpr both.1
      rw [inside, ← same] at earlier'
      obtain ⟨behind, found⟩ := exists_append_of_lt later earlier'
      cases behind with
      | nil => rw [found, List.append_nil] at later; exact absurd later (List.lt_irrefl _)
      | cons index behind =>
        have reached := Part.mem_parts_root.mp there
        rw [found, Part.at?_append, Part.mem_parts_root.mp listed'] at reached
        have array' := Part.array_of_isOutermostArray outermost reached
        exact nomatch array'.symm.trans (Part.of_isOutermostArray both.2).2
    rw [outermostArrays, split, List.filter_append, opened, latest]
    simp [same]

/-- Where the cursor is, given the last field: behind it, or at the beginning of the next slot if a composite has begun
since. -/
def Stands (seen : List Part) (cursor : PackingCursor) : Option (Part × Placement) → Prop
  | none => cursor.slot = 0 ∧ cursor.used = 0
  | some last =>
    ((∃ part ∈ seen, part.isComposite = true ∧ last.1.path < part.path) →
      cursor.slot = last.2.slot + 1 ∧ cursor.used = 0) ∧
    ((¬ ∃ part ∈ seen, part.isComposite = true ∧ last.1.path < part.path) →
      cursor.slot = last.2.slot ∧ cursor.used = last.2.bitEnd)

/-- What is true of the fields that have been placed when some parts have been seen. -/
structure Walked (root : SolType) (mode : PackingMode) (seen : List Part) (entries : List (Part × Placement))
    (cursor : PackingCursor) : Prop where
  /-- They are the values seen. -/
  values : entries.map Prod.fst = seen.filter Part.isValue
  /-- Every field is that of its part. -/
  records : ∀ entry ∈ entries, Records mode entry.1 entry.2
  /-- It lies inside a slot. -/
  fits : ∀ entry ∈ entries, 0 < entry.2.bitLength ∧ entry.2.bitEnd ≤ wordBits
  /-- The first one is in front. -/
  first : ∀ entry ∈ entries.head?, entry.2.slot = 0 ∧ entry.2.bitOffset = 0
  /-- Every other one is next to the one before. -/
  next : entries.IsChain (NextTo root)
  /-- The cursor is where it should be. -/
  stands : Stands seen cursor entries.getLast?
  /-- Groups are numbered as arrays begin. -/
  groups : cursor.nextGroup = (seen.filter Part.isOutermostArray).length
  /-- The number of a group stands for its array. -/
  numbered : ∀ entry ∈ entries, ∀ array ∈ entry.1.array, ∃ id, entry.2.group = some ⟨id, array.2⟩ ∧
    (outermostArrays root)[id]? = some array.1

/-- The part of a field has been seen. -/
theorem Walked.mem_seen {entries : List (Part × Placement)} (h : Walked root mode seen entries cursor)
    {entry : Part × Placement} (listed : entry ∈ entries) : entry.1 ∈ seen := by
  have value : entry.1 ∈ seen.filter Part.isValue := h.values ▸ List.mem_map_of_mem listed
  exact (List.mem_filter.mp value).1

/-- Composites begin between two parts if one has been seen behind the first of them. -/
theorem separated_iff (split : (Part.root root).parts = seen ++ part :: rest) (left : Part) :
    Separated root left part ↔ ∃ other ∈ seen, other.isComposite = true ∧ left.path < other.path := by
  constructor
  · rintro ⟨other, reached, composite, behind, before⟩
    exact ⟨other, (path_lt_iff split (Part.mem_parts_root.mpr reached)).mp before, composite, behind⟩
  · rintro ⟨other, among, composite, behind⟩
    have there : other ∈ (Part.root root).parts := by simp [split, among]
    exact ⟨other, Part.mem_parts_root.mp there, composite, behind, (path_lt_iff split there).mpr among⟩

/-- A composite begins a slot. -/
theorem Walked.enter {entries : List (Part × Placement)} (h : Walked root mode seen entries cursor)
    (split : (Part.root root).parts = seen ++ part :: rest) (composite : part.isComposite = true) :
    Walked root mode (seen ++ [part]) entries (part.enter cursor) := by
  have plain := Part.isValue_of_isComposite composite
  have place : (part.enter cursor).slot = cursor.fresh.slot ∧ (part.enter cursor).used = cursor.fresh.used := by
    unfold Part.enter
    split <;> exact ⟨rfl, rfl⟩
  refine ⟨by simp [h.values, plain], h.records, h.fits, h.first, h.next, ?_, ?_, h.numbered⟩
  · have stands := h.stands
    cases found : entries.getLast? with
    | none =>
      rw [found] at stands
      rw [Stands, place.1, place.2, PackingCursor.fresh, if_pos stands.2]
      exact stands
    | some last =>
      rw [found] at stands
      have listed := List.mem_of_getLast? found
      have seen' := h.mem_seen listed
      have later : last.1.path < part.path := (path_lt_iff split (by simp [split, seen'])).mpr seen'
      refine ⟨fun _ => ?_, fun alone => absurd ⟨part, by simp, composite, later⟩ alone⟩
      rw [place.1, place.2, PackingCursor.fresh]
      by_cases between : ∃ other ∈ seen, other.isComposite = true ∧ last.1.path < other.path
      · obtain ⟨slot, used⟩ := stands.1 between
        rw [if_pos used]
        exact ⟨slot, used⟩
      · obtain ⟨slot, used⟩ := stands.2 between
        have some := (h.fits last listed).1
        rw [if_neg (by rw [used, Placement.bitEnd]; omega), slot]
        exact ⟨rfl, rfl⟩
  · rw [List.filter_append, List.length_append, ← h.groups]
    cases outermost : part.isOutermostArray <;> simp [Part.enter, outermost, cursor.nextGroup_fresh]

/-- Where the next field starts. -/
theorem Walked.startFor_spec {entries : List (Part × Placement)} (h : Walked root mode seen entries cursor)
    (split : (Part.root root).parts = seen ++ part :: rest) {bits : Nat} (fits : bits ≤ wordBits) :
    (startFor cursor bits).used + bits ≤ wordBits ∧
      (entries = [] → (startFor cursor bits).slot = 0 ∧ (startFor cursor bits).used = 0) ∧
      ∀ last ∈ entries.getLast?,
        (Separated root last.1 part ∨ wordBits < last.2.bitEnd + bits →
          (startFor cursor bits).slot = last.2.slot + 1 ∧ (startFor cursor bits).used = 0) ∧
        (¬ (Separated root last.1 part ∨ wordBits < last.2.bitEnd + bits) →
          (startFor cursor bits).slot = last.2.slot ∧ (startFor cursor bits).used = last.2.bitEnd) := by
  have stands := h.stands
  unfold startFor PackingCursor.fresh
  refine ⟨by split <;> [skip; omega]; split <;> simp_all, fun none => ?_, fun last found => ?_⟩
  · subst none
    obtain ⟨slot, used⟩ := stands
    rw [if_neg (by omega)]
    exact ⟨slot, used⟩
  · rw [Option.mem_def.mp found] at stands
    rw [separated_iff split]
    have some := (h.fits last (List.mem_of_getLast? found)).1
    by_cases between : ∃ other ∈ seen, other.isComposite = true ∧ last.1.path < other.path
    · obtain ⟨slot, used⟩ := stands.1 between
      rw [if_neg (by omega)]
      exact ⟨fun _ => ⟨slot, used⟩, fun alone => absurd (.inl between) alone⟩
    · obtain ⟨slot, used⟩ := stands.2 between
      have taken : cursor.used ≠ 0 := by rw [used, Placement.bitEnd]; omega
      rw [if_neg taken, ← used]
      refine ⟨fun reason => ?_, fun room => ?_⟩
      · rw [if_pos (reason.resolve_left between), slot]
        exact ⟨rfl, rfl⟩
      · rw [if_neg fun full => room (.inr full)]
        exact ⟨slot, rfl⟩

/-- A value is placed next to the one before. -/
theorem Walked.place {entries : List (Part × Placement)} (h : Walked root mode seen entries cursor)
    (split : (Part.root root).parts = seen ++ part :: rest) (value : part.isValue = true)
    (inner : part.isOutermostArray = false) {bits : Nat} (width : fieldBits part.type.shape mode = .ok bits)
    (some : 0 < bits) (fits : bits ≤ wordBits) :
    Walked root mode (seen ++ [part])
      (entries ++ [(part, ⟨(startFor cursor bits).slot, (startFor cursor bits).used, bits, part.label, part.type.shape,
        part.group cursor⟩)])
      ⟨(startFor cursor bits).slot, (startFor cursor bits).used + bits, cursor.nextGroup⟩ := by
  obtain ⟨inside, front, behind⟩ := h.startFor_spec split fits
  refine ⟨by simp [h.values, value], ?_, ?_, ?_, ?_, ?_, by simp [h.groups, inner], ?_⟩
  · refine List.forall_mem_append.mpr ⟨h.records, List.forall_mem_singleton.mpr ⟨rfl, rfl, width, ?_⟩⟩
    rw [Part.group, Option.map_map]
    rfl
  · exact List.forall_mem_append.mpr ⟨h.fits, List.forall_mem_singleton.mpr ⟨some, inside⟩⟩
  · cases entries with
    | nil =>
      rintro entry ⟨⟩
      exact front rfl
    | cons entry others => exact h.first
  · refine List.isChain_append.mpr ⟨h.next, List.isChain_singleton _, fun last found entry same => ?_⟩
    cases same
    exact ⟨(behind last found).1, (behind last found).2⟩
  · rw [List.getLast?_concat]
    have ahead : ¬ ∃ other ∈ seen ++ [part], other.isComposite = true ∧ part.path < other.path := by
      rintro ⟨other, listed, -, behind⟩
      have there : other ∈ (Part.root root).parts := by
        rw [split]
        exact (List.mem_append.mp listed).elim (List.mem_append_left _) fun own => by simp [List.mem_singleton.mp own]
      rcases List.mem_append.mp listed with among | own
      · exact absurd (List.lt_trans behind ((path_lt_iff split there).mpr among)) (List.lt_irrefl _)
      · rw [List.mem_singleton.mp own] at behind
        exact absurd behind (List.lt_irrefl _)
    exact ⟨fun between => absurd between ahead, fun _ => ⟨rfl, rfl⟩⟩
  · refine List.forall_mem_append.mpr ⟨h.numbered, List.forall_mem_singleton.mpr fun array around => ?_⟩
    refine ⟨cursor.nextGroup - 1, by rw [Part.group, Option.mem_def.mp around]; rfl, ?_⟩
    rw [h.groups]
    exact outermostArrays_getElem? split around

/-- The walk reaches the end with all fields placed. -/
theorem Walked.run {entries : List (Part × Placement)} {placements : List Placement} {last : PackingCursor}
    (h : Walked root mode seen entries cursor) (split : (Part.root root).parts = seen ++ rest)
    (each : ∀ part ∈ rest, part.IsPlaceable mode) (placed : placeParts mode rest cursor = .ok (placements, last)) :
    ∃ others, Walked root mode (seen ++ rest) (entries ++ others) last ∧ others.map Prod.snd = placements := by
  induction rest generalizing seen entries cursor placements with
  | nil =>
    cases placed
    exact ⟨[], by simpa using h, rfl⟩
  | cons part rest ih =>
    obtain ⟨⟨own, next⟩, first, more⟩ := Attempt.bind_eq_ok.mp placed
    obtain ⟨⟨others, last'⟩, onward, ended⟩ := Attempt.bind_eq_ok.mp more
    cases ended
    obtain ⟨placeable, behind⟩ := List.forall_mem_cons.mp each
    have split' : (Part.root root).parts = (seen ++ [part]) ++ rest := by rw [split, List.append_assoc]; rfl
    have step : ∃ new, Walked root mode (seen ++ [part]) (entries ++ new) next ∧ new.map Prod.snd = own := by
      rcases placeable.place_cases cursor with
        ⟨composite, -, entered⟩ | ⟨-, value, inner, bits, width, some, fits, stands⟩
      · cases entered.symm.trans first
        exact ⟨[], by simpa using h.enter split composite, rfl⟩
      · cases stands.symm.trans first
        exact ⟨_, h.place split value inner width some fits, rfl⟩
    obtain ⟨new, reached, same⟩ := step
    obtain ⟨others', walked, same'⟩ := ih reached split' behind onward
    refine ⟨new ++ others', by simpa using walked, by rw [List.map_append, same, same']⟩

end

/-- Whether a field lies behind another one. -/
def Behind (left right : Placement) : Prop :=
  left.slot < right.slot ∨ left.slot = right.slot ∧ left.bitEnd ≤ right.bitOffset

/-- Fields that lie next to each other go up. -/
theorem NextTo.behind_of {root : SolType} {left right : Part × Placement} (h : NextTo root left right) :
    Behind left.2 right.2 := by
  by_cases reason : Separated root left.1 right.1 ∨ wordBits < left.2.bitEnd + right.2.bitLength
  · exact .inl (by rw [(h.fresh reason).1]; omega)
  · exact .inr ⟨(h.behind reason).1.symm, Nat.le_of_eq (h.behind reason).2.symm⟩

/-- What lies behind a field lies behind those before it. -/
instance : Trans Behind Behind Behind where
  trans := by
    intro left middle right h h'
    unfold Behind Placement.bitEnd at *
    omega

/-- A field that lies behind another one does not overlap it. -/
theorem Behind.overlaps_eq_false {left right : Placement} (h : Behind left right) : left.overlaps right = false := by
  unfold Behind at h
  simp only [Placement.overlaps, Bool.and_eq_false_iff, beq_eq_false_iff_ne, decide_eq_false_iff_not]
  omega

/-- The number of slots up to fields that go up is given by the last of them. -/
theorem foldl_max_slots {placements : List Placement} (ordered : placements.Pairwise Behind) :
    (placements.map fun placement => placement.slot + 1).foldl max 0 =
      (placements.getLast?.map fun placement => placement.slot + 1).getD 0 := by
  rcases List.eq_nil_or_concat' placements with rfl | ⟨others, last, rfl⟩
  · rfl
  · rw [List.getLast?_concat]
    refine Nat.le_antisymm (foldl_max_le_iff.mpr ⟨Nat.zero_le _, fun number listed => ?_⟩)
      (le_foldl_max (List.mem_map_of_mem (by simp)))
    obtain ⟨placement, among, rfl⟩ := List.mem_map.mp listed
    rcases List.mem_append.mp among with earlier | own
    · have below := (List.pairwise_append.mp ordered).2.2 placement earlier last (List.mem_singleton.mpr rfl)
      unfold Behind at below
      change placement.slot + 1 ≤ last.slot + 1
      omega
    · rw [List.mem_singleton.mp own]
      exact Nat.le_refl _

section

variable {root : SolType} {mode : PackingMode} {entries : List (Part × Placement)} {last : PackingCursor}

/-- Nothing has been placed when nothing has been seen. -/
theorem Walked.start (root : SolType) (mode : PackingMode) : Walked root mode [] [] ⟨0, 0, 0⟩ := by
  refine ⟨rfl, ?_, ?_, ?_, .nil, ⟨rfl, rfl⟩, rfl, ?_⟩ <;> exact nofun

/-- Fields that have been placed go up. -/
theorem Walked.behind {seen : List Part} (h : Walked root mode seen entries last) :
    (entries.map Prod.snd).Pairwise Behind := by
  have chain : (entries.map Prod.snd).IsChain Behind :=
    (List.isChain_map Prod.snd).mpr (h.next.imp fun _ _ next => next.behind_of)
  exact chain.pairwise

/-- Groups have the same number if they belong to the same array. -/
theorem Walked.grouped {seen : List Part} (h : Walked root mode seen entries last) {left right : Part × Placement}
    (listed : left ∈ entries) (listed' : right ∈ entries) :
    left.2.group.map ArrayGroup.id = right.2.group.map ArrayGroup.id ↔
      left.1.array.map Prod.fst = right.1.array.map Prod.fst := by
  have known : ∀ entry ∈ entries, (entry.1.array = none ∧ entry.2.group = none) ∨
      ∃ array id, entry.1.array = some array ∧ entry.2.group = some ⟨id, array.2⟩ ∧
        (outermostArrays root)[id]? = some array.1 := by
    intro entry among
    cases around : entry.1.array with
    | none =>
      have element := (h.records entry among).element
      rw [around] at element
      exact .inl ⟨rfl, Option.map_eq_none_iff.mp element⟩
    | some array =>
      obtain ⟨id, group, stands⟩ := h.numbered entry among array around
      exact .inr ⟨array, id, rfl, group, stands⟩
  have once : (outermostArrays root).Nodup := by
    refine List.Pairwise.map Part.path (fun left right earlier same => ?_)
      ((Part.root root).parts_ordered.sublist List.filter_sublist)
    exact absurd (same ▸ earlier) (List.lt_irrefl _)
  rcases known left listed with ⟨around, group⟩ | ⟨array, id, around, group, stands⟩ <;>
    rcases known right listed' with ⟨around', group'⟩ | ⟨array', id', around', group', stands'⟩ <;>
    simp only [around, group, around', group', Option.map_none, Option.map_some, reduceCtorEq, Option.some.injEq]
  obtain ⟨inside, -⟩ := List.getElem?_eq_some_iff.mp stands
  rw [← Option.some_inj (a := array.1), ← stands, ← stands', List.getElem?_inj inside once]

/-- The layout that a walk through all parts leads to. -/
theorem Walked.inDeclarationOrder (h : Walked root mode (Part.root root).parts entries last) :
    InDeclarationOrder root ⟨root.shape, mode, entries.map Prod.snd,
      ((entries.map Prod.snd).map fun placement => placement.slot + 1).foldl max 0⟩ entries := by
  have ordered : (entries.map Prod.fst).Pairwise fun left right => left.path < right.path := by
    rw [h.values]
    exact (Part.root root).parts_ordered.sublist List.filter_sublist
  refine ⟨rfl, (List.pairwise_map (f := Prod.fst)).mp ordered, fun part => ?_, h.records, ?_, h.first, h.next, ?_,
    fun _ listed _ listed' => h.grouped listed listed'⟩
  · rw [h.values, List.mem_filter, Part.mem_parts_root]
  · refine ((List.pairwise_map (f := Prod.snd)).mp h.behind).imp_of_mem fun {left right} listed _ behind => ?_
    have some := (h.fits left listed).1
    unfold Behind Placement.bitEnd at behind
    omega
  · rw [foldl_max_slots h.behind, List.getLast?_map, Option.map_map]
    rfl

/-- The layout is accepted. -/
theorem Walked.isValid {seen : List Part} (h : Walked root mode seen entries last) (shape : Shape) :
    PackedLayout.IsValid ⟨shape, mode, entries.map Prod.snd,
      ((entries.map Prod.snd).map fun placement => placement.slot + 1).foldl max 0⟩ := by
  refine ⟨fun placement listed => ?_, fun placement listed => ?_, fun placement listed => ?_,
    h.behind.imp Behind.overlaps_eq_false⟩
  · obtain ⟨entry, among, rfl⟩ := List.mem_map.mp listed
    exact (h.fits entry among).1
  · obtain ⟨entry, among, rfl⟩ := List.mem_map.mp listed
    exact (h.fits entry among).2
  · exact le_foldl_max (List.mem_map_of_mem listed)

/-- The type itself is no signature if it is composite. -/
theorem plain_of_isComposite (composite : (Part.root root).isComposite = true) : root.shape.isSignature = false := by
  cases root with
  | struct _ _ | tuple _ | array _ _ => rfl
  | _ => cases composite

/-- The parts of a legal type can be placed as long as they are encoded statically. -/
theorem isPlaceable_of_mem_parts (legal : root.shape.isLegal = true) (composite : (Part.root root).isComposite = true)
    {part : Part} (listed : part ∈ (Part.root root).parts) (static : part.isDynamic = false) (mode : PackingMode) :
    part.IsPlaceable mode := by
  have legal' : (Part.root root).type.shape.isLegal = true := legal
  obtain ⟨own, plain⟩ := Part.legal_at? legal' (plain_of_isComposite composite) (Part.mem_parts_root.mp listed)
  exact Part.isPlaceable own plain static mode

/-- A legal type that is encoded statically has a layout in declaration order. -/
theorem place_of_static (legal : root.shape.isLegal = true) (composite : (Part.root root).isComposite = true)
    (static : (Part.root root).isDynamic = false) (mode : PackingMode) :
    ∃ layout entries, place root mode = .ok layout ∧ layout.root = root.shape ∧ layout.mode = mode ∧
      layout.IsValid ∧ InDeclarationOrder root layout entries := by
  have each : ∀ part ∈ (Part.root root).parts, part.IsPlaceable mode := fun part listed =>
    isPlaceable_of_mem_parts legal composite listed
      (Part.isDynamic_at? legal static (Part.mem_parts_root.mp listed)) mode
  obtain ⟨⟨placements, last⟩, walked⟩ := exists_placeParts each ⟨0, 0, 0⟩
  obtain ⟨entries, reached, rfl⟩ := (Walked.start root mode).run rfl each walked
  have placed : placeRoot mode root ⟨0, 0, 0⟩ = .ok (entries.map Prod.snd, last) := by
    rw [placeRoot_eq_placeParts composite, ← placeParts_of_composite static composite, ← Part.parts_eq]
    exact walked
  refine ⟨_, entries, ?_, rfl, rfl, reached.isValid root.shape, reached.inDeclarationOrder⟩
  rw [place, placed]
  rfl

/-- A legal type that is not has none. The first of its parts that is encoded dynamically is named. -/
theorem place_of_dynamic (legal : root.shape.isLegal = true) (composite : (Part.root root).isComposite = true)
    (dynamic : (Part.root root).isDynamic = true) (mode : PackingMode) :
    ∃ part, (Part.root root).at? part.path = some part ∧ part.path ≠ [] ∧ part.isDynamic = true ∧
      (∀ other, (Part.root root).at? other.path = some other → other.path ≠ [] → other.isDynamic = true →
        ¬ other.path < part.path) ∧
      place root mode = .error (.unsupportedPacking part.type.shape.identifier .dynamicPart) := by
  have inside : (Part.root root).parts = Part.root root :: (Part.root root).children.flatMap Part.parts :=
    Part.parts_eq _
  -- a dynamic part is not the type itself: the walk never looks at that
  obtain ⟨child, among, dynamic'⟩ := (Part.isDynamic_iff legal composite).mp dynamic
  have later : child ∈ (Part.root root).children.flatMap Part.parts :=
    List.mem_flatMap.mpr ⟨child, among, child.parts_eq ▸ List.mem_cons_self⟩
  obtain ⟨part, found⟩ := Option.isSome_iff_exists.mp (List.find?_isSome.mpr ⟨child, later, dynamic'⟩)
  obtain ⟨own, before, behind, split, static⟩ := List.find?_eq_some_iff_append.mp found
  have listed := List.mem_of_find?_eq_some found
  have below := (List.pairwise_cons.mp (inside ▸ (Part.root root).parts_ordered)).1
  have ended : placeRoot mode root ⟨0, 0, 0⟩ = unsupported part.type.shape .dynamicPart := by
    rw [placeRoot_eq_placeParts composite]
    exact placeParts_of_find? (fun other there static' =>
      isPlaceable_of_mem_parts legal composite (inside ▸ List.mem_cons_of_mem _ there) static' mode) found _
  refine ⟨part, Part.mem_parts_root.mp (inside ▸ List.mem_cons_of_mem _ listed), fun empty => ?_, own,
    fun other reached further encoded earlier => ?_, by rw [place, ended]; rfl⟩
  · exact absurd (empty ▸ below part listed) (List.lt_irrefl _)
  · have split' : (Part.root root).parts = (Part.root root :: before) ++ part :: behind := by rw [inside, split]; rfl
    rcases List.mem_cons.mp ((path_lt_iff split' (Part.mem_parts_root.mpr reached)).mp earlier) with rfl | first
    · exact further rfl
    · simpa [encoded] using static other first

end

/-- A layout that has been found is that of a composite, valid and in declaration order. -/
theorem place_inDeclarationOrder {root : SolType} {mode : PackingMode} {layout : PackedLayout}
    (legal : root.shape.isLegal = true) (placed : place root mode = .ok layout) :
    (Part.root root).isComposite = true ∧ layout.IsValid ∧ ∃ entries, InDeclarationOrder root layout entries := by
  have composite : (Part.root root).isComposite = true := by
    cases root with
    | struct name members => rfl
    | tuple members => rfl
    | array base length =>
      cases length with
      | none => cases placed
      | some count => rfl
    | _ => cases placed
  cases dynamic : (Part.root root).isDynamic with
  | true =>
    obtain ⟨part, -, -, -, -, refused⟩ := place_of_dynamic legal composite dynamic mode
    cases placed.symm.trans refused
  | false =>
    obtain ⟨layout', entries, placed', -, -, valid, ordered⟩ := place_of_static legal composite dynamic mode
    cases placed.symm.trans placed'
    exact ⟨composite, valid, entries, ordered⟩

/-- Its slots do not go down. -/
theorem place_spec {root : SolType} {mode : PackingMode} {layout : PackedLayout} (legal : root.shape.isLegal = true)
    (placed : place root mode = .ok layout) :
    layout.IsValid ∧ layout.placements.Pairwise fun left right => left.slot ≤ right.slot := by
  obtain ⟨-, valid, entries, ordered⟩ := place_inDeclarationOrder legal placed
  refine ⟨valid, ?_⟩
  rw [← ordered.fields, List.pairwise_map]
  exact ordered.increasing.imp fun up => by omega

/-- Structs, tuples and fixed-size arrays in an arena are placed in declaration order, each value as near to the one
before as it may be, if they are encoded statically; the layout is valid and accepted. If any part is encoded
dynamically there is no layout, and the error names the first such part. -/
theorem place_follows_declaration_order {arena : Arena} (made : arena.Made) {id : NodeId} (inside : id < arena.size)
    (composite : (Part.root (arena.typeAt id)).isComposite = true) (mode : PackingMode) :
    ((Part.root (arena.typeAt id)).isDynamic = false →
      ∃ layout entries, place (arena.typeAt id) mode = .ok layout ∧ layout.root = (arena.typeAt id).shape ∧
        layout.mode = mode ∧ layout.validate = .ok () ∧ layout.IsValid ∧
        InDeclarationOrder (arena.typeAt id) layout entries) ∧
    ∀ part, (Part.root (arena.typeAt id)).at? part.path = some part → part.isDynamic = true →
      ∃ first, (Part.root (arena.typeAt id)).at? first.path = some first ∧ first.path ≠ [] ∧ first.isDynamic = true ∧
        (∀ other, (Part.root (arena.typeAt id)).at? other.path = some other → other.path ≠ [] →
          other.isDynamic = true → ¬ other.path < first.path) ∧
        place (arena.typeAt id) mode = .error (.unsupportedPacking first.type.shape.identifier .dynamicPart) := by
  have legal := made.sound.isLegal_typeAt inside
  refine ⟨fun static => ?_, fun part reached encoded => ?_⟩
  · obtain ⟨layout, entries, placed, type, same, valid, ordered⟩ := place_of_static legal composite static mode
    exact ⟨layout, entries, placed, type, same, PackedLayout.validate_eq_ok_iff.mpr valid, valid, ordered⟩
  · refine place_of_dynamic legal composite (Bool.not_eq_false _ |>.mp fun static => ?_) mode
    exact Bool.eq_false_iff.mp (Part.isDynamic_at? legal static reached) encoded

/-- An arena with a struct that has an array of arrays and an empty tuple, and with one that has a text. -/
def ledgerArena : Arena :=
  let ledger := Addition.described (.struct "Ledger" [⟨"frozen", .bool⟩,
    ⟨"rates", .array (.array (.uint 16) (some 2)) (some 2)⟩, ⟨"gap", .tuple []⟩, ⟨"total", .uint 128⟩])
  let note := Addition.described (.struct "Note" [⟨"frozen", .bool⟩, ⟨"text", .string⟩])
  (note.run.runOn (ledger.run.runOn .empty).2).2

/-- The fields of the first struct: each element of the outer array begins a slot, and so does the last member, because
of the empty tuple in front of it. -/
def ledgerFields : List Placement :=
  [⟨0, 0, 8, "frozen", .bool, none⟩, ⟨1, 0, 16, "rates[0][0]", .integer false 16, some ⟨0, 0⟩⟩,
    ⟨1, 16, 16, "rates[0][1]", .integer false 16, some ⟨0, 0⟩⟩,
    ⟨2, 0, 16, "rates[1][0]", .integer false 16, some ⟨0, 1⟩⟩,
    ⟨2, 16, 16, "rates[1][1]", .integer false 16, some ⟨0, 1⟩⟩, ⟨3, 0, 128, "total", .integer false 128, none⟩]

/-- The first struct has a layout of four slots, the second one has none. -/
theorem ledger_follows_declaration_order :
    (∃ layout entries, place (ledgerArena.typeAt 6) .bits = .ok layout ∧ layout.placements = ledgerFields ∧
      layout.slotCount = 4 ∧ layout.validate = .ok () ∧
      InDeclarationOrder (ledgerArena.typeAt 6) layout entries) ∧
    ∃ first : Part, first.isDynamic = true ∧
      place (ledgerArena.typeAt 9) .bits = .error (.unsupportedPacking first.type.shape.identifier .dynamicPart) := by
  have made : ledgerArena.Made :=
    .extended _ (.extended _ .empty fun _ named => nomatch named) fun _ named => nomatch named
  have placed : ((place (ledgerArena.typeAt 6) .bits).toOption.map fun layout =>
      (layout.placements, layout.slotCount)) = some (ledgerFields, 4) := by decide +kernel
  constructor
  · obtain ⟨layout, entries, found, -, -, accepted, -, ordered⟩ :=
      (place_follows_declaration_order made (show 6 < ledgerArena.size by decide +kernel) (by decide +kernel) .bits).1
        (by decide +kernel)
    rw [found] at placed
    simp only [Except.toOption, Option.map_some, Option.some.injEq, Prod.mk.injEq] at placed
    exact ⟨layout, entries, found, placed.1, placed.2, accepted, ordered⟩
  · obtain ⟨first, -, -, dynamic, -, refused⟩ :=
      (place_follows_declaration_order made (show 9 < ledgerArena.size by decide +kernel) (by decide +kernel) .bits).2
        (.root (ledgerArena.typeAt 9)) rfl (by decide +kernel)
    exact ⟨first, dynamic, refused⟩

end YulAbi.Packing
