import Mathlib.Data.List.Perm.Subperm
import YulAbi.OwnerNames
import YulAbi.Proofs.Arena.Numbers
import YulAbi.Proofs.Text

/-!
# Owner names identify shapes

Nodes of an arena ask for the names of their shapes, one after the other. Two answers are the
same text exactly if the nodes have the same number, whatever the fragments of their shapes are.
The first node of a shape settles the name: it is the first candidate that no earlier answer
was, so the search tries one candidate more at most than there were requests before.
-/

namespace YulAbi

namespace FreshName

/-- The first candidate that is not taken is chosen, after no more tries than there are taken names. -/
theorem choose_eq_candidate (taken : List String) (base : String) :
    ∃ number ≤ taken.length, choose taken base = candidate base number ∧
      ∀ smaller < number, candidate base smaller ∈ taken := by
  have free := choose_notMem taken base
  unfold choose at free ⊢
  cases found : (List.range (taken.length + 1)).find? fun number => !taken.contains (candidate base number) with
  | some number =>
    obtain ⟨-, listed, earlier⟩ := List.find?_range_eq_some.mp found
    refine ⟨number, by simpa [Nat.lt_succ_iff] using listed, rfl, fun smaller below => ?_⟩
    simpa using earlier smaller below
  | none =>
    -- then the base itself would be taken, which is what would be chosen
    have taken := List.find?_eq_none.mp found 0 (by simp)
    rw [found] at free
    simp_all

end FreshName

namespace OwnerNames

/-- The answers to requests for the names of shapes, one after the other. -/
def answers (names : OwnerNames) : List Shape → List String
  | [] => []
  | shape :: rest => (names.owner shape).1 :: (names.owner shape).2.answers rest

/-- The names after these requests. -/
def afterAll (names : OwnerNames) (shapes : List Shape) : OwnerNames :=
  shapes.foldl (fun names shape => (names.owner shape).2) names

/-- Whether shapes and names have been recorded as they were asked for and given. -/
structure Records (names : OwnerNames) (shapes : List Shape) (given : List String) : Prop where
  /-- Every request was answered. -/
  length : given.length = shapes.length
  /-- Exactly the answers are recorded. -/
  entries : ∀ entry, entry ∈ names.entries ↔ entry ∈ shapes.zip given
  /-- No shape is recorded twice. -/
  distinctShapes : (names.entries.map Prod.fst).Nodup
  /-- No name is recorded twice. -/
  distinctNames : names.taken.Nodup

section

variable {names : OwnerNames} {shape other : Shape} {shapes : List Shape} {given : List String} {name name' : String}

/-- Requests come in two parts. -/
theorem answers_append (names : OwnerNames) (shapes more : List Shape) :
    names.answers (shapes ++ more) = names.answers shapes ++ (names.afterAll shapes).answers more := by
  induction shapes generalizing names with
  | nil => rfl
  | cons shape rest ih => rw [List.cons_append, answers, ih]; rfl

/-- Nothing has been recorded at the start. -/
theorem records_empty : Records .empty [] [] :=
  ⟨rfl, fun entry => by simp [empty], by simp [empty], by simp [empty, taken]⟩

/-- A name that is found is recorded. -/
theorem mem_entries_of_find? (found : names.find? shape = some name) : (shape, name) ∈ names.entries := by
  obtain ⟨entry, isFound, rfl⟩ := Option.map_eq_some_iff.mp found
  have same : entry.1 = shape := by simpa using List.find?_some isFound
  exact same ▸ List.mem_of_find?_eq_some isFound

/-- Without a name a shape is not recorded. -/
theorem find?_eq_none_iff : names.find? shape = none ↔ shape ∉ names.entries.map Prod.fst := by
  simp only [find?, Option.map_eq_none_iff, List.find?_eq_none, beq_iff_eq, List.mem_map, not_exists, not_and]

/-- Recorded shapes are the same exactly if their names are. -/
theorem Records.shape_eq_iff (h : names.Records shapes given) (listed : (shape, name) ∈ shapes.zip given)
    (listed' : (other, name') ∈ shapes.zip given) : shape = other ↔ name = name' := by
  have own := (h.entries _).mpr listed
  have own' := (h.entries _).mpr listed'
  exact ⟨fun same => congrArg Prod.snd (List.inj_on_of_nodup_map h.distinctShapes own own' same),
    fun same => congrArg Prod.fst (List.inj_on_of_nodup_map h.distinctNames own own' same)⟩

/-- Names are taken exactly if they have been given. -/
theorem Records.mem_taken (h : names.Records shapes given) : name ∈ names.taken ↔ name ∈ given := by
  have second : (shapes.zip given).map Prod.snd = given := List.map_snd_zip h.length.le
  rw [taken, List.mem_map, ← second, List.mem_map]
  exact exists_congr fun entry => and_congr_left fun _ => h.entries entry

/-- No more names are taken than have been asked for. -/
theorem Records.length_taken (h : names.Records shapes given) : names.taken.length ≤ shapes.length :=
  h.length ▸ (List.subperm_of_subset h.distinctNames fun _ listed => h.mem_taken.mp listed).length_le

/-- A shape is without a name exactly if it has not been asked for. -/
theorem Records.find?_eq_none (h : names.Records shapes given) : names.find? shape = none ↔ shape ∉ shapes := by
  have first : (shapes.zip given).map Prod.fst = shapes := List.map_fst_zip h.length.ge
  rw [find?_eq_none_iff, not_iff_not, ← first, List.mem_map, List.mem_map]
  exact exists_congr fun entry => and_congr_left fun _ => h.entries entry

/-- One more request is recorded. -/
theorem Records.owner (h : names.Records shapes given) (shape : Shape) :
    (names.owner shape).2.Records (shapes ++ [shape]) (given ++ [(names.owner shape).1]) := by
  have more : ∀ name, (shapes ++ [shape]).zip (given ++ [name]) = shapes.zip given ++ [(shape, name)] :=
    fun name => List.zip_append h.length.symm
  have length : ∀ name, (given ++ [name]).length = (shapes ++ [shape]).length := by simp [h.length]
  unfold OwnerNames.owner
  split
  case h_1 name found =>
    refine ⟨length _, fun entry => ?_, h.distinctShapes, h.distinctNames⟩
    rw [more, List.mem_append, List.mem_singleton, ← h.entries]
    refine ⟨.inl, fun listed => listed.elim id fun same => ?_⟩
    rw [same]
    exact mem_entries_of_find? found
  case h_2 absent =>
    refine ⟨length _, fun entry => ?_, ?_, ?_⟩
    · rw [more, List.mem_append, List.mem_singleton, ← h.entries, List.mem_cons, or_comm]
    · exact List.nodup_cons.mpr ⟨find?_eq_none_iff.mp absent, h.distinctShapes⟩
    · exact List.nodup_cons.mpr ⟨FreshName.choose_notMem _ _, h.distinctNames⟩

/-- So are all that follow. The induction is on the requests. -/
theorem Records.afterAll (h : names.Records shapes given) (more : List Shape) :
    (names.afterAll more).Records (shapes ++ more) (given ++ names.answers more) := by
  induction more generalizing names shapes given with
  | nil => simpa [OwnerNames.afterAll, answers] using h
  | cons shape rest ih => simpa [OwnerNames.afterAll, answers] using ih (h.owner shape)

/-- A shape that is asked for the first time gets the first candidate that has not been given yet. -/
theorem Records.first (h : names.Records shapes given) (fresh : shape ∉ shapes) :
    ∃ number ≤ shapes.length, (names.owner shape).1 = FreshName.candidate shape.fragment number ∧
      FreshName.candidate shape.fragment number ∉ given ∧
      ∀ smaller < number, FreshName.candidate shape.fragment smaller ∈ given := by
  have chosen : (names.owner shape).1 = FreshName.choose names.taken shape.fragment := by
    rw [OwnerNames.owner, h.find?_eq_none.mpr fresh]
  obtain ⟨number, small, named, earlier⟩ := FreshName.choose_eq_candidate names.taken shape.fragment
  have free := FreshName.choose_notMem names.taken shape.fragment
  rw [named] at free
  exact ⟨number, small.trans h.length_taken, chosen.trans named, mt h.mem_taken.mpr free,
    fun smaller below => h.mem_taken.mp (earlier smaller below)⟩

end

end OwnerNames

namespace Arena

open FreshName (candidate)

/-- The names that nodes are answered when they ask for the names of their shapes, one after the other. -/
def ownerNames (arena : Arena) (requests : List NodeId) : List String :=
  OwnerNames.empty.answers (requests.map arena.shape)

section

variable {arena : Arena} {requests : List NodeId}

/-- All requests are recorded. -/
theorem records_ownerNames (arena : Arena) (requests : List NodeId) :
    (OwnerNames.empty.afterAll (requests.map arena.shape)).Records (requests.map arena.shape)
      (arena.ownerNames requests) :=
  OwnerNames.records_empty.afterAll (requests.map arena.shape)

/-- A request and its answer stand at the same place. -/
theorem mem_zip_of_getElem? {index : Nat} {id : NodeId} {name : String} (asked : requests[index]? = some id)
    (answered : (arena.ownerNames requests)[index]? = some name) :
    (arena.shape id, name) ∈ (requests.map arena.shape).zip (arena.ownerNames requests) := by
  refine List.mem_of_getElem? (i := index) (List.getElem?_zip_eq_some.mpr ⟨?_, answered⟩)
  rw [List.getElem?_map, asked]
  rfl

/-- What is answered to a request, and what has been answered before it. -/
theorem ownerNames_at {index : Nat} {id : NodeId} (asked : requests[index]? = some id) :
    (arena.ownerNames requests).take index = arena.ownerNames (requests.take index) ∧
      (arena.ownerNames requests)[index]? =
        some ((OwnerNames.empty.afterAll ((requests.take index).map arena.shape)).owner (arena.shape id)).1 := by
  obtain ⟨inside, rfl⟩ := List.getElem?_eq_some_iff.mp asked
  have parts : arena.ownerNames requests = arena.ownerNames (requests.take index) ++
      (OwnerNames.empty.afterAll ((requests.take index).map arena.shape)).answers
        ((requests.drop index).map arena.shape) := by
    rw [ownerNames, ownerNames, ← OwnerNames.answers_append, ← List.map_append, List.take_append_drop]
  have length : (arena.ownerNames (requests.take index)).length = index := by
    rw [(records_ownerNames arena _).length, List.length_map, List.length_take]
    omega
  rw [parts, List.drop_eq_getElem_cons inside]
  exact ⟨List.take_left' length, by rw [List.getElem?_append_right length.le, length, Nat.sub_self]; rfl⟩

/-- Two answers are the same name exactly if the nodes have the same shape. -/
theorem ownerNames_eq_iff {index index' : Nat} {id id' : NodeId} {name name' : String}
    (asked : requests[index]? = some id) (asked' : requests[index']? = some id')
    (answered : (arena.ownerNames requests)[index]? = some name)
    (answered' : (arena.ownerNames requests)[index']? = some name') :
    name = name' ↔ arena.shape id = arena.shape id' :=
  ((records_ownerNames arena requests).shape_eq_iff (mem_zip_of_getElem? asked answered)
    (mem_zip_of_getElem? asked' answered')).symm

/-- The first node of a shape is answered with the first candidate that has not been an answer before. -/
theorem ownerNames_first {index : Nat} {id : NodeId} (asked : requests[index]? = some id)
    (fresh : arena.shape id ∉ (requests.take index).map arena.shape) :
    ∃ number ≤ index, (arena.ownerNames requests)[index]? = some (candidate (arena.shape id).fragment number) ∧
      candidate (arena.shape id).fragment number ∉ (arena.ownerNames requests).take index ∧
      ∀ smaller < number, candidate (arena.shape id).fragment smaller ∈ (arena.ownerNames requests).take index := by
  obtain ⟨before, answered⟩ := ownerNames_at asked
  obtain ⟨number, small, named, free, taken⟩ := (records_ownerNames arena (requests.take index)).first fresh
  rw [List.length_map] at small
  rw [before, answered, named]
  exact ⟨number, small.trans (List.length_take_le _ _), rfl, free, taken⟩

/-- Every request of a node for the name of its shape is answered, with the same name exactly for nodes of the same
number. The first node of a shape is answered with the fragment of the shape or, if that has been an answer already, with
the fragment and the smallest number from one on that makes a text which has not. -/
theorem Made.owner_names_identify_shapes (made : arena.Made) (inside : ∀ id ∈ requests, id < arena.size) :
    (arena.ownerNames requests).length = requests.length ∧
      (∀ (index index' : Nat) (id id' : NodeId) (name name' : String), requests[index]? = some id →
        requests[index']? = some id' → (arena.ownerNames requests)[index]? = some name →
        (arena.ownerNames requests)[index']? = some name' →
        (name = name' ↔ arena.shapeId id = arena.shapeId id')) ∧
      ∀ (index : Nat) (id : NodeId), requests[index]? = some id →
        (∀ earlier ∈ requests.take index, arena.shapeId earlier ≠ arena.shapeId id) →
        ∃ number ≤ index,
          (arena.ownerNames requests)[index]? = some (candidate (arena.shape id).fragment number) ∧
          candidate (arena.shape id).fragment number ∉ (arena.ownerNames requests).take index ∧
          ∀ smaller < number,
            candidate (arena.shape id).fragment smaller ∈ (arena.ownerNames requests).take index := by
  have numbers : ∀ {id id'}, id ∈ requests → id' ∈ requests →
      (arena.shapeId id = arena.shapeId id' ↔ arena.shape id = arena.shape id') := fun listed listed' =>
    made.numbered.shapeId_eq_iff made.sound (inside _ listed) (inside _ listed')
  refine ⟨by simpa using (records_ownerNames arena requests).length, ?_, fun index id asked new => ?_⟩
  · intro index index' id id' name name' asked asked' answered answered'
    rw [numbers (List.mem_of_getElem? asked) (List.mem_of_getElem? asked')]
    exact ownerNames_eq_iff asked asked' answered answered'
  · refine ownerNames_first asked fun listed => ?_
    obtain ⟨earlier, before, same⟩ := List.mem_map.mp listed
    exact new earlier before ((numbers (List.mem_of_mem_take before) (List.mem_of_getElem? asked)).mpr same)

end

/-- A struct with one part. -/
def holder (name : String) (part : Description) : Addition := .described (.struct name [⟨"part", part⟩])

/-- An arena with a struct whose name looks numbered, two structs that differ under one name, and a copy of the first. -/
def pairArena : Arena :=
  let numbered := (holder "Pair_1" .bool).run.runOn .empty
  let first := (holder "Pair" (.uint 8)).run.runOn numbered.2
  let second := (holder "Pair" .bytes).run.runOn first.2
  ((Addition.copy 3).run.runOn second.2).2

/-- The second of the structs under one name is not named after the struct whose name looks numbered, and the copy is
named like what it is a copy of. -/
theorem pairs_identify_shapes :
    pairArena.ownerNames [1, 3, 5, 7] = ["Pair_1", "Pair", "Pair_2", "Pair"] ∧
      pairArena.shapeId 3 = pairArena.shapeId 7 ∧ pairArena.shapeId 3 ≠ pairArena.shapeId 5 ∧
      candidate "Pair" 2 = "Pair_2" ∧
      ∃ number ≤ 2, (pairArena.ownerNames [1, 3, 5, 7])[2]? = some (candidate "Pair" number) ∧
        candidate "Pair" number ∉ ["Pair_1", "Pair"] ∧
        ∀ smaller < number, candidate "Pair" smaller ∈ ["Pair_1", "Pair"] := by
  have made : pairArena.Made := .extended _ (.extended _ (.extended _ (.extended _ .empty fun _ named => nomatch named)
    fun _ named => nomatch named) fun _ named => nomatch named) (by decide +kernel)
  have inside : ∀ id ∈ [1, 3, 5, 7], id < pairArena.size := by decide +kernel
  have names : pairArena.ownerNames [1, 3, 5, 7] = ["Pair_1", "Pair", "Pair_2", "Pair"] := by decide +kernel
  have fragment : (pairArena.shape 5).fragment = "Pair" := by decide +kernel
  obtain ⟨-, same, first⟩ := made.owner_names_identify_shapes inside
  have copied := same 1 3 3 7 "Pair" "Pair" rfl rfl (by rw [names]; rfl) (by rw [names]; rfl)
  have apart := same 1 2 3 5 "Pair" "Pair_2" rfl rfl (by rw [names]; rfl) (by rw [names]; rfl)
  have settled := first 2 5 rfl (by decide +kernel)
  rw [fragment, names] at settled
  rw [names]
  exact ⟨rfl, copied.mp rfl, mt apart.mpr (by decide), by decide +kernel, settled⟩

end Arena

end YulAbi
