import YulAbi.Proofs.Packing.Accessors
import YulAbi.Proofs.Packing.Labels

/-!
# Names of accessors

The accessors of a type are named after the plain identifiers of the labels of its fields, and
nothing else makes these names unique. So there is a getter and a setter for each field exactly
if the identifiers differ; otherwise the emission is refused, or it gives one routine to several
fields. The identifiers differ if the members of every struct and tuple have different names of
letters and digits.
-/

namespace YulAbi

namespace Emission

section

variable {α β : Type} {names : List String}

/-- Whether an emission answers with a value, unless one of some names is that of another routine. -/
def AnswersOrConflicts (emission : Emission α) (names : List String) (answer : α) : Prop :=
  ∀ before, (emission.runOn before).1 = .ok answer ∨
    ∃ name ∈ names, (emission.runOn before).1 = .error (.routineConflict name)

/-- Nothing is left to do. -/
theorem AnswersOrConflicts.pure (answer : α) : (pure answer : Emission α).AnswersOrConflicts names answer :=
  fun _ => .inl rfl

/-- One after the other. -/
theorem AnswersOrConflicts.bind {first : Emission α} {next : α → Emission β} {middle : α} {answer : β}
    (h : first.AnswersOrConflicts names middle) (h' : (next middle).AnswersOrConflicts names answer) :
    (first >>= next).AnswersOrConflicts names answer := by
  intro before
  rw [runOn_bind]
  rcases ran : first.runOn before with ⟨outcome, reached⟩
  rcases h before with ended | ⟨name, listed, ended⟩
  · obtain rfl : outcome = .ok middle := by rw [← ended, ran]
    exact h' reached
  · obtain rfl : outcome = .error (.routineConflict name) := by rw [← ended, ran]
    exact .inr ⟨name, listed, rfl⟩

/-- Adding a routine answers with its name. -/
theorem AnswersOrConflicts.addRoutine {routine : Yul.Routine} (listed : routine.name ∈ names) :
    (addRoutine routine).AnswersOrConflicts names routine.name := by
  intro before
  rw [runOn_addRoutine]
  cases added : before.unit.addRoutine routine with
  | ok later => exact .inl rfl
  | error cause =>
    unfold CodeUnit.addRoutine at added
    split at added
    · cases added
    · split at added <;> cases added
      exact .inr ⟨_, listed, rfl⟩

end

end Emission

namespace Packing

section

variable {owner : String} {source : WordSource} {model : CostModel} {placements : List Placement}

/-- Emitting the accessors of fields inside of slots answers with their names, unless one of these is in use. -/
theorem emitEach_answersOrConflicts {names : List String}
    (legal : ∀ placement ∈ placements, 0 < placement.bitLength ∧ placement.bitEnd ≤ wordBits)
    (among : placements.flatMap (fieldNames owner) ⊆ names) :
    (emitEach owner source model placements).AnswersOrConflicts names (placements.flatMap (fieldNames owner)) := by
  induction placements with
  | nil => exact .pure []
  | cons placement rest ih =>
    obtain ⟨⟨some, fits⟩, others⟩ := List.forall_mem_cons.mp legal
    rw [List.flatMap_cons] at among ⊢
    obtain ⟨own, later⟩ := List.append_subset.mp among
    obtain ⟨get, set, accessors, adds⟩ := emitFieldAccessors_adds owner source model some fits
    have field : (emitFieldAccessors owner source model placement).AnswersOrConflicts names
        (fieldNames owner placement) := by
      rw [accessors] at own ⊢
      have added : Emission.AnswersOrConflicts (do return [← Emission.addRoutine get, ← Emission.addRoutine set])
          names [get.name, set.name] :=
        .bind (.addRoutine (own (by simp))) (.bind (.addRoutine (own (by simp))) (.pure _))
      exact fun before => adds before ▸ added before
    exact field.bind ((ih others later).bind (.pure _))

/-- Names of accessors are different if the identifiers of the fields are, and only then. -/
theorem nodup_fieldNames : (placements.flatMap (fieldNames owner)).Nodup ↔
    (placements.map fun placement => Identifier.sanitize placement.label).Nodup := by
  have own : ∀ placement, (fieldNames owner placement).Nodup := fun _ => by simp [fieldNames]
  have apart : ∀ left right : Placement, List.Disjoint (fieldNames owner left) (fieldNames owner right) ↔
      Identifier.sanitize left.label ≠ Identifier.sanitize right.label := by
    intro left right
    refine ⟨fun disjoint same => ?_, fun different => ?_⟩
    · have suffixes : suffix owner left = suffix owner right := by rw [suffix, suffix, same]
      exact disjoint List.mem_cons_self (by rw [fieldNames, suffixes]; exact List.mem_cons_self)
    · have suffixes : suffix owner right ≠ suffix owner left := suffix_ne different.symm
      simp [fieldNames, get_ne_set, (get_ne_set _ _).symm, suffixes]
  rw [List.nodup_flatMap, List.Nodup, List.pairwise_map]
  constructor
  · rintro ⟨-, pairwise⟩
    exact pairwise.imp fun {left right} => (apart left right).mp
  · intro pairwise
    exact ⟨fun placement _ => own placement, pairwise.imp fun {left right} => (apart left right).mpr⟩

end

/-- The accessors of a type that can be packed have names of their own exactly if the labels of its fields have different
plain identifiers. Whatever the labels are, emission into an empty unit answers with a name for the getter and one for
the setter of each field, or it is refused because one of these names is in use already. -/
theorem accessors_distinct_iff {arena : Arena} (made : arena.Made) {id : NodeId} (inside : id < arena.size)
    {settings : PackingSettings} {layout : PackedLayout} (packed : pack (arena.typeAt id) settings = .ok layout)
    (source : WordSource) (model : CostModel) (owners : OwnerNames) :
    ∃ owner outcome, ((emitAccessors layout source model).runOn ⟨.empty, owners, []⟩).1 = outcome ∧
      (outcome = .ok (layout.placements.flatMap (fieldNames owner)) ∨
        ∃ name ∈ layout.placements.flatMap (fieldNames owner), outcome = .error (.routineConflict name)) ∧
      ((∃ names, outcome = .ok names ∧ names.Nodup) ↔
        (layout.placements.map fun placement => Identifier.sanitize placement.label).Nodup) := by
  have valid := (pack_spec (made.sound.isLegal_typeAt inside) packed).1
  have ended : _ ∨ _ := emitAccessors_runOn layout source model ⟨.empty, owners, []⟩ ▸
    emitEach_answersOrConflicts (fun placement listed => ⟨valid.some placement listed, valid.fits placement listed⟩)
      (List.Subset.refl _) ⟨.empty, (owners.owner layout.root).2, []⟩
  refine ⟨(owners.owner layout.root).1, _, rfl, ended, ⟨fun ⟨names, answered, different⟩ => ?_, fun different => ?_⟩⟩
  · rcases ended with named | ⟨name, -, conflict⟩
    · cases named.symm.trans answered
      exact nodup_fieldNames.mp different
    · cases conflict.symm.trans answered
  · obtain ⟨after, emitted, -⟩ := emitAccessors_succeeds valid different source model owners
    exact ⟨_, congrArg Prod.fst emitted, nodup_fieldNames.mpr different⟩

/-- Nothing tells a dot or a bracket from an underscore. -/
example : Identifier.sanitize "a.b" = Identifier.sanitize "a_b" ∧
    Identifier.sanitize "xs[1]" = Identifier.sanitize "xs_1_" := by
  decide +kernel

/-- A type that can be packed and whose structs and tuples have different names of letters and digits for their members
has accessors: emission into an empty unit adds one getter and one setter for each field, in order, under different
names, and nothing else. -/
theorem well_named_accessors {arena : Arena} (made : arena.Made) {id : NodeId} (inside : id < arena.size)
    (named : (arena.typeAt id).isWellNamed = true) {settings : PackingSettings} {layout : PackedLayout}
    (packed : pack (arena.typeAt id) settings = .ok layout) (source : WordSource) (model : CostModel)
    (owners : OwnerNames) :
    ∃ names after, (emitAccessors layout source model).runOn ⟨.empty, owners, []⟩ = (.ok names, after) ∧
      (∃ owner, names = layout.placements.flatMap (fieldNames owner)) ∧ names.Nodup ∧
      after.unit.routines.map Yul.Routine.name = names := by
  have legal := made.sound.isLegal_typeAt inside
  have different := nodup_labels_of_pack legal named packed
  obtain ⟨after, emitted, routines⟩ := emitAccessors_succeeds (pack_spec legal packed).1 different source model owners
  exact ⟨_, after, emitted, ⟨_, rfl⟩, nodup_fieldNames.mpr different, routines⟩

end Packing

end YulAbi
