import YulAbi.Codec.ParameterList
import YulAbi.Proofs.Emission.Orderly
import YulAbi.Proofs.Naming.Owners
import YulAbi.Proofs.Shape.Failures
import YulAbi.Proofs.Shape.Size

/-!
# What constants are named after

A few common numbers have names of their own. All other constants are named after the owner name
of a struct or tuple, the offset of a part also after the name of the part, or after an error or
event; what kind of number it is stands behind that. Unlike routines they get no number if a name
is in use for another value. They need none if the types at hand are named well enough apart: then
the name of a constant tells what it stands for, and adding one never fails.
-/

namespace YulAbi

open FreshName (candidate)
open Identifier (sanitize)
open Offsets (memberName)

/-! ### Kinds of constants -/

/-- What a constant is that is named after a type. -/
inductive ConstantKind where
  /-- An offset of a part. -/
  | offset
  /-- A size of heads. -/
  | size
  /-- The selector of an error. -/
  | selector
  /-- The topic of an event. -/
  | topic
  deriving DecidableEq

/-- The end of the name. -/
def ConstantKind.ending : ConstantKind → String
  | .offset => "_offset"
  | .size => "_size"
  | .selector => "_selector"
  | .topic => "_topic0"

/-- What stands in front of the end of the name of an offset. -/
def Regime.mark : Regime → String
  | .calldata => "_cd"
  | .memory => "_mem"
  | .packed => "_bit"

/-- Constants with names of their own. -/
def commonConstants : List (String × Word) :=
  FixedConstant.all.map (fun constant => (constant.name, constant.value)) ++
    [("OneWord", Word.ofNat 32), ("TwoWords", Word.ofNat 64), ("ThreeWords", Word.ofNat 96),
      ("FourWords", Word.ofNat 128)]

/-- Names with ends are the same only if both pieces are. -/
theorem ConstantKind.ending_unique {kind kind' : ConstantKind} {stem stem' : String}
    (same : stem ++ kind.ending = stem' ++ kind'.ending) : kind = kind' ∧ stem = stem' := by
  -- the ends differ in their last characters
  have last := congrArg (fun text : String => text.toList.getLast?) same
  obtain rfl : kind = kind' := by
    cases kind <;> cases kind' <;> first | rfl | simp [ending] at last
  exact ⟨rfl, (String.append_left_inj _).mp same⟩

/-- The same of what is in front of the end of offsets. -/
theorem Regime.mark_unique {regime regime' : Regime} {stem stem' : String}
    (same : stem ++ regime.mark = stem' ++ regime'.mark) : regime = regime' ∧ stem = stem' := by
  have last := congrArg (fun text : String => text.toList.getLast?) same
  obtain rfl : regime = regime' := by
    cases regime <;> cases regime' <;> first | rfl | simp [mark] at last
  exact ⟨rfl, (String.append_left_inj _).mp same⟩

/-- The names of common constants hold no underscore. -/
theorem underscore_notMem_commonConstants : ∀ entry ∈ commonConstants, '_' ∉ entry.1.toList := by
  decide

/-- No two of them have one name. -/
theorem nodup_commonConstants : (commonConstants.map Prod.fst).Nodup := by
  decide

/-! ### Names that tell constants apart -/

/-- The types that constants are named after. -/
structure ConstantScope where
  /-- Structs and tuples, whose parts have offsets. -/
  composites : List SolType
  /-- Errors and events. -/
  signatures : List SolType

/-- The constant that an error or an event has: its kind, what it is named after, and the text that it is the hash
of. -/
def SolType.hashed? : SolType → Option (ConstantKind × String × String)
  | .error name parameters => some (.selector, sanitize name, (SolType.error name parameters).shape.abiType)
  | .event name parameters data indexed false =>
    some (.topic, sanitize name, (SolType.event name parameters data indexed false).shape.abiType)
  | _ => none

namespace ConstantScope

/-- Whether under one shape a part has a name that no other part has. -/
def PartsDistinct (scope : ConstantScope) : Prop :=
  ∀ type ∈ scope.composites, ∀ other ∈ scope.composites, type.shape = other.shape →
    ∀ index < type.members.length, ∀ index' < other.members.length,
      memberName type index = memberName other index' → index = index'

/-- Whether errors of one name have one signature, and events too unless they are anonymous. -/
def SignaturesDistinct (scope : ConstantScope) : Prop :=
  ∀ entry ∈ scope.signatures.filterMap SolType.hashed?, ∀ entry' ∈ scope.signatures.filterMap SolType.hashed?,
    entry.1 = entry'.1 → entry.2.1 = entry'.2.1 → entry.2.2 = entry'.2.2

/-- Whether types are named well enough apart for their constants. -/
structure NamesApart (scope : ConstantScope) : Prop where
  /-- Parts of one shape are told apart. -/
  parts : scope.PartsDistinct
  /-- Errors and events are told apart. -/
  signatures : scope.SignaturesDistinct
  /-- A part of one owner is not named like a part of another one. -/
  owners : ∀ type ∈ scope.composites, ∀ other ∈ scope.composites, ∀ number number' : Nat,
    ∀ index < type.members.length, ∀ index' < other.members.length,
      candidate type.shape.fragment number ++ "_" ++ memberName type index =
        candidate other.shape.fragment number' ++ "_" ++ memberName other index' →
      candidate type.shape.fragment number = candidate other.shape.fragment number'
  /-- Heads in memory are not named like encoded heads. -/
  heads : ∀ type ∈ scope.composites, ∀ other ∈ scope.composites, ∀ number number' : Nat,
    candidate type.shape.fragment number ≠ candidate other.shape.fragment number' ++ "_cd"

/-- Whether parts are named without underscores and owners not like encoded heads. -/
structure NamesPlain (scope : ConstantScope) : Prop where
  /-- Parts of one shape are told apart. -/
  parts : scope.PartsDistinct
  /-- Errors and events are told apart. -/
  signatures : scope.SignaturesDistinct
  /-- Parts are named without underscores. -/
  plain : ∀ type ∈ scope.composites, ∀ index < type.members.length, '_' ∉ (memberName type index).toList
  /-- Owners are not named like encoded heads. -/
  heads : ∀ type ∈ scope.composites, ¬ "_cd".toList <:+ type.shape.fragment.toList

/-- A numbered candidate does not end like encoded heads, and one without a number only if its fragment does. -/
theorem suffix_of_candidate {fragment front : String} {number : Nat} (same : candidate fragment number = front ++ "_cd") :
    "_cd".toList <:+ fragment.toList := by
  unfold candidate at same
  split at same
  · exact ⟨front.toList, by rw [same, String.toList_append]⟩
  · -- the last character would be a digit
    have last : (Nat.toDigits 10 number).getLast? = some 'd' := by
      have last := congrArg (fun text : String => text.toList.getLast?) same
      simpa [toString, Nat.repr_eq_ofList_toDigits, List.getLast?_append, List.getLast?_cons,
        List.getLast?_eq_some_getLast Nat.toDigits_ne_nil] using last
    exact absurd (Numeral.isDigit_of_mem_toDigits (List.mem_of_getLast? last)) (by decide)

/-- Plain names are apart. -/
theorem NamesPlain.apart {scope : ConstantScope} (h : scope.NamesPlain) : scope.NamesApart where
  parts := h.parts
  signatures := h.signatures
  owners := by
    intro type listed other listed' number number' index inside index' inside' same
    -- the last underscore stands between the owner and its part
    have free : '_' ∉ (memberName type index).toList.reverse := by simpa using h.plain type listed index inside
    have free' : '_' ∉ (memberName other index').toList.reverse := by simpa using h.plain other listed' index' inside'
    have reversed := congrArg (fun text : String => text.toList.reverse) same
    simp only [String.toList_append, List.reverse_append] at reversed
    exact String.toList_inj.mp (List.reverse_injective (Text.front_unique free free' reversed).2)
  heads := fun type listed _ _ _ _ same => h.heads type listed (suffix_of_candidate same)

end ConstantScope

/-- Whether each owner has a name of its own that comes from its shape. -/
structure OwnerNames.Sound (names : OwnerNames) : Prop where
  /-- No name is given twice. -/
  distinct : names.taken.Nodup
  /-- Names are candidates for their shapes. -/
  numbered : ∀ entry ∈ names.entries, ∃ number, entry.2 = candidate entry.1.fragment number

/-- What a constant stands for whose name is a text with the end of a kind. -/
inductive ConstantScope.Denotes (scope : ConstantScope) (names : OwnerNames) : ConstantKind → String → Word → Prop where
  /-- The offset of a part. -/
  | offset {type : SolType} {owner : String} {index offset : Nat} {regime : Regime}
      (listed : type ∈ scope.composites) (owned : (type.shape, owner) ∈ names.entries)
      (inside : index < type.members.length) (measured : type.shape.memberOffset index regime = .ok offset) :
      Denotes scope names .offset (owner ++ "_" ++ memberName type index ++ regime.mark) (Word.ofNat offset)
  /-- The size of heads in memory. -/
  | memoryHead {type : SolType} {owner : String} {size : Nat} (listed : type ∈ scope.composites)
      (owned : (type.shape, owner) ∈ names.entries) (measured : type.shape.memorySize = .ok size) :
      Denotes scope names .size (owner ++ "_head") (Word.ofNat size)
  /-- The size of encoded heads. -/
  | callHead {type : SolType} {owner : String} {size : Nat} (listed : type ∈ scope.composites)
      (owned : (type.shape, owner) ∈ names.entries) (measured : type.shape.headRegion = .ok size) :
      Denotes scope names .size (owner ++ "_cd" ++ "_head") (Word.ofNat size)
  /-- The selector of an error. -/
  | selector {type : SolType} {name text : String} (listed : type ∈ scope.signatures)
      (hashed : type.hashed? = some (.selector, name, text)) :
      Denotes scope names .selector name (Keccak.selectorWord text)
  /-- The topic of an event. -/
  | topic {type : SolType} {name text : String} (listed : type ∈ scope.signatures)
      (hashed : type.hashed? = some (.topic, name, text)) :
      Denotes scope names .topic name (Keccak.topicWord text)

/-- Whether a constant is a common one or has a name that tells what it stands for. -/
def ConstantScope.Stands (scope : ConstantScope) (names : OwnerNames) (name : String) (value : Word) : Prop :=
  (name, value) ∈ commonConstants ∨ ∃ kind stem, name = stem ++ kind.ending ∧ scope.Denotes names kind stem value

section

variable {scope : ConstantScope} {names : OwnerNames}

/-- Owners of one name are one shape. -/
theorem OwnerNames.Sound.shape_unique {shape shape' : Shape} {owner : String} (sound : names.Sound)
    (owned : (shape, owner) ∈ names.entries) (owned' : (shape', owner) ∈ names.entries) : shape = shape' :=
  congrArg Prod.fst (List.inj_on_of_nodup_map sound.distinct owned owned' rfl)

/-- A shape that is asked for has its name then, and all others keep theirs. -/
theorem OwnerNames.Sound.owner (sound : names.Sound) (shape : Shape) :
    (names.owner shape).2.Sound ∧ (shape, (names.owner shape).1) ∈ (names.owner shape).2.entries ∧
      ∀ entry ∈ names.entries, entry ∈ (names.owner shape).2.entries := by
  unfold OwnerNames.owner
  split
  case h_1 name found => exact ⟨sound, mem_entries_of_find? found, fun _ listed => listed⟩
  case h_2 =>
    obtain ⟨number, -, chosen, -⟩ := FreshName.choose_eq_candidate names.taken shape.fragment
    refine ⟨⟨List.nodup_cons.mpr ⟨FreshName.choose_notMem _ _, sound.distinct⟩, ?_⟩, List.mem_cons_self,
      fun _ listed => List.mem_cons_of_mem _ listed⟩
    exact List.forall_mem_cons.mpr ⟨⟨number, chosen⟩, sound.numbered⟩

/-- Signatures of one kind and name are one text. -/
theorem ConstantScope.SignaturesDistinct.text_unique {type other : SolType} {kind : ConstantKind}
    {name text text' : String} (apart : scope.SignaturesDistinct) (listed : type ∈ scope.signatures)
    (listed' : other ∈ scope.signatures) (hashed : type.hashed? = some (kind, name, text))
    (hashed' : other.hashed? = some (kind, name, text')) : text = text' :=
  apart _ (List.mem_filterMap.mpr ⟨type, listed, hashed⟩) _ (List.mem_filterMap.mpr ⟨other, listed', hashed'⟩) rfl rfl

/-- What stands in front of the end of a name tells the value. -/
theorem ConstantScope.Denotes.unique (apart : scope.NamesApart) (sound : names.Sound) {kind : ConstantKind} {stem stem' : String}
    {value value' : Word} (same : stem = stem') (h : scope.Denotes names kind stem value)
    (h' : scope.Denotes names kind stem' value') : value = value' := by
  -- encoded heads are no heads in memory, whichever comes first
  have heads : ∀ {type other : SolType} {owner owner' : String}, type ∈ scope.composites → other ∈ scope.composites →
      (type.shape, owner) ∈ names.entries → (other.shape, owner') ∈ names.entries →
      owner ++ "_head" ≠ owner' ++ "_cd" ++ "_head" := by
    intro type other owner owner' listed listed' owned owned' equal
    obtain ⟨number, named⟩ := sound.numbered _ owned
    obtain ⟨number', named'⟩ := sound.numbered _ owned'
    obtain rfl := (String.append_left_inj _).mp equal
    exact apart.heads _ listed _ listed' number number' (named.symm.trans (congrArg (· ++ "_cd") named'))
  cases h with
  | offset listed owned inside measured =>
    cases h' with
    | offset listed' owned' inside' measured' =>
      obtain ⟨rfl, joined⟩ := Regime.mark_unique same
      obtain ⟨number, named⟩ := sound.numbered _ owned
      obtain ⟨number', named'⟩ := sound.numbered _ owned'
      dsimp only at named named'
      obtain rfl : _ = _ := named.trans ((apart.owners _ listed _ listed' number number' _ inside _ inside'
        (by rw [← named, ← named', joined])).trans named'.symm)
      have shapes := sound.shape_unique owned owned'
      have indices := apart.parts _ listed _ listed' shapes _ inside _ inside' ((String.append_right_inj _).mp joined)
      rw [shapes, indices, measured'] at measured
      rw [Except.ok.inj measured]
  | memoryHead listed owned measured =>
    cases h' with
    | memoryHead listed' owned' measured' =>
      obtain rfl := (String.append_left_inj _).mp same
      rw [sound.shape_unique owned owned', measured'] at measured
      rw [Except.ok.inj measured]
    | callHead listed' owned' _ => exact absurd same (heads listed listed' owned owned')
  | callHead listed owned measured =>
    cases h' with
    | memoryHead listed' owned' _ => exact absurd same.symm (heads listed' listed owned' owned)
    | callHead listed' owned' measured' =>
      obtain rfl := (String.append_left_inj _).mp ((String.append_left_inj _).mp same)
      rw [sound.shape_unique owned owned', measured'] at measured
      rw [Except.ok.inj measured]
  | selector listed hashed =>
    cases h' with
    | selector listed' hashed' => rw [apart.signatures.text_unique listed listed' hashed (same ▸ hashed')]
  | topic listed hashed =>
    cases h' with
    | topic listed' hashed' => rw [apart.signatures.text_unique listed listed' hashed (same ▸ hashed')]

/-- The name of a constant tells its value. -/
theorem ConstantScope.Stands.unique (apart : scope.NamesApart) (sound : names.Sound) {name : String} {value value' : Word}
    (h : scope.Stands names name value) (h' : scope.Stands names name value') : value = value' := by
  have ended : ∀ {stem : String} {kind : ConstantKind} {value : Word}, (stem ++ kind.ending, value) ∉ commonConstants := by
    intro stem kind value listed
    refine underscore_notMem_commonConstants _ listed ?_
    cases kind <;> simp [ConstantKind.ending]
  rcases h with listed | ⟨kind, stem, rfl, denotes⟩
  · rcases h' with listed' | ⟨kind, stem, rfl, -⟩
    · exact congrArg Prod.snd (List.inj_on_of_nodup_map nodup_commonConstants listed listed' rfl)
    · exact absurd listed ended
  · rcases h' with listed' | ⟨kind', stem', joined, denotes'⟩
    · exact absurd listed' ended
    · obtain ⟨rfl, same⟩ := ConstantKind.ending_unique joined
      exact denotes.unique apart sound same denotes'

/-- What a constant stands for does not change when more shapes have names. -/
theorem ConstantScope.Stands.mono {names' : OwnerNames} (grows : ∀ entry ∈ names.entries, entry ∈ names'.entries) {name : String}
    {value : Word} (h : scope.Stands names name value) : scope.Stands names' name value := by
  refine h.imp id fun ⟨kind, stem, named, denotes⟩ => ⟨kind, stem, named, ?_⟩
  cases denotes with
  | offset listed owned inside measured => exact .offset listed (grows _ owned) inside measured
  | memoryHead listed owned measured => exact .memoryHead listed (grows _ owned) measured
  | callHead listed owned measured => exact .callHead listed (grows _ owned) measured
  | selector listed hashed => exact .selector listed hashed
  | topic listed hashed => exact .topic listed hashed

end

/-! ### Emissions

An emission that asks for constants only that stand for their values leaves such constants behind
however it ends, and none of them is ever refused. Emissions in a row need nothing of each other. -/

/-- Whether owners have names of their own and every constant stands for its value. -/
structure Workspace.Bound (scope : ConstantScope) (workspace : Workspace) : Prop where
  /-- Owners are named after their shapes. -/
  owners : workspace.owners.Sound
  /-- Constants are named after what they stand for. -/
  constants : ∀ entry ∈ workspace.unit.constants, scope.Stands workspace.owners entry.1 entry.2

/-- A workspace that starts with an empty unit has no names yet. -/
theorem Workspace.bound_start (scope : ConstantScope) : (Workspace.start .empty).Bound scope :=
  ⟨⟨List.nodup_nil, nofun⟩, nofun⟩

namespace Emission

/-- Whether an emission binds no name to two values, however it ends, as long as types are named apart. -/
def Binds {α : Type} (scope : ConstantScope) (emission : Emission α) : Prop :=
  scope.NamesApart → ∀ before, before.Bound scope → (emission.runOn before).2.Bound scope ∧
    ∀ name existing requested, (emission.runOn before).1 ≠ .error (.constantConflict name existing requested)

section

variable {α β : Type} {scope : ConstantScope}

/-- An answer binds nothing. -/
theorem Binds.pure (value : α) : (pure value : Emission α).Binds scope :=
  fun _ _ bound => ⟨bound, fun _ _ _ failed => nomatch failed⟩

/-- A failure that is no conflict. -/
theorem Binds.throw {cause : GenerationError} (clean : cause.isConflict = false) :
    (throw cause : Emission α).Binds scope := by
  refine fun _ before bound => ⟨bound, fun name existing requested failed => ?_⟩
  cases failed
  cases clean

/-- Emissions in a row. -/
theorem Binds.bind {first : Emission α} {next : α → Emission β} (h : first.Binds scope)
    (h' : ∀ value, (next value).Binds scope) : (first >>= next).Binds scope := by
  intro apart before bound
  obtain ⟨kept, clean⟩ := h apart before bound
  rw [runOn_bind]
  rcases ran : first.runOn before with ⟨result, reached⟩
  rw [ran] at kept clean
  cases result with
  | error cause =>
    refine ⟨kept, fun name existing requested failed => clean name existing requested ?_⟩
    cases failed
    rfl
  | ok value => exact h' value apart reached kept

/-- A size or offset binds nothing, and it is what is measured to those who use it. -/
theorem Binds.measured {answer : Generated α} {next : α → Emission β} (measures : Measures answer)
    (h : ∀ value, answer = .ok value → (next value).Binds scope) : ((liftM answer : Emission α) >>= next).Binds scope := by
  cases answer with
  | error cause =>
    change (MonadExcept.throw cause : Emission β).Binds scope
    exact .throw (measures cause rfl)
  | ok value => exact h value rfl

/-- A routine binds nothing. -/
theorem Binds.addRoutine (routine : Yul.Routine) : (addRoutine routine).Binds scope := by
  intro apart before bound
  rw [runOn_addRoutine]
  cases added : before.unit.addRoutine routine with
  | error cause =>
    obtain ⟨rfl, -⟩ := CodeUnit.exists_of_addRoutine_eq_error added
    exact ⟨bound, fun _ _ _ failed => nomatch failed⟩
  | ok unit =>
    refine ⟨⟨bound.owners, ?_⟩, fun _ _ _ failed => nomatch failed⟩
    rcases CodeUnit.addRoutine_cases added with ⟨-, rfl⟩ | ⟨-, rfl⟩ <;> exact bound.constants

/-- A constant that stands for its value may be added. -/
theorem bound_addConstant (apart : scope.NamesApart) {before : Workspace} (bound : before.Bound scope) {name : String}
    {value : Word} (stands : scope.Stands before.owners name value) :
    ((addConstant name value).runOn before).2.Bound scope ∧ ∀ other existing requested,
      ((addConstant name value).runOn before).1 ≠ .error (.constantConflict other existing requested) := by
  rw [runOn_addConstant, CodeUnit.addConstant]
  cases found : before.unit.constant? name with
  | none =>
    refine ⟨⟨bound.owners, fun entry listed => ?_⟩, fun _ _ _ => by simp⟩
    rcases List.mem_append.mp listed with listed | listed
    · exact bound.constants entry listed
    · rw [List.mem_singleton.mp listed]
      exact stands
  | some existing =>
    -- the value that is there has the same name, so it is the same
    obtain ⟨entry, isFound, rfl⟩ := Option.map_eq_some_iff.mp found
    have named : entry.1 = name := by simpa using List.find?_some isFound
    have earlier := bound.constants entry (List.mem_of_find?_eq_some isFound)
    have same : entry.2 = value := (named ▸ earlier).unique apart bound.owners stands
    simp only [same, if_true]
    exact ⟨⟨bound.owners, bound.constants⟩, fun _ _ _ => by simp⟩

/-- A constant that stands for its value whoever the owners are. -/
theorem Binds.addConstant {name : String} {value : Word} (stands : ∀ names, scope.Stands names name value) :
    (addConstant name value).Binds scope :=
  fun apart _ bound => bound_addConstant apart bound (stands _)

/-- A shape may be asked for its name. -/
theorem bound_owner {before : Workspace} (bound : before.Bound scope) (shape : Shape) (requests) :
    Workspace.Bound scope ⟨before.unit, (before.owners.owner shape).2, requests⟩ :=
  have ⟨sound, _, grows⟩ := bound.owners.owner shape
  ⟨sound, fun entry listed => (bound.constants entry listed).mono grows⟩

/-- A constant that is named after its owner. -/
theorem Binds.owned {shape : Shape} {name : String → String} {value : Word}
    (stands : ∀ (names : OwnerNames) (owner : String), (shape, owner) ∈ names.entries →
      scope.Stands names (name owner) value) :
    (do let owner ← owner shape
        Emission.addConstant (name owner) value).Binds scope := by
  intro apart before bound
  exact bound_addConstant apart (bound_owner bound shape before.requests) (stands _ _ (bound.owners.owner shape).2.1)

/-- A request binds what generating its routine does. -/
theorem Binds.routineFor {operation : Operation} {shape : Shape} {generate : String → Emission Yul.Routine}
    (generates : ∀ name, (generate name).Binds scope) : (routineFor operation shape generate).Binds scope := by
  intro apart before bound
  rw [runOn_routineFor]
  cases before.requests.find? fun entry => entry.1 == (operation, shape) with
  | some entry => exact ⟨bound, fun _ _ _ failed => nomatch failed⟩
  | none => exact ((generates _).bind fun routine => .addRoutine routine) apart _ (bound_owner bound shape _)

end

end Emission

namespace Offsets

section

variable {scope : ConstantScope}

/-- A common constant. -/
theorem named_binds (useNames : Bool) {name : String} {value : Word} (common : (name, value) ∈ commonConstants) :
    (named useNames name value).Binds scope := by
  unfold named
  split
  · exact .addConstant fun _ => .inl common
  · exact .pure _

/-- A fixed constant. -/
theorem fixed_binds (useNames : Bool) (constant : FixedConstant) : (fixed useNames constant).Binds scope :=
  named_binds useNames (by cases constant <;> decide)

/-- A number of bytes. -/
theorem words_binds (useNames : Bool) (bytes : Nat) : (words useNames bytes).Binds scope := by
  unfold words
  split
  · exact named_binds useNames (by decide)
  · exact named_binds useNames (by decide)
  · exact named_binds useNames (by decide)
  · exact named_binds useNames (by decide)
  · exact .pure _

/-- The selector of an error or the topic of an event. -/
theorem signature_binds (useNames : Bool) {kind : ConstantKind} {name : String} {value : Word}
    (denotes : ∀ names, scope.Denotes names kind name value) :
    (named useNames (name ++ kind.ending) value).Binds scope := by
  unfold named
  split
  · exact .addConstant fun names => .inr ⟨kind, name, rfl, denotes names⟩
  · exact .pure _

/-- A word that is named after a shape. -/
theorem owned_binds (useNames : Bool) {shape : Shape} {name : String → String} {value : Word}
    (stands : ∀ (names : OwnerNames) (owner : String), (shape, owner) ∈ names.entries →
      scope.Stands names (name owner) value) :
    (do let owner ← Emission.owner shape
        named useNames (name owner) value).Binds scope := by
  cases useNames with
  | true => exact .owned stands
  | false => exact fun _ before bound => ⟨Emission.bound_owner bound shape _, fun _ _ _ failed => nomatch failed⟩

variable {type : SolType} {members : List Shape}

/-- A size that belongs to a type. -/
theorem ownedSize_binds (useNames : Bool) {suffix : String} {size : Nat}
    (stands : ∀ (names : OwnerNames) (owner : String), (type.shape, owner) ∈ names.entries →
      scope.Stands names (owner ++ "_" ++ suffix) (Word.ofNat size)) :
    (ownedSize useNames type.shape suffix size).Binds scope := by
  unfold ownedSize
  split
  · exact words_binds _ _
  · exact owned_binds useNames stands

variable (listed : type ∈ scope.composites)

include listed

/-- The offset of a part, in bytes. -/
theorem member_binds (useNames : Bool) (composite : type.shape.IsComposite (SolType.shapes type.members)) (index : Nat)
    {regime : Regime} (unpacked : regime ≠ .packed) : (member useNames type index regime).Binds scope := by
  refine .measured (Shape.memberOffset_measures unpacked type.shape index) fun offset measured => ?_
  have inside : index < type.members.length := by
    have size : (SolType.shapes type.members).length = type.members.length := by
      rw [SolType.shapes_eq_map, List.length_map]
    cases regime with
    | calldata => exact size ▸ (Shape.memberOffset_calldata composite measured).1
    | memory => exact size ▸ (Shape.memberOffset_memory composite measured).1
    | packed => exact absurd rfl unpacked
  split
  · exact .pure _
  · refine owned_binds useNames fun names owner owned => .inr ⟨.offset, _, ?_, .offset listed owned inside measured⟩
    cases regime <;> simp [Regime.suffix, Regime.mark, ConstantKind.ending, String.append_assoc]

/-- The size of the memory that a composite owns directly. -/
theorem memoryHead_binds (useNames : Bool) : (memoryHead useNames type.shape).Binds scope :=
  .measured (Shape.memorySize_measures type.shape) fun size measured =>
    ownedSize_binds useNames fun names owner owned =>
      .inr ⟨.size, owner ++ "_head", by simp [ConstantKind.ending, String.append_assoc], .memoryHead listed owned measured⟩

/-- The size of the region of encoded heads. -/
theorem callHead_binds (useNames : Bool) : (callHead useNames type.shape).Binds scope :=
  .measured (Shape.headRegion_measures type.shape) fun size measured =>
    ownedSize_binds useNames fun names owner owned =>
      .inr ⟨.size, owner ++ "_cd" ++ "_head", by simp [ConstantKind.ending, String.append_assoc],
        .callHead listed owned measured⟩

end

end Offsets

end YulAbi
