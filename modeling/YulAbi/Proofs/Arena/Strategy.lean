import YulAbi.Proofs.Arena.Composites
import YulAbi.Proofs.Codec.Request

/-!
# Which arrays of an arena are copied in bulk

The strategy of an array node tells what its elements are: words, runs whose number of words
varies, runs of a fixed number of words, or anything else. The tail of an element of the
second kind has a size, and an element of the third kind takes the same room in call data
and in memory.
-/

namespace YulAbi

/-- Legal parts are plain. -/
theorem Shape.isPlain_of_isLegal {shape : Shape} (legal : shape.isLegal = true) (plain : shape.isSignature = false) :
    shape.isPlain = true := by
  have composite : ∀ members, shape.IsComposite members → Shape.areLegal members = true → shape.isPlain = true :=
    fun members composite parts => composite.isPlain_iff.mpr fun member listed =>
      (Shape.areLegal_iff.mp parts member listed).1
  cases shape with
  | array base length => simp [isPlain, (Shape.isLegal_array.mp legal).1]
  | struct name members => exact composite members (.inl ⟨name, rfl⟩) legal
  | tuple members => exact composite members (.inr rfl) legal
  | error _ _ | event _ _ _ _ => cases plain
  | _ => rfl

/-- The elements of an array; other kinds have none. -/
def Kind.base? : Kind → Option NodeId
  | .array base _ => some base
  | _ => none

namespace Arena

/-- Whether the values of a node are bytes, or words in a row whose number varies. -/
def isVaryingRun (arena : Arena) (id : NodeId) : Bool :=
  match arena.kind id with
  | .bytes | .string => true
  | .array element none => arena.isValueType element
  | _ => false

/-- Whether the values of a node are a fixed number of words in a row. -/
def isFixedRun (arena : Arena) (id : NodeId) : Bool :=
  match arena.kind id with
  | .array element (some _) => arena.isValueType element
  | .struct _ members | .tuple members => members.all arena.isValueType
  | _ => false

section

variable {arena : Arena} {id base : NodeId}

/-- Whether values are a run whose number of words varies. -/
theorem Sound.isVaryingRun_eq (sound : arena.Sound) (inside : id < arena.size) :
    arena.isVaryingRun id = (arena.shape id).isVaryingRun := by
  obtain ⟨kind, shape, own, shaped, stands⟩ := sound.stands inside
  rw [isVaryingRun, own, shaped]
  cases stands with
  | array length first =>
    cases length with
    | none => exact sound.isValueType_eq (Nat.lt_trans first inside)
    | some count => rfl
  | _ => rfl

/-- Whether values are a run of a fixed number of words. -/
theorem Sound.isFixedRun_eq (sound : arena.Sound) (inside : id < arena.size) :
    arena.isFixedRun id = (arena.shape id).isFixedRun := by
  have several : ∀ members : List NodeId, (∀ member ∈ members, member < id) →
      members.all arena.isValueType = (members.map arena.shape).all Shape.isValueType := by
    intro members first
    rw [List.all_map, Bool.eq_iff_iff, List.all_eq_true, List.all_eq_true]
    exact forall₂_congr fun member listed => by
      rw [sound.isValueType_eq (Nat.lt_trans (first member listed) inside), Function.comp_apply]
  obtain ⟨kind, shape, own, shaped, stands⟩ := sound.stands inside
  rw [isFixedRun, own, shaped]
  cases stands with
  | array length first =>
    cases length with
    | none => rfl
    | some count => exact sound.isValueType_eq (Nat.lt_trans first inside)
  | struct name first | tuple first => exact several _ first
  | _ => rfl

/-- The elements of an array node come before it and are plain, and their strategy is that of the array. -/
theorem Sound.elements_of_base (sound : arena.Sound) (inside : id < arena.size)
    (own : (arena.kind id).base? = some base) :
    base < id ∧ (arena.shape base).isPlain = true ∧
      arena.arrayStrategy id = .ok (arena.shape base).elementStrategy := by
  have legal := sound.legal id inside
  have chosen := sound.arrayStrategy_eq inside
  obtain ⟨kind, shape, same, shaped, stands⟩ := sound.stands inside
  rw [same] at own
  rw [shaped] at legal chosen
  cases stands with
  | array length first =>
    cases own
    obtain ⟨plain, element, -⟩ := Shape.isLegal_array.mp legal
    exact ⟨first, Shape.isPlain_of_isLegal element plain, chosen⟩
  | _ => cases own

/-- An array is copied as it is if its elements are words; with its tails if they are bytes, text or arrays of words that
vary in length, whose tails have a size unless a constant for it is refused; with pointers added if they are arrays of
fixed length, structs or tuples of words, which take the same room everywhere; and element by element otherwise. -/
theorem strategy_picks_runs (made : arena.Made) (inside : id < arena.size) (own : (arena.kind id).base? = some base) :
    (arena.arrayStrategy id = .ok .valueInline ↔ arena.isValueType base = true) ∧
      (arena.arrayStrategy id = .ok .combinedDynamicTail ↔ arena.isVaryingRun base = true) ∧
      (arena.arrayStrategy id = .ok .combinedStaticTail ↔ arena.isFixedRun base = true) ∧
      (arena.arrayStrategy id = .ok .separateTail ↔
        arena.isValueType base = false ∧ arena.isVaryingRun base = false ∧ arena.isFixedRun base = false) ∧
      (arena.arrayStrategy id = .ok .combinedDynamicTail → ∀ settings length before cause,
        ((Codec.elementTailSize settings (arena.shape base) length).runOn before).1 = .error cause →
        settings.namedConstants = true ∧ ∃ constant ∈ [FixedConstant.almostTwoWords, .fullWordMask], ∃ bound,
          before.unit.constant? constant.name = some bound ∧ bound ≠ constant.value ∧
            cause = .constantConflict constant.name bound constant.value) ∧
      (arena.arrayStrategy id = .ok .combinedStaticTail → arena.encodedSize base = arena.memorySize base ∧
        arena.extendedMemorySize base = arena.memorySize base) := by
  have sound := made.sound
  obtain ⟨first, plain, chosen⟩ := sound.elements_of_base inside own
  have there := Nat.lt_trans first inside
  obtain ⟨inline, dynamic, static, separate⟩ := Shape.elementStrategy_iff plain
  rw [chosen, sound.isValueType_eq there, sound.isVaryingRun_eq there, sound.isFixedRun_eq there,
    sound.encodedSize_eq there, sound.memorySize_eq there, sound.extendedMemorySize_eq there]
  simp only [Except.ok.injEq]
  exact ⟨inline, dynamic, static, separate,
    fun strategy _ _ _ _ failed => Codec.elementTailSize_fails (dynamic.mp strategy) failed,
    fun strategy => Shape.sizes_of_isFixedRun (static.mp strategy)⟩

/-- An arena with an array of pairs. -/
def pairsArena : Arena :=
  ((Addition.described (.array (.array (.uint 8) (some 2)) none)).run.runOn .empty).2

/-- Pairs take two words everywhere, and are copied in one go and linked. -/
theorem pairs_are_runs : pairsArena.arrayStrategy 2 = .ok .combinedStaticTail ∧ pairsArena.encodedSize 1 = .ok 64 ∧
    pairsArena.extendedMemorySize 1 = .ok 64 := by
  have made : pairsArena.Made := .extended _ .empty fun _ named => nomatch named
  obtain ⟨-, -, static, -, -, sizes⟩ := strategy_picks_runs made (show 2 < pairsArena.size by decide +kernel)
    (show (pairsArena.kind 2).base? = some 1 by decide +kernel)
  have strategy := static.mpr (by decide +kernel)
  have memory : pairsArena.memorySize 1 = .ok 64 := by decide +kernel
  obtain ⟨encoded, extended⟩ := sizes strategy
  exact ⟨strategy, encoded.trans memory, extended.trans memory⟩

/-- An arena with an array of texts. -/
def textsArena : Arena := ((Addition.described (.array .string none)).run.runOn .empty).2

/-- Where the name of one of its constants stands for another value, even the size of the tail of a text is refused. -/
theorem tail_size_of_text_refused : textsArena.arrayStrategy 1 = .ok .combinedDynamicTail ∧
    ((Codec.elementTailSize .standard (textsArena.shape 0) (.ident "elemLength")).runOn
      (.start ⟨[], [("AlmostTwoWords", 1#256)]⟩)).1 = .error (.constantConflict "AlmostTwoWords" 1#256 63#256) := by
  have texts : textsArena.shape 0 = .string := by decide +kernel
  refine ⟨by decide +kernel, ?_⟩
  rw [texts]
  rfl

end

end Arena

end YulAbi
