import YulAbi.Codec.ParameterList
import YulAbi.Proofs.Codec.EncodeStep
import YulAbi.Proofs.Codec.Encoder
import YulAbi.Proofs.Codec.ParameterList.Words

/-!
# Generated routines of parameter lists

The decoder of a list assigns one word after the other, its encoder writes one part after the
other. Like the decoders and encoders of types they act as their steps do, whatever the names
of constants are. The encoder of an error calls that of its parameters.
-/

namespace YulAbi.Codec

open Yul (Expr Stmt Block Routine Frame Scope)

/-- Whether a routine decodes parameters to one word each. -/
def DecodesList (unit : CodeUnit) (cap : Nat) (parameters : List Shape) (name : String) : Prop :=
  ∀ source, unit.CallActs name [source] (decodeWords cap source 0 parameters)

/-- Whether a routine encodes parameters given as words. -/
def EncodesList (unit : CodeUnit) (cap : Nat) (parameters : List Shape) (name : String) : Prop :=
  ∀ words target, words.length = parameters.length → unit.CallActs name (words ++ [target]) (do
    let size ← encodeList cap parameters words target
    return [size])

/-- Whether a routine encodes an error with a selector. -/
def EncodesSelected (unit : CodeUnit) (cap : Nat) (selector : Word) (parameters : List Shape) (name : String) :
    Prop :=
  ∀ words target, words.length = parameters.length → unit.CallActs name (words ++ [target]) (do
    let size ← encodeSelected cap selector parameters words target
    return [size])

section

variable {promise : Promise} {pending : List RequestKey} {settings : Settings} {unit : CodeUnit}
  {type : SolType} {members : List Shape} {cap : Nat}

/-- A block that answers with something made of what a step answers with. -/
theorem runs_map {σ τ : Type} {frame : Frame} {stmts : Block} {effect : MachineStep σ} {make : σ → τ}
    {after : τ → Frame} (runs : Block.Runs unit frame stmts effect fun state => after (make state)) :
    Block.Runs unit frame stmts (effect >>= fun state => pure (make state)) after := by
  unfold Block.Runs at runs ⊢
  rwa [bind_assoc, show (fun state => pure (make state) >>= fun made => pure (Yul.Flow.normal, after made)) =
    fun state => (pure (Yul.Flow.normal, after (make state)) : MachineStep _) from funext fun _ => pure_bind _ _]

/-- Parameters, the first of which stand behind others, are decoded and assigned in order. -/
theorem decodeParameters_gives (composite : type.shape.IsComposite members)
    (parts : List (Shape × Emission Handling)) (before : List Shape) (all : members = before ++ parts.map Prod.fst)
    (handled : ∀ part ∈ parts, Emission.Gives promise pending part.2 fun unit handling =>
      handling.Decodes unit cap part.1) :
    Emission.Gives promise pending (decodeParameters settings type before.length parts)
      fun unit stmts => ∀ name (scope : Scope) source, scope.find? "cdPtr" = some source →
        (∀ index, before.length ≤ index → index < members.length → (scope.find? s!"v{index}").isSome) →
        Block.Runs unit ⟨name, [[], scope]⟩ stmts
          (decodeWords cap source (Shape.headBytesSum before) (parts.map Prod.fst))
          fun words => ⟨name, [wordScope scope before.length words]⟩ := by
  induction parts generalizing before with
  | nil => exact .pure fun unit name scope source located declared => Block.Runs.nil [] rfl
  | cons part rest ih =>
    obtain ⟨parameter, decodeParameter⟩ := part
    have offset : Shape.headBytesSum (members.take before.length) = Shape.headBytesSum before := by
      rw [all, List.take_left']
      rfl
    have inside : before.length < members.length := by
      rw [all, List.length_append, List.length_map, List.length_cons]
      omega
    have next := ih (before ++ [parameter]) (by simpa using all)
      fun part listed => handled part (List.mem_cons_of_mem _ listed)
    simp only [List.length_append, List.length_singleton, Shape.headBytesSum_append] at next
    unfold decodeParameters
    refine (partSource_gives composite before.length parameter _).andThen fun address => ?_
    refine (handled (parameter, decodeParameter) List.mem_cons_self).andThen fun handling => ?_
    refine next.andThen fun others => .pure ?_
    intro unit runs decodes located name scope source given declared
    have param : Expr.Acts unit ⟨name, [[], scope]⟩ (.ident "cdPtr") (pure source) :=
      .ident ((find?_body _ _ _).trans given)
    have word := decodedWord_acts decodes (located ⟨name, [[], scope]⟩ source param)
    have rest : ∀ word, Block.Runs unit ⟨name, [[], scope.declare s!"v{before.length}" word]⟩ others
        (decodeWords cap source (Shape.headBytesSum before + parameter.headBytes) (rest.map Prod.fst) >>=
          fun others => pure (word :: others))
        fun words => ⟨name, [wordScope scope before.length words]⟩ := fun word =>
      runs_map (runs name _ source
        (by rw [Scope.find?_declare_of_ne _ _ (ne_wordName (by decide) _), given])
        fun index later below => by
          rw [Scope.find?_declare_of_ne _ _ fun same => by
            have equal := wordName_injective same
            omega]
          exact declared index (by omega) below)
    have both := Block.Runs.cons (Stmt.Acts.assignTo word (assignIn_body (declared _ (Nat.le_refl _) inside))) rest
    rw [offset] at both
    simpa only [List.map_cons, decodeWords, bind_assoc] using both

/-- A routine decodes a list if its body does. -/
theorem DecodesList.of_runs {parameters : List Shape} {name : String} {body : Block}
    (found : unit.routine? name = some (.ofBody name ["cdPtr"] (wordNames parameters.length) body))
    (runs : ∀ (scope : Scope) source, scope.find? "cdPtr" = some source →
      (∀ index < parameters.length, (scope.find? s!"v{index}").isSome) →
      Block.Runs unit ⟨name, [[], scope]⟩ body (decodeWords cap source 0 parameters)
        fun words => ⟨name, [wordScope scope 0 words]⟩) : DecodesList unit cap parameters name := by
  intro source
  have entered := congrArg Frame.opened (entry_wordReturns name body source parameters.length)
  have zeros : ∀ index < parameters.length, ((wordScope [("cdPtr", source)] 0
      (List.replicate parameters.length 0#256)).find? s!"v{index}").isSome := by
    intro index below
    have declared := find?_wordScope [("cdPtr", source)] 0
      (show index < (List.replicate parameters.length 0#256).length by rw [List.length_replicate]; exact below)
    rw [Nat.zero_add] at declared
    rw [declared]
    rfl
  have located : (wordScope [("cdPtr", source)] 0 (List.replicate parameters.length 0#256)).find? "cdPtr" =
      some source :=
    find?_wordScope_of_ne fun number _ => ne_wordName (by decide) number
  generalize wordScope [("cdPtr", source)] 0 (List.replicate parameters.length 0#256) = scope
    at entered zeros located
  have ran : Block.Runs unit
      ((Routine.ofBody name ["cdPtr"] (wordNames parameters.length) body).entry [source]).opened body
      (decodeWords cap source 0 parameters) fun words => ⟨name, [wordScope scope 0 words]⟩ := by
    rw [entered]
    exact runs scope source located zeros
  have answers : ∀ words : List Word,
      (Routine.ofBody name ["cdPtr"] (wordNames parameters.length) body).returns.map
        (fun result => (⟨name, [wordScope scope 0 words]⟩ : Frame).find? result.name) =
      ((wordNames parameters.length).map fun name => ((wordScope scope 0 words).find? name).getD 0#256).map
        some := by
    intro words
    rw [Routine.ofBody, List.map_map, List.map_map]
    refine List.map_congr_left fun name listed => ?_
    obtain ⟨index, inside, rfl⟩ := List.mem_map.mp listed
    obtain ⟨word, there⟩ := Option.isSome_iff_exists.mp
      (isSome_find?_wordScope 0 words (zeros index (List.mem_range.mp inside)))
    simp only [Function.comp_apply, Yul.RoutineParameter.word, Frame.find?, List.findSome?_cons, there,
      Option.getD_some]
  have acts := CodeUnit.CallActs.of_routine found rfl ran answers
  rwa [Step.bind_congr fun _ words _ decoded => congrArg pure
    (map_getD_wordScope (length_of_decodeWords decoded)), bind_pure] at acts

/-- The decoder of a parameter list. -/
theorem parameterDecoder_gives (promised : PromisesDecoding promise settings.bridgedReferences)
    (members : List (Labelled SolType)) (name : String)
    (above : ∀ shape ∈ SolType.shapes members, PendingAbove pending shape) :
    Emission.Gives promise pending (parameterDecoder settings members name) fun unit routine =>
      routine.name = name ∧ (unit.routine? name = some routine →
        DecodesList unit settings.bridgedReferences (SolType.shapes members) name) := by
  have composite : (SolType.tuple members).shape.IsComposite (SolType.shapes members) := .inr rfl
  have all : ((SolType.shapes members).zip (decodeEach settings members)).map Prod.fst = SolType.shapes members :=
    map_fst_zip_decodeEach members
  have size : (SolType.shapes members).length = members.length := by
    rw [SolType.shapes_eq_map, List.length_map]
  refine (decodeParameters_gives composite _ [] (by simpa using all.symm)
    (decodeEach_gives promised members pending above)).andThen fun body => .pure fun unit runs => ⟨rfl, ?_⟩
  intro found
  rw [← size] at found
  rw [all] at runs
  exact DecodesList.of_runs found fun scope source located declared =>
    runs name scope source located fun index _ below => declared index below

/-- The variables of an encoder that takes words and has written a number of bytes. -/
def listFrame (name : String) (words : List Word) (target size : Word) : Frame :=
  ⟨name, [[], Scope.declare (Scope.declare (wordScope [] 0 words) "dst" target) "size" size]⟩

/-- The size that is written can be assigned to. -/
theorem writingFrames_listFrame (name : String) (words : List Word) (target : Word) :
    WritingFrames (listFrame name words target) target := by
  refine ⟨fun size => ?_, fun size => ?_, fun size next => ?_, fun _ _ => rfl⟩
  · rw [listFrame, find?_body, Scope.find?_declare_of_ne _ _ (by decide), Scope.find?_declare_self]
  · rw [listFrame, find?_body, Scope.find?_declare_self]
  · rw [listFrame, listFrame, assignIn_body (by rw [Scope.find?_declare_self]; rfl), Scope.declare_declare]

/-- The words are found under their names. -/
theorem find?_listFrame {name : String} {words : List Word} {target size : Word} {position : Nat}
    (inside : position < words.length) :
    (listFrame name words target size).find? s!"v{position}" = some words[position] := by
  have found := find?_wordScope [] 0 inside
  rw [Nat.zero_add] at found
  rw [listFrame, find?_body, Scope.find?_declare_of_ne _ _ (ne_wordName (by decide) _).symm,
    Scope.find?_declare_of_ne _ _ (ne_wordName (by decide) _).symm, found]

/-- Parameters, the first of which stand behind others, are written in order. -/
theorem writeParameters_gives (composite : type.shape.IsComposite members)
    (parts : List (Shape × Emission Handling)) (before : List Shape) (all : members = before ++ parts.map Prod.fst)
    (handled : ∀ part ∈ parts, Emission.Gives promise pending part.2 fun unit handling =>
      handling.Encodes unit cap part.1) :
    Emission.Gives promise pending (writeParameters settings type before.length parts)
      fun unit stmts => ∀ name (earlier words : List Word) target, earlier.length = before.length →
        words.length = parts.length →
        WritesOn unit (listFrame name (earlier ++ words) target) stmts fun size =>
          encodeWords cap target (Shape.headBytesSum before) size (parts.map Prod.fst) words := by
  induction parts generalizing before with
  | nil => exact .pure fun unit name earlier words target _ _ => WritesOn.nil
  | cons part rest ih =>
    obtain ⟨parameter, encodeParameter⟩ := part
    have offset : Shape.headBytesSum (members.take before.length) = Shape.headBytesSum before := by
      rw [all, List.take_left']
      rfl
    have next := ih (before ++ [parameter]) (by simpa using all)
      fun part listed => handled part (List.mem_cons_of_mem _ listed)
    simp only [List.length_append, List.length_singleton, Shape.headBytesSum_append] at next
    unfold writeParameters
    refine (writePart_gives composite before.length parameter
      (handled (parameter, encodeParameter) List.mem_cons_self)).andThen fun stmts => ?_
    refine next.andThen fun others => .pure ?_
    intro unit does writes name earlier words target passed counted
    cases words with
    | nil => cases counted
    | cons word words =>
      have found : ∀ size, Expr.Acts unit (listFrame name (earlier ++ word :: words) target size)
          (.ident s!"v{before.length}") (pure word) := by
        intro size
        have inside : before.length < (earlier ++ word :: words).length := by
          rw [List.length_append, List.length_cons]
          omega
        refine .ident ((find?_listFrame inside).trans ?_)
        simp [← passed]
      have both := (writes _ target _ (writingFrames_listFrame name _ target) found).append
        (by simpa using does name (earlier ++ [word]) words target (by simpa using passed) (by simpa using counted))
      rw [offset] at both
      simpa only [List.map_cons, encodeWords, Shape.headBytesSum, Nat.add_zero] using both

/-- A routine encodes a list if its body does. -/
theorem callActs_of_listRuns {count : Nat} {name : String} {body : Block} {words : List Word} {target : Word}
    {effect : MachineStep Word}
    (found : unit.routine? name = some (.ofBody name (wordNames count ++ ["dst"]) ["size"] body))
    (counted : words.length = count)
    (runs : Block.Runs unit (listFrame name words target 0#256) body effect
      fun size => (listFrame name words target size).closed) :
    unit.CallActs name (words ++ [target]) (effect >>= fun size => pure [size]) := by
  subst counted
  have entered := congrArg Frame.opened (entry_wordParams name body words target)
  have ran : Block.Runs unit ((Routine.ofBody name (wordNames words.length ++ ["dst"]) ["size"] body).entry
      (words ++ [target])).opened body effect fun size => (listFrame name words target size).closed := by
    rw [entered]
    exact runs
  refine CodeUnit.CallActs.of_routine found (by simp [Routine.ofBody]) ran fun size => ?_
  have own : (Scope.declare (Scope.declare (wordScope [] 0 words) "dst" target) "size" size).find? "size" = some size :=
    Scope.find?_declare_self _ _ _
  simp only [Routine.ofBody, listFrame, Frame.closed, List.map_cons, List.map_nil, Frame.find?, List.drop_one,
    List.tail_cons, List.findSome?_cons, Yul.RoutineParameter.word, own]

/-- The encoder of a parameter list. -/
theorem parameterEncoder_gives (promised : PromisesEncoding promise settings.bridgedReferences)
    (members : List (Labelled SolType)) (name : String)
    (above : ∀ shape ∈ SolType.shapes members, PendingAbove pending shape) :
    Emission.Gives promise pending (parameterEncoder settings members name) fun unit routine =>
      routine.name = name ∧ (unit.routine? name = some routine →
        EncodesList unit settings.bridgedReferences (SolType.shapes members) name) := by
  have composite : (SolType.tuple members).shape.IsComposite (SolType.shapes members) := .inr rfl
  have all : ((SolType.shapes members).zip (encodeEach settings members)).map Prod.fst = SolType.shapes members :=
    map_fst_zip_encodeEach members
  have size : (SolType.shapes members).length = members.length := by
    rw [SolType.shapes_eq_map, List.length_map]
  refine (Offsets.callHead_gives _ (SolType.tuple members).shape).andThen fun headSize => ?_
  refine (writeParameters_gives composite _ [] (by simpa using all.symm)
    (encodeEach_gives promised members pending above)).andThen fun body => .pure fun unit writes measured => ⟨rfl, ?_⟩
  intro found words target counted
  obtain ⟨bytes, measured, isSize⟩ := measured
  rw [Shape.headRegion_composite composite measured] at isSize
  rw [all] at writes
  have parts : words.length = ((SolType.shapes members).zip (encodeEach settings members)).length := by
    rw [counted, ← List.length_map Prod.fst, all]
  refine callActs_of_listRuns found (counted.trans size) ?_
  have started := (writingFrames_listFrame name words target).assignSize
    (isSize (listFrame name words target 0#256))
  have written := writes name [] words target rfl parts (Word.ofNat (Shape.headBytesSum (SolType.shapes members)))
    [] pure (fun size => (listFrame name words target size).closed) fun reached => Block.Runs.nil reached rfl
  rw [bind_pure, List.append_nil] at written
  exact Block.Runs.consValue started written

/-- The call of the encoder of a list with all words of a routine. -/
theorem listCall_acts {parameters : List Shape} {name encoder : String} {words : List Word} {address : Expr}
    {target size place : Word} (encodes : EncodesList unit cap parameters encoder)
    (counted : words.length = parameters.length)
    (placed : Expr.Acts unit (listFrame name words target size) address (pure place)) :
    Expr.Acts unit (listFrame name words target size)
      (.call encoder ((wordNames parameters.length).map Expr.ident ++ [address]))
      (encodeList cap parameters words place) := by
  have idents : List.Forall₂ (fun arg word => Expr.Acts unit (listFrame name words target size) arg (pure word))
      ((wordNames parameters.length).map Expr.ident) words := by
    refine List.forall₂_iff_get.mpr ⟨by simp [counted], fun position inside inside' => ?_⟩
    simpa [wordNames] using Expr.Acts.ident (find?_listFrame inside')
  have args : Expr.ArgsAct unit (listFrame name words target size)
      ((wordNames parameters.length).map Expr.ident ++ [address])
      ((pure () : MachineStep Unit) >>= fun _ => pure (words ++ [place])) := by
    rw [pure_bind]
    exact Expr.ArgsAct.values (List.rel_append idents (.cons placed .nil))
  have called : ∀ _ : Unit, unit.CallActs encoder (words ++ [place]) (do
      let written ← encodeList cap parameters words place
      return [written]) := fun _ => encodes words place counted
  have acts := Expr.Acts.call args called
  rwa [pure_bind] at acts

/-- The encoder of an error, which calls that of its parameters. -/
theorem errorEncoder_encodes {parameters : List Shape} {name encoder : String} {selector : Expr} {word : Word}
    (encodes : EncodesList unit cap parameters encoder) (selected : selector.IsNumber unit word)
    (found : unit.routine? name = some (errorEncoder parameters.length encoder selector name)) :
    EncodesSelected unit cap word parameters name := by
  intro words target counted
  refine callActs_of_listRuns found counted ?_
  have isTarget : ∀ size, Expr.Acts unit (listFrame name words target size) (.ident "dst") (pure target) :=
    fun size => .ident ((writingFrames_listFrame name words target).dst size)
  have behind : Expr.Acts unit (listFrame name words target 0#256) (.add (.ident "dst") (.number 4))
      (pure (target + 4#256)) := Expr.Acts.sum (isTarget _) (Expr.Acts.number 4)
  refine Block.Runs.cons (Stmt.Acts.store (isTarget _) (selected _)) fun _ => ?_
  have written := Expr.Acts.add (listCall_acts encodes counted behind) (Expr.Acts.number 4)
  rw [pure_bind] at written
  exact Block.Runs.last ((writingFrames_listFrame name words target).assignSize written) fun _ => rfl

end

end YulAbi.Codec
