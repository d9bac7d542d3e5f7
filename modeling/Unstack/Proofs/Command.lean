import Mathlib.Data.List.DropRight
import Unstack.Command.Run
import Unstack.Proofs.Graph
import Unstack.Proofs.NormalForm

/-! # A run of the command

What a run prints and how it ends, for every command line and every surroundings.

* **Selection.**  Names to skip come from two lists.  `Selection.Skips` says which passes they
  name; the order of the names, repetitions and unknown ones do not matter
  (`exists_ofSources`).
* **Passes.**  The selected passes run in the order in which they are listed
  (`Pipeline.ordered_standard`), so the check looks at the tree that is printed
  (`Command.exists_passes`).
* **Outcome.**  A run that asks for the check has its verdict, skipped or not, and fails exactly
  if the printed tree has an offender (`Command.run_outcome`). -/

namespace Unstack

/-! ### Lists of names -/

namespace Text

theorem trimChars_eq_rdropWhile (cs : List Char) :
    trimChars cs = (cs.dropWhile isBlank).rdropWhile isBlank := rfl

theorem dropWhile_trimChars (cs : List Char) :
    (trimChars cs).dropWhile isBlank = trimChars cs := by
  rw [List.dropWhile_eq_self_iff]
  intro hpos
  -- A trimmed text begins as the text without its leading blanks does.
  have hpre : trimChars cs <+: cs.dropWhile isBlank := List.rdropWhile_prefix _ _
  have hlt : 0 < (cs.dropWhile isBlank).length := lt_of_lt_of_le hpos hpre.length_le
  rw [hpre.getElem hpos]
  exact List.dropWhile_eq_self_iff.mp (List.dropWhile_idempotent _ cs) hlt

theorem trimChars_trimChars (cs : List Char) : trimChars (trimChars cs) = trimChars cs := by
  rw [trimChars_eq_rdropWhile (trimChars cs), dropWhile_trimChars, trimChars_eq_rdropWhile,
    List.rdropWhile_idempotent]

end Text

namespace Selection

theorem splitCommas_eq_splitOn (cs : List Char) : splitCommas cs = cs.splitOn ',' := by
  induction cs with
  | nil => rfl
  | cons c cs ih =>
      rw [List.splitOn, List.splitOnP_cons_eq_if_modifyHead, ← List.splitOn, ← ih, splitCommas]
      by_cases hc : c = ','
      · simp [hc]
      · cases hs : splitCommas cs with
        | nil => exact absurd (ih.symm.trans hs) (List.splitOnP_ne_nil _ _)
        | cons piece pieces => simp [hc]

/-- The lists name the pass: one of `names` does, or one of the entries between the commas of
`environment` that are not blank. -/
def Skips (environment : Option String) (names : List String) (pass : String) : Prop :=
  (∃ name ∈ names, Text.lower (Text.trim name) = pass) ∨
    ∃ list, environment = some list ∧ ∃ entry ∈ list.toList.splitOn ',',
      Text.trimChars entry ≠ [] ∧ Text.lower (Text.trim (String.ofList entry)) = pass

theorem exists_splitNames_iff (list pass : String) :
    (∃ name ∈ splitNames list, Text.lower (Text.trim name) = pass) ↔
      ∃ entry ∈ list.toList.splitOn ',',
        Text.trimChars entry ≠ [] ∧ Text.lower (Text.trim (String.ofList entry)) = pass := by
  simp only [splitNames, splitCommas_eq_splitOn, List.mem_map, List.mem_filter,
    Bool.not_eq_true', List.isEmpty_eq_false_iff, Text.trim, String.toList_ofList]
  constructor
  · rintro ⟨_, ⟨_, ⟨⟨entry, he, rfl⟩, hne⟩, rfl⟩, hpass⟩
    rw [String.toList_ofList, Text.trimChars_trimChars] at hpass
    exact ⟨entry, he, hne, hpass⟩
  · rintro ⟨entry, he, hne, hpass⟩
    refine ⟨_, ⟨_, ⟨⟨entry, he, rfl⟩, hne⟩, rfl⟩, ?_⟩
    rw [String.toList_ofList, Text.trimChars_trimChars]
    exact hpass

theorem exists_sources_iff (environment : Option String) (names : List String) (pass : String) :
    (∃ name ∈ (environment.map splitNames).getD [] ++ names, Text.lower (Text.trim name) = pass) ↔
      Skips environment names pass := by
  cases environment with
  | none => simp [Skips]
  | some list =>
      simp only [Option.map_some, Option.getD_some, List.mem_append, or_and_right, exists_or,
        exists_splitNames_iff, Skips, Option.some.injEq, exists_eq_left']
      exact or_comm

end Selection

/-! ### Reports -/

/-- The pass of the given name is reported to run. -/
def Traced.Runs {α : Type} (x : Traced α) (pass : String) : Prop :=
  Event.runningTransform pass ∈ x.events

namespace Traced

variable {α β : Type} {x : Traced α} {f : α → Traced β} {a : α} {pass : String}

theorem runs_bind (h : x.result = .ok a) :
    (x >>= f).Runs pass ↔ x.Runs pass ∨ (f a).Runs pass := by
  have hevents : (x >>= f).events = x.events ++ (f a).events := by
    show (andThen x f).events = _
    simp only [andThen, h]
  simp only [Runs, hevents, List.mem_append]

theorem runs_bind_of_runs (h : x.Runs pass) : (x >>= f).Runs pass := by
  show _ ∈ (andThen x f).events
  unfold andThen
  split
  · exact List.mem_append_left _ h
  · exact h

theorem runs_bind_iff_of_not_runs (h : ∀ a, ¬(f a).Runs pass) :
    (x >>= f).Runs pass ↔ x.Runs pass := by
  refine ⟨fun hx => ?_, runs_bind_of_runs⟩
  cases hr : x.result with
  | ok a => exact ((runs_bind hr).mp hx).resolve_right (h a)
  | error e =>
      have hevents : (x >>= f).events = x.events := by
        show (andThen x f).events = _
        simp only [andThen, hr]
      rwa [Runs, hevents] at hx

@[simp] theorem not_runs_pure : ¬(pure a : Traced α).Runs pass := List.not_mem_nil

@[simp] theorem runs_emit {e : Event} : (emit e).Runs pass ↔ e = .runningTransform pass :=
  List.mem_singleton.trans eq_comm

end Traced

/-! ### The selection -/

namespace Selection

theorem exists_skip (pass : String) (s : Selection) (name : String) :
    ∃ s', (s.skip name).result = .ok s' ∧ ¬(s.skip name).Runs pass ∧
      (s'.normalize = true ↔
        s.normalize = true ∧ Text.lower (Text.trim name) ≠ normalizeName) := by
  unfold skip
  by_cases hn : Text.lower (Text.trim name) = normalizeName
  · exact ⟨{ s with normalize := false }, by simp [hn]⟩
  by_cases hc : Text.lower (Text.trim name) = checkName
  · refine ⟨{ s with check := false }, ?_⟩
    simp only [if_neg hn, if_pos hc]
    simp [hn]
  · refine ⟨s, ?_⟩
    simp only [if_neg hn, if_neg hc]
    refine ⟨rfl, ?_, by simp [hn]⟩
    rw [Traced.runs_bind rfl]
    simp

theorem exists_skipAll (pass : String) (s : Selection) (names : List String) :
    ∃ s', (s.skipAll names).result = .ok s' ∧ ¬(s.skipAll names).Runs pass ∧
      (s'.normalize = true ↔ s.normalize = true ∧
        ¬∃ name ∈ names, Text.lower (Text.trim name) = normalizeName) := by
  induction names generalizing s with
  | nil => exact ⟨s, rfl, Traced.not_runs_pure, by simp⟩
  | cons name names ih =>
      obtain ⟨s₁, hr₁, hq₁, h₁⟩ := exists_skip pass s name
      obtain ⟨s₂, hr₂, hq₂, h₂⟩ := ih s₁
      have hcons : s.skipAll (name :: names) = s.skip name >>= fun s => s.skipAll names :=
        List.foldlM_cons
      rw [hcons]
      refine ⟨s₂, ?_, ?_, ?_⟩
      · rw [Traced.result_bind, hr₁]
        exact hr₂
      · rw [Traced.runs_bind hr₁]
        exact not_or.mpr ⟨hq₁, hq₂⟩
      · rw [h₂, h₁]
        simp only [List.mem_cons, exists_eq_or_imp, not_or, and_assoc, ne_eq]

theorem exists_ofSources (pass : String) (environment : Option String) (names : List String) :
    ∃ s, (ofSources environment names).result = .ok s ∧
      ¬(ofSources environment names).Runs pass ∧
      (s.normalize = true ↔ ¬Skips environment names normalizeName) := by
  obtain ⟨s, hr, hq, h⟩ :=
    exists_skipAll pass all ((environment.map splitNames).getD [] ++ names)
  refine ⟨s, hr, hq, ?_⟩
  rw [h, exists_sources_iff]
  simp [all]

theorem result_requireCheck (s : Selection) :
    s.requireCheck.result = .ok { s with check := true } := by
  unfold requireCheck
  split
  case isTrue h => simp [← h]
  case isFalse h => rfl

theorem not_runs_requireCheck (pass : String) (s : Selection) : ¬s.requireCheck.Runs pass := by
  unfold requireCheck
  split
  · simp
  · rw [Traced.runs_bind rfl]
    simp

end Selection

/-! ### The passes -/

namespace Graph

variable {β : Type} {g : Graph β}

theorem exists_perm_sort (hrange : g.InRange) (hrising : g.Rising id) :
    ∃ order, g.sort = .ok order ∧ order.Perm (List.range g.size) ∧
      ∀ e ∈ g.edges, [e.1, e.2].Sublist order := by
  obtain ⟨order, hsort, hnd, hall, hedges⟩ := exists_sort hrange hrising
  refine ⟨order, hsort, (List.perm_ext_iff_of_nodup hnd List.nodup_range).mpr fun i => ?_, hedges⟩
  rw [hall, List.mem_range]

theorem sort_single (x : β) : sort ⟨[x], []⟩ = .ok [0] := by
  have hnone : ∀ e ∈ (⟨[x], []⟩ : Graph β).edges, False := fun e he => by cases he
  obtain ⟨order, hsort, hperm, -⟩ :=
    exists_perm_sort (fun e he => (hnone e he).elim) fun e he => (hnone e he).elim
  have horder : order = [0] := List.perm_singleton.mp hperm
  rw [hsort, horder]

theorem sort_pair (x y : β) : sort ⟨[x, y], [(0, 1)]⟩ = .ok [0, 1] := by
  have hrange : InRange (⟨[x, y], [(0, 1)]⟩ : Graph β) := by
    intro e he
    rw [List.mem_singleton.mp he]
    exact ⟨Nat.two_pos, Nat.one_lt_two⟩
  have hrising : Rising (⟨[x, y], [(0, 1)]⟩ : Graph β) id := by
    intro e he
    rw [List.mem_singleton.mp he]
    exact Nat.zero_lt_one
  obtain ⟨order, hsort, hperm, hforward⟩ := exists_perm_sort hrange hrising
  have hsub : [0, 1].Sublist order := hforward (0, 1) List.mem_cons_self
  rw [hsort, ← hsub.eq_of_length hperm.length_eq.symm]

end Graph

namespace Pipeline

/-- The standard passes run in the order in which they are listed. -/
theorem ordered_standard (s : Selection) : (standard s >>= ordered)
    = .ok ((if s.normalize then [normalizeTransform] else [])
        ++ (if s.check then [checkTransform s.normalize] else [])) := by
  obtain ⟨normalize, check⟩ := s
  cases normalize <;> cases check
  case false.false => rfl
  case false.true =>
      show ordered ⟨⟨[checkTransform false], []⟩, _⟩ = _
      rw [ordered, Graph.sort_single]
      rfl
  case true.false =>
      show ordered ⟨⟨[normalizeTransform], []⟩, _⟩ = _
      rw [ordered, Graph.sort_single]
      rfl
  case true.true =>
      show ordered ⟨⟨[normalizeTransform, checkTransform true], [(0, 1)]⟩, _⟩ = _
      rw [ordered, Graph.sort_pair]
      rfl

/-- One transform's turn in the run of a pipeline. -/
def turn (w : Arena × Findings) (t : Transform Stage) : Traced (Arena × Findings) := do
  Traced.emit (.runningTransform t.id)
  t.action.run w

theorem result_turn (w : Arena × Findings) (t : Transform Stage) :
    (turn w t).result = (t.action.run w).result := rfl

theorem runs_turn {w : Arena × Findings} {t : Transform Stage} {pass : String} :
    (turn w t).Runs pass ↔ t.id = pass ∨ (t.action.run w).Runs pass := by
  rw [turn, Traced.runs_bind rfl, Traced.runs_emit, Event.runningTransform.injEq]

/-- The check keeps what is wrong with the tree that it is given. -/
theorem result_foldlM_turn_check (normalize check : Bool) (a : Arena) :
    ((if check then [checkTransform normalize] else []).foldlM turn (a, ⟨[], []⟩)).result
      = .ok (a, ⟨if check then a.offenders else [], []⟩) := by
  cases check <;> rfl

theorem not_runs_foldlM_turn_check (normalize check : Bool) (a : Arena) :
    ¬((if check then [checkTransform normalize] else []).foldlM turn (a, ⟨[], []⟩)).Runs
      normalizeName := by
  cases check with
  | false => exact Traced.not_runs_pure
  | true =>
      have hname : checkName ≠ normalizeName := by decide
      have hevents : Event.runningTransform normalizeName ∉ Arena.checkEvents a.offenders := by
        unfold Arena.checkEvents
        split <;> simp
      have hobserve :
          ¬((checkTransform normalize).action.run (a, ⟨[], []⟩)).Runs normalizeName := by
        show _ ∉ Arena.checkEvents a.offenders ++ [] ++ []
        simpa using hevents
      simp only [if_true, List.foldlM_cons, List.foldlM_nil, bind_pure, runs_turn]
      exact not_or.mpr ⟨hname, hobserve⟩

end Pipeline

namespace Command

variable {args : Arguments} {w : World} {s : Selection} {a : Arena}

theorem exists_selection (pass : String) (args : Arguments) (w : World) :
    ∃ s, (selection args w).result = .ok s ∧ ¬(selection args w).Runs pass ∧
      (s.normalize = true ↔ ¬Selection.Skips w.skipList args.skipPasses normalizeName) ∧
      (args.check = true → s.check = true) := by
  obtain ⟨s, hr, hq, hs⟩ := Selection.exists_ofSources pass w.skipList args.skipPasses
  unfold selection
  by_cases hcheck : args.check = true
  · refine ⟨{ s with check := true }, ?_, ?_, hs, fun _ => rfl⟩
    · simp only [Traced.result_bind, hr, if_pos hcheck]
      exact s.result_requireCheck
    · rw [Traced.runs_bind hr, if_pos hcheck]
      exact not_or.mpr ⟨hq, s.not_runs_requireCheck pass⟩
  · refine ⟨s, ?_, ?_, hs, fun h => absurd h hcheck⟩
    · simp only [Traced.result_bind, hr, if_neg hcheck]
      rfl
    · rw [Traced.runs_bind hr, if_neg hcheck]
      exact not_or.mpr ⟨hq, Traced.not_runs_pure⟩

theorem passes_eq (s : Selection) (a : Arena) : passes s a
    = .ok (((if s.normalize then [Pipeline.normalizeTransform] else [])
        ++ (if s.check then [Pipeline.checkTransform s.normalize] else [])).foldlM
          Pipeline.turn (a, ⟨[], []⟩)) := by
  have h := Pipeline.ordered_standard s
  unfold passes
  cases hp : Pipeline.standard s with
  | error e =>
      rw [hp] at h
      cases h
  | ok p =>
      rw [hp] at h
      have hordered : p.ordered = _ := h
      show (p.apply a ⟨[], []⟩).mapError Failure.badOrder = _
      rw [Pipeline.apply, hordered]
      rfl

/-- The tree that the passes leave. -/
def processed (s : Selection) (a : Arena) : Except Fault Arena :=
  if s.normalize then a.normalize.result else .ok a

/-- The passes end with the normalised tree if that pass is selected, with the tree as it was if
not, and with what is wrong with it if the check is selected. -/
theorem exists_passes (s : Selection) (a : Arena) : ∃ r, passes s a = .ok r ∧
    (r.Runs normalizeName ↔ s.normalize = true) ∧
      r.result = (processed s a >>= fun b =>
        .ok (b, ⟨if s.check then b.offenders else [], []⟩)) := by
  refine ⟨_, passes_eq s a, ?_⟩
  rw [List.foldlM_append, processed]
  cases s.normalize with
  | true =>
      simp only [if_true, List.foldlM_cons, List.foldlM_nil, bind_pure]
      refine ⟨iff_of_true (Traced.runs_bind_of_runs (Pipeline.runs_turn.mpr (.inl rfl))) trivial,
        ?_⟩
      have hturn : (Pipeline.turn (a, ⟨[], []⟩) Pipeline.normalizeTransform).result
          = a.normalize.result >>= fun b => .ok (b, ⟨[], []⟩) := by
        rw [Pipeline.result_turn]
        exact Traced.result_bind _ _
      rw [Traced.result_bind, hturn]
      cases a.normalize.result with
      | error e => rfl
      | ok b => exact Pipeline.result_foldlM_turn_check _ _ b
  | false =>
      simp only [Bool.false_eq_true, if_false, List.foldlM_nil, pure_bind]
      exact ⟨iff_of_false (Pipeline.not_runs_foldlM_turn_check _ _ _) id,
        Pipeline.result_foldlM_turn_check _ _ a⟩

/-! ### The verdict -/

/-- The text of a tree as the arguments ask for it. -/
def printed (args : Arguments) (t : Tree) : String :=
  (if args.json then Printer.jsonPretty t else Printer.pretty t) ++ "\n"

theorem result_judge (args : Arguments) (s : Selection) (a : Arena) (f : Findings) :
    (judge args s a f).result = (a.tree >>= fun t =>
      .ok ⟨printed args t, !(s.check && !f.offenders.isEmpty && args.check)⟩) := by
  unfold judge
  rw [Traced.result_bind, Traced.result_liftM]
  congr 1
  funext t
  cases hs : s.check <;> cases hf : f.offenders.isEmpty <;> cases hargs : args.check <;> rfl

theorem not_runs_judge (args : Arguments) (s : Selection) (a : Arena) (f : Findings)
    {pass : String} : ¬(judge args s a f).Runs pass := by
  unfold judge
  rw [Traced.runs_bind_iff_of_not_runs]
  · exact List.not_mem_nil
  · intro t
    dsimp only
    split
    · rw [Traced.runs_bind rfl]
      simp
    · simp

/-- The lists of names to skip name the normalising pass. -/
def SkipsNormalize (args : Arguments) (w : World) : Prop :=
  Selection.Skips w.skipList args.skipPasses normalizeName

theorem runs_process (args : Arguments) (w : World) (a : Arena) :
    (process args w a).Runs normalizeName ↔ ¬SkipsNormalize args w := by
  obtain ⟨s, hs, hquiet, hnormalize, -⟩ := exists_selection normalizeName args w
  obtain ⟨r, hr, hruns, -⟩ := exists_passes s a
  unfold process
  rw [Traced.runs_bind rfl, Traced.runs_bind hs]
  simp only [hr, Traced.runs_emit, reduceCtorEq, false_or, hquiet]
  rw [Traced.runs_bind_iff_of_not_runs, hruns, hnormalize, SkipsNormalize]
  rintro ⟨b, f⟩
  rw [Traced.runs_bind_iff_of_not_runs fun _ => Traced.not_runs_pure]
  exact not_runs_judge args s b f

/-- What the passes and the verdict make of a tree. -/
theorem exists_result_process (args : Arguments) (w : World) (a : Arena) :
    ∃ s : Selection, (s.normalize = true ↔ ¬SkipsNormalize args w) ∧
      (process args w a).result = (processed s a >>= fun b => b.tree >>= fun t =>
        .ok (.ok ⟨printed args t, !(args.check && !b.offenders.isEmpty)⟩)) := by
  obtain ⟨s, hs, -, hnormalize, hcheck⟩ := exists_selection normalizeName args w
  obtain ⟨r, hr, -, hresult⟩ := exists_passes s a
  refine ⟨s, hnormalize, ?_⟩
  have hprocess : (process args w a).result
      = (r >>= fun x => judge args s x.1 x.2 >>= fun v => pure (.ok v)).result := by
    unfold process
    simp only [Traced.result_bind, Traced.result_emit, hs, Unstack.Outcome.ok_bind, hr]
  rw [hprocess, Traced.result_bind, hresult]
  cases processed s a with
  | error e => rfl
  | ok b =>
      show (judge args s b ⟨if s.check then b.offenders else [], []⟩ >>= fun v =>
        pure (Except.ok v)).result = (b.tree >>= fun t =>
          .ok (.ok ⟨printed args t, !(args.check && !b.offenders.isEmpty)⟩))
      rw [Traced.result_bind, result_judge]
      -- A check that is asked for has been selected.
      have hverdict : (s.check && !(if s.check then b.offenders else []).isEmpty && args.check)
          = (args.check && !b.offenders.isEmpty) := by
        cases hargs : args.check with
        | false => simp
        | true => simp [hcheck hargs]
      simp only [hverdict]
      cases b.tree <;> rfl

/-- The bytes a run reads: those of the file it is given, or else of its standard input. -/
def inputBytes (args : Arguments) (w : World) : Option ByteArray :=
  match args.input with
  | some path => w.files path
  | none => some w.stdin

theorem readInput_eq_ok {src : String} (hsrc : inputBytes args w = some src.toUTF8)
    (hread : Arena.read src = .ok a) : readInput args w = .ok a := by
  have hdecode : String.fromUTF8? src.toUTF8 = some src := by
    simp only [String.fromUTF8?, String.toUTF8_eq_toByteArray, dif_pos src.isValidUTF8]
    rfl
  have hfile : Arena.readBytes (some src.toUTF8) = .ok a := by
    simp only [Arena.readBytes, hdecode, hread]
  unfold inputBytes at hsrc
  unfold readInput
  cases hinput : args.input with
  | some path =>
      simp only [hinput] at hsrc
      simp only [hsrc, hfile]
      rfl
  | none =>
      simp only [hinput] at hsrc
      simp only [hsrc, hfile]
      rfl

/-- A run whose logs can be set up is a run with its logs set up. -/
theorem exists_run_eq {line : List String} (hline : Arguments.parse line = .run args)
    (hlog : args.logFile = true → w.logDirectory ≠ .blocked) :
    ∃ kept, run line w = runLogged args w kept := by
  unfold run
  rw [hline]
  dsimp only
  by_cases hfile : args.logFile = true
  · have hopen : ∃ kept, w.logDirectory.openSession = some kept := by
      cases hdir : w.logDirectory with
      | absent => exact ⟨_, rfl⟩
      | blocked => exact absurd hdir (hlog hfile)
      | present entries => exact ⟨_, rfl⟩
    obtain ⟨kept, hkept⟩ := hopen
    rw [if_pos hfile, hkept]
    exact ⟨some kept, rfl⟩
  · rw [if_neg hfile]
    exact ⟨_, rfl⟩

/-! ### Command lines -/

namespace Arguments

theorem shape_skipPass (name : String) :
    shape ("--skip-pass=" ++ name) = .long "skip-pass" (some name) := by
  have hchars : ("--skip-pass=" ++ name).toList
      = '-' :: '-' :: 's' :: 'k' :: 'i' :: 'p' :: '-' :: 'p' :: 'a' :: 's' :: 's' :: '=' ::
        name.toList := by
    rw [String.toList_append]
    rfl
  simp [shape, hchars]

theorem parseFrom_skipPass (args : Arguments) (names : List String) :
    args.parseFrom (names.map ("--skip-pass=" ++ ·))
      = .run { args with skipPasses := args.skipPasses ++ names } := by
  induction names generalizing args with
  | nil => simp [parseFrom]
  | cons name names ih =>
      have hname : Flag.ofName? "skip-pass" = some (.setting .skipPass) := by decide
      simp only [List.map_cons, parseFrom, shape_skipPass, hname, assign, ih]
      simp

/-- Every choice of printing, of checking and of names to skip can be asked for. -/
theorem exists_parse (json check : Bool) (names : List String) :
    ∃ line, parse line = .run { initial with json, check, skipPasses := names } := by
  have hskip (args : Arguments) := parseFrom_skipPass args names
  cases json <;> cases check
  · exact ⟨names.map ("--skip-pass=" ++ ·), hskip _⟩
  · exact ⟨"--check" :: names.map ("--skip-pass=" ++ ·), hskip _⟩
  · exact ⟨"--json" :: names.map ("--skip-pass=" ++ ·), hskip _⟩
  · exact ⟨"--json" :: "--check" :: names.map ("--skip-pass=" ++ ·), hskip _⟩

end Arguments

/-! ### The outcome -/

/-- The passes leave a well-formed tree unless the normalising pass breaks off. -/
theorem exists_processed (s : Selection) (h : a.WellFormed)
    (hpass : s.normalize = true → ∃ b, a.normalize.result = .ok b) :
    ∃ b t, processed s a = .ok b ∧ b.tree = .ok t := by
  by_cases hs : s.normalize = true
  · obtain ⟨b, hb⟩ := hpass hs
    obtain ⟨hwf, t, ht, -⟩ := Arena.exists_canonical_of_normalize h hb
    refine ⟨b, t, ?_, (Arena.tree_eq_ok_iff hwf).mpr ht⟩
    rw [processed, if_pos hs, hb]
  · obtain ⟨t, ht, -⟩ := Arena.exists_shows h h.root_lt
    refine ⟨a, t, ?_, (Arena.tree_eq_ok_iff h).mpr ht⟩
    rw [processed, if_neg hs]

/-- Only the normalising pass can break a run off. -/
theorem fault_run_eq_none {line : List String} {src : String}
    (hline : Arguments.parse line = .run args)
    (hlog : args.logFile = true → w.logDirectory ≠ .blocked)
    (hsrc : inputBytes args w = some src.toUTF8) (hread : Arena.read src = .ok a)
    (hpass : ¬SkipsNormalize args w → ∃ b, a.normalize.result = .ok b) :
    (run line w).fault = none := by
  obtain ⟨kept, hrun⟩ := exists_run_eq hline hlog
  obtain ⟨s, hs, hprocess⟩ := exists_result_process args w a
  obtain ⟨b, t, hb, ht⟩ :=
    exists_processed s (Arena.wellFormed_read hread) fun h => hpass (hs.mp h)
  have hresult : (process args w a).result
      = .ok (.ok ⟨printed args t, !(args.check && !b.offenders.isEmpty)⟩) := by
    rw [hprocess, hb]
    simp only [Unstack.Outcome.ok_bind, ht]
  simp only [hrun, runLogged, readInput_eq_ok hsrc hread, hresult]
  rfl

theorem code_eq_one_iff {check : Bool} {found : List Offender} :
    (if !(check && !found.isEmpty) then 0 else 1 : UInt32) = 1 ↔ check = true ∧ found ≠ [] := by
  cases check <;> cases found <;> simp

theorem code_ne_zero_iff {check : Bool} {found : List Offender} :
    (if !(check && !found.isEmpty) then 0 else 1 : UInt32) ≠ 0 ↔ check = true ∧ found ≠ [] := by
  cases check <;> cases found <;> simp

/-- For every choice of options there is a command line.  A run that reads a tree and meets no
fault then applies the normalising pass exactly if no list of names to skip has it, prints the
tree that the passes leave, and fails exactly if it is asked to check and that tree has an
offender.  So it fails only if the normalising pass is skipped. -/
theorem run_outcome :
    (∀ json check names, ∃ line,
      Arguments.parse line = .run { Arguments.initial with json, check, skipPasses := names }) ∧
    ∀ (line : List String) (args : Arguments) (w : World) (src : String) (a : Arena),
      Arguments.parse line = .run args → (args.logFile = true → w.logDirectory ≠ .blocked) →
      inputBytes args w = some src.toUTF8 → Arena.read src = .ok a →
      (run line w).fault = none →
        ((process args w a).Runs normalizeName ↔ ¬SkipsNormalize args w) ∧
        ∃ b t, (SkipsNormalize args w → b = a) ∧
          (¬SkipsNormalize args w → a.normalize.result = .ok b) ∧
          b.tree = .ok t ∧ (run line w).stdout = printed args t ∧
          ((run line w).code = 1 ↔ args.check = true ∧ b.offenders ≠ []) ∧
          ((run line w).code ≠ 0 → (run line w).code = 1 ∧ SkipsNormalize args w) := by
  refine ⟨Arguments.exists_parse, fun line args w src a hline hlog hsrc hread hfault => ?_⟩
  refine ⟨runs_process args w a, ?_⟩
  obtain ⟨kept, hrun⟩ := exists_run_eq hline hlog
  obtain ⟨s, hs, hprocess⟩ := exists_result_process args w a
  rw [hrun, runLogged, readInput_eq_ok hsrc hread] at hfault ⊢
  dsimp only at hfault ⊢
  cases hr : (process args w a).result with
  | error e =>
      rw [hr] at hfault
      cases hfault
  | ok r =>
      rw [hprocess] at hr
      obtain ⟨b, hb, hr⟩ := Unstack.Outcome.exists_of_bind_eq_ok hr
      obtain ⟨t, ht, hr⟩ := Unstack.Outcome.exists_of_bind_eq_ok hr
      cases hr
      have hskipped : SkipsNormalize args w → b = a := fun hskip => by
        rw [processed, if_neg fun h => hs.mp h hskip] at hb
        exact (Except.ok.inj hb).symm
      have happlied : ¬SkipsNormalize args w → a.normalize.result = .ok b := fun hskip => by
        rwa [processed, if_pos (hs.mpr hskip)] at hb
      refine ⟨b, t, hskipped, happlied, ht, rfl, code_eq_one_iff, fun hne => ?_⟩
      have hfound := code_ne_zero_iff.mp hne
      refine ⟨code_eq_one_iff.mpr hfound, not_not.mp fun hskip => hfound.2 ?_⟩
      obtain ⟨hwf, u, hu, hcanonical⟩ :=
        Arena.exists_canonical_of_normalize (Arena.wellFormed_read hread) (happlied hskip)
      exact Arena.offenders_eq_nil hwf hu hcanonical

/-- A check that is asked for and skipped at once is made: the run fails on the `pop` that the
other skipped pass leaves.  Without that skip the pass takes a `pop` and a coercion out, and the
run prints what is left and succeeds. -/
theorem run_outcome_skipped_check :
    let line := ["--skip-pass", " AST-normalize", "--check"]
    let w : World := ⟨"(pop 1)".toUTF8, fun _ => none, some "?, Canonical-Check,", none, .absent⟩
    let line' := ["--json", "--check"]
    let src := "(and (coerce_b \"a b\") (pop 1))"
    let w' : World := ⟨src.toUTF8, fun _ => none, some "?, Canonical-Check,", none, .absent⟩
    let text := "\x7b\n  \"kind\": \"and\",\n  \"children\": [\n    \"a b\",\n    1,\n" ++
      "    \x7b\n      \"kind\": \"nop\",\n      \"children\": []\n    \x7d\n  ]\n\x7d\n"
    ((run line w).fault = none ∧ (run line w).stdout = "(pop 1)\n" ∧ (run line w).code = 1) ∧
      (run line' w').fault = none ∧ (run line' w').stdout = text ∧ (run line' w').code = 0 := by
  intro line w line' src w' text
  refine ⟨?_, ?_⟩
  · let args : Arguments := ⟨none, false, [" AST-normalize"], none, false, false, true⟩
    let a := Arena.ofTree (.plain .pop [.leaf (.int 1)])
    have hline : Arguments.parse line = .run args := by decide
    have hlog : args.logFile = true → w.logDirectory ≠ .blocked := by decide
    have hread : Arena.read "(pop 1)" = .ok a := by decide +kernel
    have hskip : SkipsNormalize args w :=
      .inl ⟨" AST-normalize", List.mem_singleton.mpr rfl, by decide +kernel⟩
    have hfault := fault_run_eq_none hline hlog rfl hread fun hnot => absurd hskip hnot
    obtain ⟨-, b, t, hskipped, -, ht, hout, hcode, -⟩ :=
      run_outcome.2 line args w "(pop 1)" a hline hlog rfl hread hfault
    obtain rfl := hskipped hskip
    have htree : a.tree = .ok (.plain .pop [.leaf (.int 1)]) := Arena.tree_ofTree _ _ _
    obtain rfl := Except.ok.inj (htree.symm.trans ht)
    exact ⟨hfault, hout.trans (by decide +kernel), hcode.mpr ⟨rfl, by decide +kernel⟩⟩
  · let args : Arguments := ⟨none, true, [], none, false, false, true⟩
    let a := Arena.ofTree
      (.plain .and [.plain .coerceB [.text "a b"], .plain .pop [.leaf (.int 1)]])
    have hline : Arguments.parse line' = .run args := by decide
    have hlog : args.logFile = true → w'.logDirectory ≠ .blocked := by decide
    have hread : Arena.read src = .ok a := by decide +kernel
    have hnot : ¬SkipsNormalize args w' := by
      rintro (⟨name, hname, -⟩ | ⟨list, hlist, entry, hentry, -, hpass⟩)
      · cases hname
      · cases hlist
        have hnone : ∀ entry ∈ "?, Canonical-Check,".toList.splitOn ',',
            Text.lower (Text.trim (String.ofList entry)) ≠ normalizeName := by
          decide +kernel
        exact hnone entry hentry hpass
    have htext : (a.normalize.result >>= fun b => b.tree >>= fun t => .ok (printed args t))
        = .ok text := by
      decide +kernel
    obtain ⟨b, hb, htext⟩ := Unstack.Outcome.exists_of_bind_eq_ok htext
    have hfault := fault_run_eq_none hline hlog rfl hread fun _ => ⟨b, hb⟩
    obtain ⟨-, b', t, -, happlied, ht, hout, -, hcode⟩ :=
      run_outcome.2 line' args w' src a hline hlog rfl hread hfault
    cases hb.symm.trans (happlied hnot)
    rw [ht] at htext
    exact ⟨hfault, hout.trans (Except.ok.inj htext), not_not.mp fun hne => hnot (hcode hne).2⟩

end Command

end Unstack
