import Recheck.Proofs.Run.Independence
import Recheck.Proofs.Run.Resolution
import Recheck.Proofs.Run.Stopping

/-!
# Files that fail

A file that fails has no part in the results of others beyond the names that it would have declared:
if more files fail, the others have the same declarations and the same warnings apart from those
about these names (`failing_files_isolated`). The two runs are compared file by file
(`Isolates.attempt`). Their symbol tables differ in these names only.
-/

namespace Recheck

/-! ## What is compared -/

/-- The result without the warnings about some names. -/
def FileResult.sparing (names : List String) (r : FileResult) : FileResult :=
  { r with diagnostics := r.diagnostics.filter fun m => m.subject ∉ names }

/-- Files resolve by their content, but for some that fail in any case. -/
structure FailsOn (broken : Path → Bool) (t : FileTree)
    (resolve : FileTree → Path → SymbolTable → Except FileError FileAnalysis) : Prop where
  fails : ∀ p symbols, broken p = true → ∃ e, resolve t p symbols = .error e
  resolves : ∀ p symbols, broken p = false → resolve t p symbols = resolveFile t p symbols

namespace Analysis

/-- The names that some of the files declare. -/
def namesIn (a : Analysis) (files : Path → Bool) : List String :=
  (a.results.filter fun r => files r.path).flatMap fun r => r.declarations.map (·.name)

/-- `a'` is what a run comes to in which the files `broken` fail too, where `a` is what it comes to
if they do not. -/
structure FailsToo (a : Analysis) (broken : Path → Bool) (a' : Analysis) : Prop where
  fails : ∀ p, a'.fails p = true ↔ a.fails p = true ∨ p ∈ a.graph.files ∧ broken p = true
  /-- The others fail for the same reason. -/
  failures : a'.failures.filter (fun e => !broken e.1) = a.failures.filter fun e => !broken e.1
  /-- The others have the same result, apart from warnings about names that the files declare. -/
  results : a'.results.map (·.sparing (a.namesIn broken)) =
    (a.results.filter fun r => !broken r.path).map (·.sparing (a.namesIn broken))

end Analysis

/-! ## Step by step -/

/-- What has come of some files if more of them fail, compared with what has come of them. -/
structure Isolates (broken : Path → Bool) (names : List String) (s s' : Progress) : Prop where
  symbols : s.symbols.SameApartFrom names s'.symbols
  failures : s'.failures.filter (fun e => !broken e.1) = s.failures.filter fun e => !broken e.1
  results : s'.results.map (·.sparing names) =
    (s.results.filter fun r => !broken r.path).map (·.sparing names)

namespace Isolates

variable {broken : Path → Bool} {names : List String} {ctx ctx' : RunContext} {t : FileTree}
  {changes : Changes}

theorem empty : Isolates broken names {} {} := ⟨fun _ _ => rfl, rfl, rfl⟩

/-- A file that fails in any case leaves its names out. -/
theorem attempt_broken {s s' : Progress} (h : Isolates broken names s s') {p : Path}
    (hp : broken p = true) {e : FileError} (he : ctx'.resolve t p s'.symbols = .error e)
    (hnames : ∀ analysis, ctx.resolve t p s.symbols = .ok analysis →
      ∀ d ∈ analysis.declarations, d.name ∈ names) :
    Isolates broken names (s.attempt ctx t changes p) (s'.attempt ctx' t changes p) := by
  rw [Progress.attempt_of_error he]
  cases hr : ctx.resolve t p s.symbols with
  | error e =>
    rw [Progress.attempt_of_error hr]
    exact ⟨h.symbols, by simp [h.failures, hp], h.results⟩
  | ok analysis =>
    rw [Progress.attempt_of_ok hr]
    refine ⟨h.symbols.registerFile_left (hnames analysis hr), ?_, ?_⟩
    · simp [h.failures, hp]
    · simp [h.results, hp]

/-- Any other file fails in both runs, or it resolves in both with the same declarations. -/
theorem attempt_other {s s' : Progress} (h : Isolates broken names s s') {p : Path}
    (hp : broken p = false) (hr : ∀ symbols, ctx.resolve t p symbols = resolveFile t p symbols)
    (hr' : ∀ symbols, ctx'.resolve t p symbols = resolveFile t p symbols) :
    Isolates broken names (s.attempt ctx t changes p) (s'.attempt ctx' t changes p) := by
  rcases resolveFile_cases t p with ⟨e, herror⟩ | ⟨declarations, lineCount, hscanned, hok⟩
  · rw [Progress.attempt_of_error ((hr _).trans (herror _)),
      Progress.attempt_of_error ((hr' _).trans (herror _))]
    exact ⟨h.symbols, by simp [h.failures, hp], h.results⟩
  · rw [Progress.attempt_of_ok ((hr _).trans (hok _)),
      Progress.attempt_of_ok ((hr' _).trans (hok _))]
    refine ⟨h.symbols.registerFile declarations, h.failures, ?_⟩
    have hsupertypes := filter_unresolvedSupertypes h.symbols hscanned
    have hshadowed := filter_alsoDeclared h.symbols hscanned
    rw [List.map_append, h.results, List.filter_append, List.map_append]
    simp only [List.filter_cons, List.filter_nil, hp, Bool.not_false, if_true, List.map_cons,
      List.map_nil, FileResult.sparing, List.filter_append, hsupertypes, hshadowed]

variable (hresolve : ctx.resolve = resolveFile) (hfails : FailsOn broken t ctx'.resolve)
include hresolve hfails

theorem attempt {s s' : Progress} (h : Isolates broken names s s') {p : Path}
    (hnames : ∀ r ∈ (s.attempt ctx t changes p).results, broken r.path = true →
      ∀ d ∈ r.declarations, d.name ∈ names) :
    Isolates broken names (s.attempt ctx t changes p) (s'.attempt ctx' t changes p) := by
  cases hp : broken p with
  | true =>
    obtain ⟨e, he⟩ := hfails.fails p s'.symbols hp
    refine h.attempt_broken hp he fun analysis hr => ?_
    rw [Progress.attempt_of_ok hr] at hnames
    exact hnames _ (List.mem_append_right _ List.mem_cons_self) hp
  | false =>
    exact h.attempt_other hp (fun symbols => by rw [hresolve]) fun symbols =>
      hfails.resolves p symbols hp

theorem foldl {s s' : Progress} (h : Isolates broken names s s') {ps : List Path}
    (hnames : ∀ r ∈ (ps.foldl (Progress.attempt ctx t changes) s).results, broken r.path = true →
      ∀ d ∈ r.declarations, d.name ∈ names) :
    Isolates broken names (ps.foldl (Progress.attempt ctx t changes) s)
      (ps.foldl (Progress.attempt ctx' t changes) s') := by
  induction ps generalizing s s' with
  | nil => exact h
  | cons p ps ih =>
    refine ih (h.attempt hresolve hfails fun r hr => ?_) hnames
    exact hnames r (Progress.results_subset_foldl (s.attempt ctx t changes p) ps hr)

end Isolates

/-! ## The run -/

theorem mem_namesIn {a : Analysis} {files : Path → Bool} {r : FileResult} (hr : r ∈ a.results)
    (hfile : files r.path = true) {d : Declaration} (hd : d ∈ r.declarations) :
    d.name ∈ a.namesIn files :=
  List.mem_flatMap.mpr ⟨r, List.mem_filter.mpr ⟨hr, hfile⟩, List.mem_map_of_mem hd⟩

/-- Putting the results and failures in path order keeps the comparison. -/
theorem Isolates.analysis {broken : Path → Bool} {names : List String} {s s' : Progress}
    (h : Isolates broken names s s') (plan : RunPlan) (project : Project) (cancelled : Bool) :
    (s'.analysis plan project cancelled).results.map (·.sparing names) =
        ((s.analysis plan project cancelled).results.filter fun r => !broken r.path).map
          (·.sparing names) ∧
      (s'.analysis plan project cancelled).failures.filter (fun e => !broken e.1) =
        (s.analysis plan project cancelled).failures.filter fun e => !broken e.1 := by
  have hsort : ∀ rs : List FileResult,
      (sortBy (fun a b => Path.le a.path b.path) rs).map (·.sparing names) =
        sortBy (fun a b => Path.le a.path b.path) (rs.map (·.sparing names)) :=
    map_sortBy fun _ _ => rfl
  simp only [Progress.analysis, filter_sortBy_path, hsort]
  rw [h.results, h.failures]
  exact ⟨rfl, rfl⟩

/-- The files with a result are those that have one in the other run and do not fail in any case. -/
theorem resolves_iff_of_sparing {broken : Path → Bool} {names : List String} {a a' : Analysis}
    (h : a'.results.map (·.sparing names) =
      (a.results.filter fun r => !broken r.path).map (·.sparing names)) (p : Path) :
    a'.resolves p = true ↔ a.resolves p = true ∧ broken p = false := by
  have hpaths : a'.results.map (·.path) =
      (a.results.filter fun r => !broken r.path).map (·.path) := by
    have hmap := congrArg (List.map FileResult.path) h
    rwa [List.map_map, List.map_map] at hmap
  have hmem : ∀ a : Analysis, a.resolves p = true ↔ p ∈ a.results.map (·.path) := fun a => by
    simp [Analysis.resolves]
  rw [hmem a', hmem a, hpaths]
  simp only [List.mem_map, List.mem_filter, Bool.not_eq_true']
  constructor
  · rintro ⟨r, ⟨hr, hp⟩, rfl⟩
    exact ⟨⟨r, hr, rfl⟩, hp⟩
  · rintro ⟨⟨r, hr, rfl⟩, hp⟩
    exact ⟨r, ⟨hr, hp⟩, rfl⟩

/-- Runs that attempt all files come to the same apart from the files that fail in one of them. -/
theorem Attempted.failsToo {ctx : RunContext} {config : Config} {excludes : List Glob}
    {t : FileTree} {project : Project} {store : Store} {o o' : RunOutcome} {plan : RunPlan}
    {taken : List Path} {broken : Path → Bool}
    {resolve : FileTree → Path → SymbolTable → Except FileError FileAnalysis}
    (hresolve : ctx.resolve = resolveFile) (hfails : FailsOn broken t resolve)
    (h : Attempted .one ctx config excludes t project store o plan taken [])
    (h' : Attempted .one { ctx with resolve } config excludes t project store o' plan taken []) :
    o.analysis.FailsToo broken o'.analysis := by
  have hisolates : Isolates broken (o.analysis.namesIn broken)
      (taken.foldl (Progress.attempt ctx t plan.changes) {})
      (taken.foldl (Progress.attempt { ctx with resolve } t plan.changes) {}) :=
    Isolates.empty.foldl hresolve hfails fun r hr hp d hd =>
      mem_namesIn (h.results_perm.mem_iff.mpr hr) hp hd
  obtain ⟨hresults, hfailures⟩ := hisolates.analysis plan project (!([] : List Path).isEmpty)
  rw [← h.analysis, ← h'.analysis] at hresults hfailures
  refine ⟨fun p => ?_, hfailures, hresults⟩
  have hgraph : o'.analysis.graph = o.analysis.graph := by rw [h.graph_eq, h'.graph_eq]
  rw [h.fails_iff_not_resolves h.cancelled_eq, h'.fails_iff_not_resolves h'.cancelled_eq, hgraph,
    ← and_or_left, ← Bool.not_eq_true, resolves_iff_of_sparing hresults p, not_and_or,
    Bool.not_eq_false, Bool.not_eq_true]

/-- If files fail that would not fail by their content, no other file fails for that, and the others
have the same results apart from warnings about names that the failing files declare. -/
theorem failing_files_isolated {ctx : RunContext} {config : Config} {excludes : List Glob}
    {t : FileTree} {project : Project} {store : Store} {o : RunOutcome} {broken : Path → Bool}
    {resolve : FileTree → Path → SymbolTable → Except FileError FileAnalysis}
    (hresolve : ctx.resolve = resolveFile) (hfails : FailsOn broken t resolve)
    (hrun : analyzeProject ctx config excludes t project store = .ok o)
    (hc : o.analysis.cancelled = false) :
    ∃ o', analyzeProject { ctx with resolve } config excludes t project store = .ok o' ∧
      o'.analysis.cancelled = false ∧ o.analysis.FailsToo broken o'.analysis := by
  obtain ⟨plan, taken, rest, h, -, hstops⟩ := exists_attempted hrun
  obtain ⟨o', hrun'⟩ : ∃ o', analyzeProject { ctx with resolve } config excludes t project store =
      .ok o' := analyzeProjectBy_ok h.made
  obtain ⟨plan', taken', rest', h', -, hstops'⟩ := exists_attempted hrun'
  obtain rfl := h.made.unique h'.made
  -- Both runs attempt the whole schedule, since they are told to stop after the same files.
  obtain rfl : rest = [] := by simpa [h.cancelled_eq] using hc
  obtain rfl : taken = taken' ++ rest' := by rw [← h'.schedule, h.schedule, List.append_nil]
  obtain rfl : rest' = [] := hstops'.rest_eq_nil_of_goesOn hstops
  rw [List.append_nil] at h
  exact ⟨o', hrun', h'.cancelled_eq, h.failsToo hresolve hfails h'⟩

namespace Sample

theorem failsOn_failingOn (q : Path) (t : FileTree) :
    FailsOn (fun p => p = q) t (failingOn q) where
  fails _ _ hp := ⟨_, if_pos (of_decide_eq_true hp)⟩
  resolves _ _ hp := if_neg (of_decide_eq_false hp)

/-- The file `b.dart` declares `B`, which `c.dart` inherits from and `d.dart` declares too. The file
`a.dart` has a fault. -/
def inherited : Visit where
  tree := tree [file "a.dart" "class A \x7b\n" 1, file "b.dart" "class B \x7b\x7d\n" 1,
    file "c.dart" "import 'b.dart';\nclass C extends B implements X \x7b\x7d\n" 1,
    file "d.dart" "import 'c.dart';\nclass B \x7b\x7d\nclass C \x7b\x7d\n" 1]
  now

theorem inherited_spec :
    (setting.run inherited Store.memory).toOption.any (fun o => decide (
      o.analysis.cancelled = false ∧ o.analysis.failures.map (·.1) = [path "a.dart"] ∧
      o.analysis.results.map (fun r => (r.path, r.diagnostics.map (·.subject))) =
        [(path "b.dart", []), (path "c.dart", ["X"]), (path "d.dart", ["B", "C"])])) = true := by
  decide +kernel

end Sample

theorem failing_files_isolated_inherited :
    ∃ o, Sample.setting.run Sample.inherited Store.memory = .ok o ∧
      o.analysis.cancelled = false ∧ o.analysis.failures.map (·.1) = [Sample.path "a.dart"] ∧
      o.analysis.results.map (fun r => (r.path, r.diagnostics.map (·.subject))) =
        [(Sample.path "b.dart", []), (Sample.path "c.dart", ["X"]),
          (Sample.path "d.dart", ["B", "C"])] ∧
      ∃ o', Sample.setting.run
          { Sample.inherited with resolve := Sample.failingOn (Sample.path "b.dart") }
          Store.memory = .ok o' ∧
        o'.analysis.cancelled = false ∧
        o.analysis.FailsToo (fun p => p = Sample.path "b.dart") o'.analysis := by
  obtain ⟨o, hrun, hc, hfailures, hresults⟩ := exists_ok_of_any Sample.inherited_spec
  exact ⟨o, hrun, hc, hfailures, hresults,
    failing_files_isolated rfl (Sample.failsOn_failingOn _ _) hrun hc⟩

end Recheck
