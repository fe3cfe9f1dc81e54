import Recheck.Command.Execute
import Recheck.Proofs.FileTree
import Recheck.Proofs.Graph.Sort
import Recheck.Proofs.Run.Resolution
import Recheck.Proofs.Source.Braces

/-!
# The verdict of a check

A check succeeds exactly if no source file depends on itself and every source file is a text with
matching braces (`check_succeeds_iff`). A plan can be made exactly if there is no cycle
(`exists_made_iff`). A file then resolves by its own text alone (`exists_resolveFile_iff`), and its
warnings are no errors (`failedFiles_eq`). Nothing depends on the store, so the cache has no part in
the verdict. The tree has no links: the source directory and the files in it are reached by one path
each.
-/

namespace Recheck

/-! ## Cycles -/

/-- A directive of the file `u` leads to the file `v`, both among the files. -/
def RefersAmong (t : FileTree) (project : Project) (files : List Path) (u v : Path) : Prop :=
  u ∈ files ∧ v ∈ files ∧ ∃ target, RefersTo t project u target ∧ Path.Same target v

theorem exists_made_iff {digest : Digest} {config : Config} {excludes : List Glob} {t : FileTree}
    {project : Project} {data : StoreData} {files : List Path}
    (hfiles : sourceFiles t project config.extensions excludes = .ok files)
    (hstrict : config.strictCycles = true) :
    (∃ plan : RunPlan, plan.Made digest config excludes t project data) ↔
      ∀ f, ¬ Relation.TransGen (RefersAmong t project files) f f := by
  obtain ⟨references, hcollect⟩ :
      ∃ references, References.collect t project config.extensions excludes = .ok references := by
    rw [References.collect, hfiles]
    exact ⟨_, rfl⟩
  obtain rfl : references.files = files :=
    Except.ok.inj ((sourceFiles_of_collect hcollect).symm.trans hfiles)
  have hcycle : ∀ f, Relation.TransGen (RefersAmong t project references.files) f f ↔
      (Graph.ofEdges references.files references.edges).DependsOn f f := by
    have hneeds : (Graph.ofEdges references.files references.edges).Needs =
        RefersAmong t project references.files := by
      funext u v
      exact propext (needs_iff_refersTo hcollect)
    intro f
    rw [Graph.DependsOn, hneeds]
  simp only [hcycle, ← Graph.topologicalSort_strict_ok_iff]
  constructor
  · rintro ⟨plan, hplan⟩
    have href : plan.references = references :=
      Except.ok.inj (hplan.references.symm.trans hcollect)
    refine ⟨plan.order, ?_⟩
    rw [← hplan.order, hstrict, hplan.graph, href]
  · rintro ⟨order, horder⟩
    rw [← hstrict] at horder
    let graph := Graph.ofEdges references.files references.edges
    let changes := RunPlan.changesOf digest config t references graph order data
    exact ⟨⟨references, graph, order, changes⟩, hcollect, rfl, horder, rfl⟩

/-! ## Files that resolve -/

/-- The file is a text whose braces match, those in comments and literals apart. -/
def BracesMatch (t : FileTree) (p : Path) : Prop :=
  ∃ text, t.readText p = .ok text ∧ Source.Balanced (Source.braces (Source.mask text.toList))

theorem exists_resolveFile_iff {t : FileTree} {p : Path} {symbols : SymbolTable} :
    (∃ analysis, resolveFile t p symbols = .ok analysis) ↔ BracesMatch t p := by
  rw [resolveFile, readSource, BracesMatch, FileTree.readText]
  cases t.read p with
  | error e => simp
  | ok content =>
    dsimp only
    cases Text.ofBytes? content with
    | none => simp
    | some text =>
      have hscan := @Source.exists_scan_iff p text.toList
      simp only [Except.ok.injEq, exists_eq_left', ← hscan]
      cases Source.scan p text.toList <;> simp

section

variable {ctx : RunContext} {config : Config} {excludes : List Glob} {t : FileTree}
  {project : Project} {store : Store} {o : RunOutcome}
  (hrun : analyzeProject ctx config excludes t project store = .ok o)
  (hresolve : ctx.resolve = resolveFile)
include hrun hresolve

/-- No message about a file is an error, so the files that count as failed are those that do not
resolve. -/
theorem failedFiles_eq : o.analysis.failedFiles = o.analysis.failures.length := by
  obtain ⟨plan, taken, rest, h, -⟩ := exists_attempted hrun
  have hnone : o.analysis.results.countP (·.hasErrors) = 0 := by
    refine List.countP_eq_zero.mpr fun r hr => ?_
    rw [h.results_perm.mem_iff] at hr
    obtain ⟨before, after, analysis, -, hok, -, shadowed, hdiagnostics⟩ :=
      (Progress.exists_resolve_of_mem_results hr).resolve_left (by simp)
    rw [hresolve] at hok
    rw [FileResult.hasErrors, hdiagnostics, (resolveFile_eq_ok hok).1, List.any_eq_true]
    rintro ⟨m, hm, hsevere⟩
    rcases List.mem_append.mp hm with hm | hm
    · obtain ⟨d, -, type, -, -, -, rfl⟩ := mem_unresolvedSupertypes.mp hm
      cases hsevere
    · obtain ⟨e, -, rfl⟩ := List.mem_map.mp hm
      cases hsevere
  rw [Analysis.failedFiles, hnone, Nat.add_zero]

theorem failures_eq_nil_iff (hc : o.analysis.cancelled = false) :
    o.analysis.failures = [] ↔ ∀ f ∈ o.analysis.graph.files, BracesMatch t f := by
  obtain ⟨plan, taken, rest, h, -⟩ := exists_attempted hrun
  have hresolves : ∀ f ∈ o.analysis.graph.files,
      (o.analysis.resolves f = true ↔ BracesMatch t f) := by
    intro f hf
    have hmem : f ∈ taken := by rwa [h.taken_eq hc, h.made.mem_scheduleFor, ← h.graph_eq]
    have hown : ∀ p ∈ taken, ∀ symbols, (∃ analysis, resolveFile t p symbols = .ok analysis) ↔
        BracesMatch t p := fun _ _ _ => exists_resolveFile_iff
    rw [h.resolves_iff, hresolve, mem_resolvable_iff hown]
    exact and_iff_right hmem
  constructor
  · exact fun hnil f hf => (hresolves f hf).mp (h.resolves_of_no_failures hc hnil hf)
  · intro hall
    refine List.eq_nil_iff_forall_not_mem.mpr fun e he => ?_
    have hfails : o.analysis.fails e.1 = true := List.any_eq_true.mpr ⟨e, he, by simp⟩
    have hf := h.mem_files_of_fails hfails
    have hno := h.not_resolves_of_fails hfails
    rw [(hresolves e.1 hf).mpr (hall e.1 hf)] at hno
    cases hno

end

/-- A run for which cycles are errors comes to something without a failed file exactly if there is
no cycle and the braces match in all files. -/
theorem exists_run_iff {ctx : RunContext} {config : Config} {excludes : List Glob} {t : FileTree}
    {project : Project} {store : Store} {files : List Path} (hresolve : ctx.resolve = resolveFile)
    (hstops : ∀ done, ctx.stops done = false) (hstrict : config.strictCycles = true)
    (hfiles : sourceFiles t project config.extensions excludes = .ok files) :
    (∃ o, analyzeProject ctx config excludes t project store = .ok o ∧
        o.analysis.failedFiles = 0) ↔
      (∀ f, ¬ Relation.TransGen (RefersAmong t project files) f f) ∧
        ∀ f ∈ files, BracesMatch t f := by
  rw [← exists_made_iff hfiles hstrict]
  have hverdict : ∀ o, analyzeProject ctx config excludes t project store = .ok o →
      (o.analysis.failedFiles = 0 ↔ ∀ f ∈ files, BracesMatch t f) := by
    intro o hrun
    obtain ⟨plan, taken, rest, h, -⟩ := exists_attempted hrun
    have hgraph : o.analysis.graph.files = files :=
      Except.ok.inj (h.sourceFiles_eq.symm.trans hfiles)
    rw [failedFiles_eq hrun hresolve, List.length_eq_zero_iff,
      failures_eq_nil_iff hrun hresolve (cancelled_of_not_stops hstops hrun), hgraph]
  constructor
  · rintro ⟨o, hrun, hfailed⟩
    obtain ⟨plan, taken, rest, h, -⟩ := exists_attempted hrun
    exact ⟨⟨plan, h.made⟩, (hverdict o hrun).mp hfailed⟩
  · rintro ⟨⟨plan, hplan⟩, hmatch⟩
    obtain ⟨o, hrun⟩ := analyzeProjectBy_ok hplan
    exact ⟨o, hrun, (hverdict o hrun).mpr hmatch⟩

/-! ## The command -/

/-- What a command that ends by itself comes to, given how long its run took. -/
def Started.outcome? (elapsedMillis : Nat) : Started → Option CommandOutcome
  | .finished outcome => some outcome
  | .analyzed run => some (run.finish elapsedMillis)
  | .watching _ _ => none

/-- A strict run ends the command well exactly if it comes to something without a failed file. -/
theorem exists_outcome_startRun (ctx : RunContext) (config : Config) (t : FileTree) (root : Path)
    (elapsedMillis : Nat) :
    ∃ outcome, (Command.startRun ctx config t root false true).outcome? elapsedMillis =
        some outcome ∧
      (outcome.exitCode = 0 ↔
        ∃ o, analyze ctx config t root = .ok o ∧ o.analysis.failedFiles = 0) := by
  rw [Command.startRun]
  cases hrun : analyze ctx config t root with
  | error e => exact ⟨_, rfl, by simp [CommandOutcome.failure]⟩
  | ok o =>
    refine ⟨_, rfl, ?_⟩
    have hfailed : (o.analysis.withElapsed elapsedMillis).failedFiles =
        o.analysis.failedFiles := rfl
    simp only [StartedRun.finish, Bool.false_eq_true, if_false, Bool.true_and, hfailed,
      Except.ok.injEq, exists_eq_left']
    by_cases hzero : o.analysis.failedFiles = 0
    · simp [hzero, CommandOutcome.success]
    · simp [hzero, CommandOutcome.failure]

theorem detect_of_exists {t : FileTree} {start root : Path} {manifest sourceDir : String}
    (hroot : t.canonicalize start = .ok root) (hdir : t.isDir root = true)
    (hmanifest : t.isFile (root.join (.ofText manifest)) = true)
    (hsources : t.isDir (root.join (.ofText sourceDir)) = true) :
    ∃ project, Project.detect t start manifest sourceDir = .ok project ∧
      project.sourceDir = root.join (.ofText sourceDir) := by
  simp only [Project.detect, hroot, hdir, hmanifest, hsources]
  exact ⟨_, rfl, rfl⟩

theorem exists_analyze_eq (ctx : RunContext) {config : Config} {excludes : List Glob} {t : FileTree}
    {root : Path} {project : Project} (hexcludes : config.excludes = .ok excludes)
    (hdetect : Project.detect t root config.manifest config.sourceDir = .ok project) :
    ∃ store, analyze ctx config t root = analyzeProject ctx config excludes t project store := by
  simp only [analyze, analyzeWith, hexcludes, hdetect]
  exact ⟨_, rfl⟩

/-- A check of a project succeeds exactly if no source file depends on itself and every source file
is a text with matching braces. -/
theorem check_succeeds_iff {ctx : RunContext} {environment : String → Option String} {t : FileTree}
    {arguments : List String} {i : Invocation} {config : Config} {excludes : List Glob}
    {root : Path}
    (hresolve : ctx.resolve = resolveFile) (hstops : ∀ done, ctx.stops done = false)
    (hi : Invocation.ofArguments arguments = .ok i) (hcheck : i.command = .check)
    (hconfig : Config.load t i.root environment = .ok config)
    (hexcludes : config.excludes = .ok excludes)
    (hroot : t.canonicalize i.root = .ok root) (hdir : t.isDir root = true)
    (hmanifest : t.isFile (root.join (.ofText config.manifest)) = true)
    (hsources : t.isDir (root.join (.ofText config.sourceDir)) = true) (elapsedMillis : Nat) :
    ∃ project files outcome,
      Project.detect t i.root config.manifest config.sourceDir = .ok project ∧
      sourceFiles t project config.extensions excludes = .ok files ∧
      (start ctx environment t arguments).outcome? elapsedMillis = some outcome ∧
      (outcome.exitCode = 0 ↔
        (∀ f, ¬ Relation.TransGen (RefersAmong t project files) f f) ∧
          ∀ f ∈ files, BracesMatch t f) := by
  obtain ⟨project, hdetect, hsourceDir⟩ := detect_of_exists hroot hdir hmanifest hsources
  rw [← hsourceDir] at hsources
  obtain ⟨files, hfiles⟩ :=
    (@exists_sourceFiles_iff t project config.extensions excludes).mpr hsources
  have hstart : start ctx environment t arguments =
      Command.startRun ctx { config with strictCycles := true } t i.root false true := by
    simp only [start, hi, hconfig, hcheck, Command.start]
  obtain ⟨store, hanalyze⟩ : ∃ store, analyze ctx { config with strictCycles := true } t i.root =
      analyzeProject ctx { config with strictCycles := true } excludes t project store :=
    exists_analyze_eq ctx hexcludes hdetect
  obtain ⟨outcome, houtcome, hcode⟩ :=
    exists_outcome_startRun ctx { config with strictCycles := true } t i.root elapsedMillis
  refine ⟨project, files, outcome, hdetect, hfiles, hstart ▸ houtcome, ?_⟩
  rw [hcode, hanalyze]
  exact exists_run_iff hresolve hstops rfl hfiles

namespace Sample

/-- A project with a cache file that cannot be read as a store. A brace stands in a literal, and one
file refers to the other. -/
def garbled : FileTree where
  entries := [(["p"], .dir 1), (["p", "lib"], .dir 1),
    (["p", "pubspec.yaml"], .file (Text.bytes "name: p\n") 1 true), (["p", ".trellis"], .dir 1),
    (["p", ".trellis", "cache.json"], .file [0xff, 0x7b] 1 true),
    file "a.dart" "import 'b.dart';\nclass A \x7b\x7d\n" 1,
    file "b.dart" "class B \x7b var s = '\x7d'; \x7d\n" 1]
  workDir := ["p"]

/-- The surroundings of the check. -/
def checking : RunContext where
  digest := setting.digest
  now

theorem garbled_config_spec :
    (Config.load garbled ⟨"."⟩ fun _ => none).toOption.any (fun c => decide (
      c.excludes.isOk = true ∧ garbled.isFile (Path.join ⟨"/p"⟩ (.ofText c.manifest)) = true ∧
      garbled.isDir (Path.join ⟨"/p"⟩ (.ofText c.sourceDir)) = true)) = true := by
  decide +kernel

theorem garbled_check_spec :
    ((start checking (fun _ => none) garbled ["check"]).outcome? 0).map (·.exitCode) = some 0 := by
  decide +kernel

end Sample

theorem check_succeeds_iff_garbled :
    ∃ config excludes project files outcome,
      Config.load Sample.garbled ⟨"."⟩ (fun _ => none) = .ok config ∧
      config.excludes = .ok excludes ∧
      Project.detect Sample.garbled ⟨"."⟩ config.manifest config.sourceDir = .ok project ∧
      sourceFiles Sample.garbled project config.extensions excludes = .ok files ∧
      (start Sample.checking (fun _ => none) Sample.garbled ["check"]).outcome? 0 =
        some outcome ∧
      outcome.exitCode = 0 ∧
      (outcome.exitCode = 0 ↔
        (∀ f, ¬ Relation.TransGen (RefersAmong Sample.garbled project files) f f) ∧
          ∀ f ∈ files, BracesMatch Sample.garbled f) := by
  obtain ⟨config, hconfig, hok, hmanifest, hsources⟩ := exists_ok_of_any Sample.garbled_config_spec
  obtain ⟨excludes, hexcludes⟩ : ∃ excludes, config.excludes = .ok excludes := by
    cases h : config.excludes with
    | error e =>
      rw [h] at hok
      cases hok
    | ok excludes => exact ⟨excludes, rfl⟩
  have hi : Invocation.ofArguments ["check"] = .ok { command := .check } := by decide +kernel
  have hroot : Sample.garbled.canonicalize ⟨"."⟩ = .ok ⟨"/p"⟩ := by decide +kernel
  have hdir : Sample.garbled.isDir ⟨"/p"⟩ = true := by decide +kernel
  have hresolve : Sample.checking.resolve = resolveFile := rfl
  obtain ⟨project, files, outcome, hdetect, hfiles, houtcome, hiff⟩ :=
    check_succeeds_iff hresolve (fun _ => rfl) hi rfl hconfig hexcludes hroot hdir hmanifest
      hsources 0
  have hzero := Sample.garbled_check_spec
  rw [houtcome, Option.map_some] at hzero
  exact ⟨config, excludes, project, files, outcome, hconfig, hexcludes, hdetect, hfiles, houtcome,
    Option.some.inj hzero, hiff⟩

end Recheck
