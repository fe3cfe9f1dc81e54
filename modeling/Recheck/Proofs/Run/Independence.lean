import Recheck.Proofs.Run.Outcome

/-!
# What the store has no part in

The store decides which files count as changed, and nothing else. Two runs over the same files, with
any two stores and with caching on or off, come to the same (`analysis_independent_of_store`) once
the change set, the marks of change and the counters that go with them are left out
(`Analysis.withoutChanges`).

The plan is compared first (`RunPlan.make_withoutChanges`), then the files attempted step by step
(`Progress.attempt_withoutChanges`).
-/

namespace Recheck

/-! ## Leaving the changes out -/

/-- The result without its mark of change. -/
def FileResult.withoutChanges (r : FileResult) : FileResult := { r with changed := false }

/-- What has come of the files attempted, without the marks of change. -/
def Progress.withoutChanges (s : Progress) : Progress :=
  { s with results := s.results.map FileResult.withoutChanges }

/-- The plan without the changes. -/
def RunPlan.withoutChanges (plan : RunPlan) : RunPlan := { plan with changes := {} }

/-- The counters that do not tell files that changed from files that did not. -/
def Statistics.withoutChanges (s : Statistics) : Statistics :=
  { s with resolvedFiles := 0, cachedFiles := 0, hashComputations := 0, quickSkips := 0 }

/-- What a run comes to without the change set, the marks of change and their counters. -/
def Analysis.withoutChanges (a : Analysis) : Analysis :=
  { a with
    changeSet := []
    results := a.results.map FileResult.withoutChanges
    statistics := a.statistics.withoutChanges }

theorem map_insertBy {α β : Type} {le : α → α → Bool} {le' : β → β → Bool} {f : α → β}
    (hle : ∀ a b, le' (f a) (f b) = le a b) (x : α) (ys : List α) :
    (insertBy le x ys).map f = insertBy le' (f x) (ys.map f) := by
  induction ys with
  | nil => rfl
  | cons y ys ih =>
    rw [insertBy, List.map_cons, insertBy, hle]
    split
    · rfl
    · rw [List.map_cons, ih]

/-- Sorting by what a function keeps can be done before or after it. -/
theorem map_sortBy {α β : Type} {le : α → α → Bool} {le' : β → β → Bool} {f : α → β}
    (hle : ∀ a b, le' (f a) (f b) = le a b) (xs : List α) :
    (sortBy le xs).map f = sortBy le' (xs.map f) := by
  induction xs with
  | nil => rfl
  | cons x xs ih =>
    rw [sortBy, List.foldr_cons, ← sortBy, map_insertBy hle, ih]
    rfl

/-! ## The plan -/

/-- With other contents of the store, with caching or without, the plan has other changes only. -/
theorem RunPlan.make_withoutChanges (digest : Digest) (config : Config) (excludes : List Glob)
    (t : FileTree) (project : Project) (data data' : StoreData) (cached cached' : Bool) :
    (make digest { config with enableCache := cached } excludes t project data).map
        withoutChanges =
      (make digest { config with enableCache := cached' } excludes t project data').map
        withoutChanges := by
  rw [make, make]
  cases References.collect t project config.extensions excludes with
  | error e => rfl
  | ok references =>
    dsimp only
    cases (Graph.ofEdges references.files references.edges).topologicalSort config.strictCycles with
    | error e => rfl
    | ok order => rfl

/-! ## The files attempted -/

namespace Progress

section

variable {ctx ctx' : RunContext} (hresolve : ctx.resolve = ctx'.resolve) (t : FileTree)
  (changes changes' : Changes) {s s' : Progress} (h : s.withoutChanges = s'.withoutChanges)
include hresolve h

/-- How a file is attempted does not depend on what has changed. -/
theorem attempt_withoutChanges (p : Path) :
    (s.attempt ctx t changes p).withoutChanges =
      (s'.attempt ctx' t changes' p).withoutChanges := by
  obtain ⟨symbols, attempted, results, failures⟩ := s
  obtain ⟨symbols', attempted', results', failures'⟩ := s'
  obtain ⟨rfl, rfl, hresults, rfl⟩ : symbols = symbols' ∧ attempted = attempted' ∧
      results.map FileResult.withoutChanges = results'.map FileResult.withoutChanges ∧
      failures = failures' := by
    simpa only [withoutChanges, Progress.mk.injEq] using h
  cases hr : ctx.resolve t p symbols with
  | error e =>
    rw [attempt_of_error hr, attempt_of_error (hresolve ▸ hr)]
    simp only [withoutChanges, hresults]
  | ok analysis =>
    rw [attempt_of_ok hr, attempt_of_ok (hresolve ▸ hr)]
    simp only [withoutChanges, List.map_append, hresults]
    rfl

/-- Neither does it when a run stops. -/
theorem attemptAll_withoutChanges (hstops : ctx.stops = ctx'.stops) (ps : List Path) :
    (attemptAll ctx t changes s ps).1.withoutChanges =
        (attemptAll ctx' t changes' s' ps).1.withoutChanges ∧
      (attemptAll ctx t changes s ps).2 = (attemptAll ctx' t changes' s' ps).2 := by
  induction ps generalizing s s' with
  | nil => exact ⟨h, rfl⟩
  | cons p ps ih =>
    have hattempted : s.attempted = s'.attempted := (Progress.mk.inj h).2.1
    rw [attemptAll, attemptAll, hattempted, hstops]
    split
    · exact ⟨h, rfl⟩
    · exact ih (attempt_withoutChanges hresolve t changes changes' h p)

end

/-- What a run comes to is made from the plan and the progress without looking at the changes. -/
theorem analysis_withoutChanges (s : Progress) (plan : RunPlan) (project : Project)
    (cancelled : Bool) :
    (s.analysis plan project cancelled).withoutChanges =
      (s.withoutChanges.analysis plan.withoutChanges project cancelled).withoutChanges := by
  have hsort : ∀ results : List FileResult,
      (sortBy (fun a b => Path.le a.path b.path) results).map FileResult.withoutChanges =
        sortBy (fun a b => Path.le a.path b.path) (results.map FileResult.withoutChanges) :=
    map_sortBy fun _ _ => rfl
  have hresults : (s.results.map FileResult.withoutChanges).map FileResult.withoutChanges =
      s.results.map FileResult.withoutChanges := by
    rw [List.map_map]
    rfl
  simp only [Analysis.withoutChanges, analysis, withoutChanges, hsort, hresults]
  rfl

end Progress

/-! ## The run -/

theorem map_eq_of_map_eq {ε α β γ : Type} {x y : Except ε α} {f : α → β} {g g' : α → γ}
    (h : x.map f = y.map f) (hg : ∀ a b, f a = f b → g a = g' b) : x.map g = y.map g' := by
  cases x with
  | error e =>
    cases y with
    | error e' => exact congrArg Except.error (Except.error.inj h)
    | ok b => cases h
  | ok a =>
    cases y with
    | error e' => cases h
    | ok b => exact congrArg Except.ok (hg a b (Except.ok.inj h))

/-- What a run comes to if it follows the plan. -/
def RunPlan.outcome (ctx : RunContext) (t : FileTree) (project : Project) (plan : RunPlan) :
    Analysis :=
  let (progress, cancelled) := Progress.attemptAll ctx t plan.changes {} plan.schedule
  progress.analysis plan project cancelled

theorem map_analyzeProject {β : Type} (f : Analysis → β) (ctx : RunContext) (config : Config)
    (excludes : List Glob) (t : FileTree) (project : Project) (store : Store) :
    (analyzeProject ctx config excludes t project store).map (fun o => f o.analysis) =
      (RunPlan.make ctx.digest config excludes t project store.data).map fun plan =>
        f (plan.outcome ctx t project) := by
  rw [analyzeProject, analyzeProjectBy]
  cases RunPlan.make ctx.digest config excludes t project store.data with
  | error e => rfl
  | ok plan =>
    simp only [plan.scheduleFor_one]
    split
    · split <;> rfl
    · rfl

theorem RunPlan.outcome_withoutChanges (ctx ctx' : RunContext) (t : FileTree) (project : Project)
    {plan plan' : RunPlan} (h : plan.withoutChanges = plan'.withoutChanges)
    (hresolve : ctx.resolve = ctx'.resolve) (hstops : ctx.stops = ctx'.stops) :
    (plan.outcome ctx t project).withoutChanges =
      (plan'.outcome ctx' t project).withoutChanges := by
  have hschedule : plan.schedule = plan'.schedule := by
    show plan.withoutChanges.schedule = plan'.withoutChanges.schedule
    rw [h]
  obtain ⟨hprogress, hcancelled⟩ := Progress.attemptAll_withoutChanges hresolve t plan.changes
    plan'.changes (rfl : ({} : Progress).withoutChanges = _) hstops plan'.schedule
  simp only [outcome]
  rw [Progress.analysis_withoutChanges, hschedule, hprogress, hcancelled, h,
    ← Progress.analysis_withoutChanges]

/-- Runs over the same files, stopped at the same point, come to the same whatever their stores
hold and whether they use them: both come to nothing for the same reason, or they differ in no more
than the change set, the marks of change and the counters that go with them. This holds for a run
over a given project, and for one that finds the project in a directory first. -/
theorem analysis_independent_of_store (ctx : RunContext) (config : Config) (t : FileTree)
    (now : Timestamp) (cached cached' : Bool) :
    (∀ excludes project store store',
      (analyzeProject ctx { config with enableCache := cached } excludes t project store).map
          (·.analysis.withoutChanges) =
        (analyzeProject { ctx with now } { config with enableCache := cached' } excludes t project
          store').map (·.analysis.withoutChanges)) ∧
    ∀ root storeOf storeOf',
      (analyzeWith ctx { config with enableCache := cached } t root storeOf).map
          (·.analysis.withoutChanges) =
        (analyzeWith { ctx with now } { config with enableCache := cached' } t root storeOf').map
          (·.analysis.withoutChanges) := by
  have hproject : ∀ excludes project store store',
      (analyzeProject ctx { config with enableCache := cached } excludes t project store).map
          (·.analysis.withoutChanges) =
        (analyzeProject { ctx with now } { config with enableCache := cached' } excludes t project
          store').map (·.analysis.withoutChanges) := by
    intro excludes project store store'
    rw [map_analyzeProject, map_analyzeProject]
    have hmake := RunPlan.make_withoutChanges ctx.digest config excludes t project store.data
      store'.data cached cached'
    refine map_eq_of_map_eq hmake fun plan plan' h => ?_
    exact RunPlan.outcome_withoutChanges ctx { ctx with now } t project h rfl rfl
  refine ⟨hproject, fun root storeOf storeOf' => ?_⟩
  have hexcludes : ∀ b, Config.excludes { config with enableCache := b } = config.excludes :=
    fun b => rfl
  simp only [analyzeWith, hexcludes]
  cases config.excludes with
  | error e => rfl
  | ok excludes =>
    dsimp only
    cases Project.detect t root config.manifest config.sourceDir with
    | error e => rfl
    | ok project => exact hproject excludes project (storeOf project) (storeOf' project)

end Recheck
