import Recheck.Analysis.Progress

/-!
# Analysis runs

One run over a project: make a plan, attempt the files in its order, and remember in the store what
has come of them. The records of files that resolved are stored. Files of the change set that did
not resolve are remembered as unresolved, so that the next run treats them as changed.
-/

namespace Recheck

/-! ## Remembering -/

/-- The files whose records are stored: those that resolved, and those that failed because they
could not be read. -/
def committed (plan : RunPlan) (s : Progress) : List Path :=
  plan.schedule.filter fun p =>
    s.resolved p || s.failed p && Path.memSame p plan.changes.unreadable

/-- The store after a run: its records, the files of the change set that did not resolve, and,
unless the run was stopped, nothing about files outside the project. -/
def remember (plan : RunPlan) (s : Progress) (cancelled : Bool) (now : Timestamp) (store : Store) :
    Store :=
  let store := (committed plan s).foldl plan.changes.commit store
  let store := store.setPending (plan.changes.unfinished s.resolved)
  let store := if cancelled then store else (store.prune plan.order).1
  store.saveMetadata
    { lastRun := now, fileCount := plan.order.length, symbolCount := s.symbols.size }

/-! ## Runs -/

/-- Runs over a project with a store. A store that cannot be written is kept as it is in memory. -/
def analyzeProjectBy (workers : Workers) (ctx : RunContext) (config : Config)
    (excludes : List Glob) (t : FileTree) (project : Project) (store : Store) :
    Except AnalysisError RunOutcome :=
  match RunPlan.make ctx.digest config excludes t project store.data with
  | .error e => .error e
  | .ok plan =>
    let (progress, cancelled) :=
      Progress.attemptAll ctx t plan.changes {} (plan.scheduleFor workers)
    let analysis := progress.analysis plan project cancelled
    if config.enableCache then
      let store := remember plan progress cancelled ctx.now store
      match Store.flush t store with
      | (tree, .ok store) => .ok { analysis, store, tree }
      | (tree, .error _) => .ok { analysis, store, tree }
    else .ok { analysis, store, tree := t }

/-- Runs over a project with a store and one worker. -/
def analyzeProject (ctx : RunContext) (config : Config) (excludes : List Glob) (t : FileTree)
    (project : Project) (store : Store) : Except AnalysisError RunOutcome :=
  analyzeProjectBy .one ctx config excludes t project store

/-- Runs over the project in a directory with a store. -/
def analyzeWith (ctx : RunContext) (config : Config) (t : FileTree) (root : Path)
    (storeOf : Project → Store) : Except AnalysisError RunOutcome :=
  match config.excludes with
  | .error e => .error (.config (.glob e))
  | .ok excludes =>
    match Project.detect t root config.manifest config.sourceDir with
    | .error e => .error (.project e)
    | .ok project => analyzeProject ctx config excludes t project (storeOf project)

/-- Runs over the project in a directory, with the store on disk if caching is on. -/
def analyze (ctx : RunContext) (config : Config) (t : FileTree) (root : Path) :
    Except AnalysisError RunOutcome :=
  analyzeWith ctx config t root fun project =>
    if config.enableCache then Store.openIn t (config.cachePath project.root) else Store.memory

end Recheck
