import Recheck.Analysis.Plan

/-!
# Resolving in order

The files of a run are attempted one after the other, in the order in which its workers take them
up. A file that resolves registers its declarations for the files after it; one that does not is
noted and passed over. A run can be stopped between two files; the files after that point are not
attempted.
-/

namespace Recheck

/-- What has come of the files attempted so far. -/
structure Progress where
  symbols : SymbolTable := SymbolTable.empty
  /-- The files attempted, the latest first. -/
  attempted : List Path := []
  results : List FileResult := []
  failures : List (Path × String) := []

namespace Progress

/-- Attempts a file. -/
def attempt (ctx : RunContext) (t : FileTree) (changes : Changes) (s : Progress) (p : Path) :
    Progress :=
  let s := { s with attempted := p :: s.attempted }
  match ctx.resolve t p s.symbols with
  | .error e => { s with failures := s.failures ++ [(p, e.message)] }
  | .ok analysis =>
    let (symbols, shadowed) := s.symbols.registerFile analysis.declarations
    { s with
      symbols
      results := s.results ++
        [{ path := p
           declarations := analysis.declarations
           diagnostics :=
            analysis.diagnostics ++ shadowed.map fun (name, q) => Diagnostic.alsoDeclared name q
           changed := changes.contains p }] }

/-- Attempts files one after the other until the run stops. Also says whether it did before the
end. -/
def attemptAll (ctx : RunContext) (t : FileTree) (changes : Changes) :
    Progress → List Path → Progress × Bool
  | s, [] => (s, false)
  | s, p :: rest =>
    if ctx.stops s.attempted then (s, true)
    else attemptAll ctx t changes (s.attempt ctx t changes p) rest

/-- Whether a file resolved. -/
def resolved (s : Progress) (p : Path) : Bool := Path.memSame p (s.results.map (·.path))

/-- Whether a file was attempted and did not resolve. -/
def failed (s : Progress) (p : Path) : Bool := Path.memSame p (s.failures.map (·.1))

/-- The counters of a run that ends here. -/
def statistics (s : Progress) (plan : RunPlan) : Statistics where
  totalFiles := plan.order.length
  resolvedFiles := s.results.countP (·.changed)
  cachedFiles := s.results.countP fun r => !r.changed
  errorFiles := s.failures.length
  hashComputations := plan.changes.hashComputations
  quickSkips := plan.changes.quickSkips

/-- What a run that ends here comes to. -/
def analysis (s : Progress) (plan : RunPlan) (project : Project) (cancelled : Bool) : Analysis where
  project
  order := plan.order
  layers := plan.layers
  changeSet := plan.changes.changeSet
  results := sortBy (fun a b => Path.le a.path b.path) s.results
  failures := sortBy (fun a b => Path.le a.1 b.1) s.failures
  graph := plan.graph
  cycles := plan.graph.cycles
  external := plan.references.external
  symbols := s.symbols
  statistics := s.statistics plan
  cancelled

end Progress

end Recheck
