import Recheck.Analysis.Basic

/-!
# Summaries

What is printed about a run: its counters, cycles, failures, and the diagnostics of changed files.
-/

namespace Recheck.Summary

/-- The counters. -/
def counters (a : Analysis) : List String :=
  let s := a.statistics
  let n (k : Nat) : String := toString k
  [a.project.packageName ++ ": " ++ n s.totalFiles ++ " files, " ++ n a.changeSet.length ++
      " changed, " ++ n s.resolvedFiles ++ " resolved, " ++ n s.cachedFiles ++ " cached, " ++
      n s.errorFiles ++ " errors (" ++ n s.elapsedMillis ++ "ms)",
    "  quick-skips: " ++ n s.quickSkips ++ " (" ++ n (Statistics.percent s.skipRate) ++
      "%), hashed: " ++ n s.hashComputations]

/-- A cycle. -/
def cycle (root : Path) (files : List Path) : String :=
  "  cycle: " ++ " -> ".intercalate (files.map fun p => (p.relativeTo root).shown)

/-- A file that did not resolve. -/
def failure (root : Path) (e : Path × String) : String :=
  "  failed: " ++ (e.1.relativeTo root).shown ++ ": " ++ e.2

/-- A diagnostic of a file. -/
def diagnostic (root p : Path) (d : Diagnostic) : String :=
  "  " ++ d.severity.label ++ " " ++ (p.relativeTo root).shown ++
    (match d.line with
    | some n => ":" ++ toString n
    | none => "") ++
    ": " ++ d.message

/-- The summary of a run. -/
def lines (a : Analysis) : List String :=
  let root := a.project.root
  counters a ++ a.cycles.map (cycle root) ++ a.failures.map (failure root) ++
    (a.changedResults.flatMap fun r => r.diagnostics.map (diagnostic root r.path)) ++
    if a.cancelled then ["  (cancelled)"] else []

end Recheck.Summary
