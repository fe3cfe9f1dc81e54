import Recheck.Config.Load
import Recheck.Digest
import Recheck.Graph.Basic
import Recheck.References
import Recheck.Resolve
import Recheck.Statistics
import Recheck.Store.Disk

/-!
# Runs and their outcome

What a run over a project takes from its surroundings, what it comes to, and why it may come to
nothing.
-/

namespace Recheck

/-- What a run takes from its surroundings. -/
structure RunContext where
  digest : Digest
  /-- Resolves a file against the declarations of the files before it. -/
  resolve : FileTree → Path → SymbolTable → Except FileError FileAnalysis := resolveFile
  /-- Whether the run is to stop, given the files attempted so far, the latest first. -/
  stops : List Path → Bool := fun _ => false
  /-- The time of the run. -/
  now : Timestamp

/-- Why a run comes to nothing. -/
inductive AnalysisError where
  | project (cause : ProjectError)
  | config (cause : ConfigError)
  | scan (cause : ScanError)
  | graph (cause : GraphError)
deriving DecidableEq

/-- The text shown for a run that comes to nothing. -/
def AnalysisError.message : AnalysisError → String
  | project cause => cause.message
  | config cause => cause.message
  | scan cause => cause.message
  | graph cause => cause.message

/-- What a run comes to. -/
structure Analysis where
  project : Project
  /-- Every file after the files it needs. -/
  order : List Path
  layers : List (List Path)
  changeSet : List Path
  /-- The files that resolved, in path order. -/
  results : List FileResult
  /-- The files that did not resolve and why, in path order. -/
  failures : List (Path × String)
  graph : Graph
  cycles : List (List Path)
  external : List (Path × List String)
  symbols : SymbolTable
  statistics : Statistics
  /-- Whether the run was stopped before all files were attempted. -/
  cancelled : Bool

namespace Analysis

/-- The results of files in the change set. -/
def changedResults (a : Analysis) : List FileResult := a.results.filter (·.changed)

/-- The number of files that did not resolve, or resolved with an error among their messages. -/
def failedFiles (a : Analysis) : Nat := a.failures.length + a.results.countP (·.hasErrors)

/-- The outcome of a run that took some time. -/
def withElapsed (a : Analysis) (millis : Nat) : Analysis :=
  { a with statistics := { a.statistics with elapsedMillis := millis } }

end Analysis

/-- What a run leaves behind. -/
structure RunOutcome where
  analysis : Analysis
  store : Store
  tree : FileTree

end Recheck
