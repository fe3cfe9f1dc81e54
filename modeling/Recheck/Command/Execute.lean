import Recheck.Analysis.Run
import Recheck.Command.Help
import Recheck.Command.Summary
import Recheck.Report

/-!
# Carrying out commands

What the program does with its arguments. How long a run takes is part of what is said about it, and
is known only afterwards. So a command is carried out in two steps: `start` does the work, and
`Started.finish` tells about it.
-/

namespace Recheck

/-- The version of the program. -/
def versionText : String := "Trellis v0.1.0"

/-- What a finished command leaves behind. -/
structure CommandOutcome where
  tree : FileTree
  exitCode : Nat
  out : List String := []
  err : List String := []

namespace CommandOutcome

/-- A command that succeeded. -/
def success (t : FileTree) (out : List String) : CommandOutcome := { tree := t, exitCode := 0, out }

/-- A command that failed. -/
def failure (t : FileTree) (message : String) (out : List String) : CommandOutcome :=
  { tree := t, exitCode := 1, out, err := ["Error: " ++ message] }

/-- Arguments that ask for no command. -/
def refused (t : FileTree) : Refusal → CommandOutcome
  | .help topic => success t (Help.lines topic)
  | .invalid =>
    { tree := t
      exitCode := 2
      err := ["error: invalid arguments", "", "For more information, try '--help'."] }

end CommandOutcome

/-- A run that a command asked for, once it is done. -/
structure StartedRun where
  config : Config
  /-- Whether a report is to be written. -/
  report : Bool
  /-- Whether files that failed make the command fail. -/
  strict : Bool
  now : Timestamp
  outcome : RunOutcome

/-- How far a command has come. -/
inductive Started where
  | finished (outcome : CommandOutcome)
  | analyzed (run : StartedRun)
  /-- The command is to watch the project in a directory. -/
  | watching (config : Config) (root : Path)

namespace Command

/-- Starts a run. -/
def startRun (ctx : RunContext) (config : Config) (t : FileTree) (root : Path)
    (report strict : Bool) : Started :=
  match Recheck.analyze ctx config t root with
  | .error e => .finished (.failure t e.message [])
  | .ok outcome => .analyzed { config, report, strict, now := ctx.now, outcome }

/-- Removes the cache of a project. -/
def clearCache (config : Config) (t : FileTree) (root : Path) : CommandOutcome :=
  let dir := config.cachePath root
  match Store.clear t dir with
  | .ok t => .success t []
  | .error _ => .failure t ("Failed to remove " ++ dir.shown) []

/-- Starts a command with the configuration of its project. -/
def start (ctx : RunContext) (config : Config) (t : FileTree) (root : Path) : Command → Started
  | .analyze noCache report jobs =>
    let config :=
      { config with
        enableCache := config.enableCache && !noCache
        maxParallelism := jobs.getD config.maxParallelism }
    startRun ctx config t root report false
  | .check => startRun ctx { config with strictCycles := true } t root false true
  | .watch => .watching config root
  | .clear => .finished (clearCache config t root)
  | .version => .finished (.success t [versionText])

end Command

/-- Starts what the arguments of the program ask for. -/
def start (ctx : RunContext) (environment : String → Option String) (t : FileTree)
    (arguments : List String) : Started :=
  match Invocation.ofArguments arguments with
  | .error refusal => .finished (.refused t refusal)
  | .ok i =>
    match Config.load t i.root environment with
    | .error _ =>
      .finished (.failure t ("Failed to load configuration from " ++ i.root.shown) [])
    | .ok config => i.command.start ctx config t i.root

/-- Tells about a run that took some time, and writes its report. -/
def StartedRun.finish (r : StartedRun) (elapsedMillis : Nat) : CommandOutcome :=
  let outcome := { r.outcome with analysis := r.outcome.analysis.withElapsed elapsedMillis }
  let outcome := if r.report then outcome.withReport r.config r.now else outcome
  let lines := Summary.lines outcome.analysis
  let failed := outcome.analysis.failedFiles
  if r.strict && failed != 0 then
    .failure outcome.tree (toString failed ++ " files failed analysis") lines
  else .success outcome.tree lines

end Recheck
