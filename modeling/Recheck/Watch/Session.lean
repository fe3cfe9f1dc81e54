import Recheck.Analysis.Run
import Recheck.Watch.Filter

/-!
# Watching a project

A watcher reports the edits below the directories it watches, as far as its filter finds them
relevant. A watch session runs over a project at its start and again after each batch of edits that
is reported.
-/

namespace Recheck

/-- What happened to an entry. -/
inductive EditKind where
  | created
  | modified
  | removed
deriving DecidableEq

/-- An edit of a file tree. -/
structure Edit where
  kind : EditKind
  location : Location
deriving DecidableEq

/-- What happened at a location, given the entries there before and after. -/
def EditKind.between? : Option Entry → Option Entry → Option EditKind
  | none, some _ => some .created
  | some _, none => some .removed
  | some (.file old oldTime _), some (.file new newTime _) =>
    if old = new ∧ oldTime = newTime then none else some .modified
  | some (.dir _), some (.dir _) => none
  | some _, some _ => some .modified
  | none, none => none

/-- The edits that lead from one tree to another. -/
def editsBetween (old new : FileTree) : List Edit :=
  let added := (new.entries.map (·.1)).filter fun l => (old.get? l).isNone
  (old.entries.map (·.1) ++ added).filterMap fun l =>
    (EditKind.between? (old.get? l) (new.get? l)).map fun kind => ⟨kind, l⟩

/-- The report of an edit. -/
structure WatchEvent where
  kind : EditKind
  path : Path
deriving DecidableEq

/-- A watcher of directories. -/
structure FileWatcher where
  filter : PathFilter
  watched : List Path := []

namespace FileWatcher

/-- Whether a directory is watched. -/
def isWatching (w : FileWatcher) (dir : Path) : Bool := Path.memSame dir w.watched

/-- Watches a directory, if it exists. -/
def watch? (w : FileWatcher) (t : FileTree) (dir : Path) : Option FileWatcher :=
  if t.exists? dir then some { w with watched := Path.insert w.watched dir } else none

/-- Watches a directory no more. -/
def unwatch (w : FileWatcher) (dir : Path) : FileWatcher :=
  { w with watched := w.watched.filter fun p => !decide (Path.Same p dir) }

/-- The path to a location below a directory, as the directory is spelled. -/
def pathBelow? (t : FileTree) (dir : Path) (location : Location) : Option Path :=
  match t.locate dir with
  | .error _ => none
  | .ok start =>
    if start.isPrefixOf location && start.length < location.length then
      some (dir.join ⟨"/".intercalate (location.drop start.length)⟩)
    else none

/-- The reports of edits below watched directories. -/
def events (w : FileWatcher) (t : FileTree) (edits : List Edit) : List WatchEvent :=
  edits.flatMap fun e =>
    let seen := w.watched.filterMap fun dir => pathBelow? t dir e.location
    (seen.filter w.filter.isRelevant).map fun p => ⟨e.kind, p⟩

end FileWatcher

/-- Why a session cannot start. -/
inductive WatchError where
  | glob (cause : GlobError)
  /-- The root does not exist. -/
  | missingRoot (root : Path)
  /-- The source directory does not exist. -/
  | missingSource (dir : Path)

/-- The text shown for a session that cannot start. -/
def WatchError.message : WatchError → String
  | glob cause => (ConfigError.glob cause).message
  | missingRoot root => "Cannot watch " ++ root.shown
  | missingSource dir => "No path was found. about [\"" ++ dir.shown ++ "\"]"

/-- A session over a project. -/
structure WatchSession where
  config : Config
  /-- The canonical root of the project. -/
  root : Path
  watcher : FileWatcher

namespace WatchSession

/-- Starts a session. -/
def start (config : Config) (t : FileTree) (root : Path) : Except WatchError WatchSession :=
  match t.canonicalize root with
  | .error _ => .error (.missingRoot root)
  | .ok root =>
    match PathFilter.ofConfig root config with
    | .error e => .error (.glob e)
    | .ok filter =>
      let dir := root.join ⟨config.sourceDir⟩
      match FileWatcher.watch? { filter } t dir with
      | none => .error (.missingSource dir)
      | some watcher => .ok { config, root, watcher }

/-- Runs over the project. -/
def run (s : WatchSession) (ctx : RunContext) (t : FileTree) : Except AnalysisError RunOutcome :=
  analyze ctx s.config t s.root

/-- Runs over the project after a batch of edits, if one of them is reported. -/
def respond (s : WatchSession) (ctx : RunContext) (t : FileTree) (edits : List Edit) :
    Option (Except AnalysisError RunOutcome) :=
  if (s.watcher.events t edits).isEmpty then none else some (s.run ctx t)

end WatchSession

end Recheck
