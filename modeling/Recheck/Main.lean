import Recheck.Command.Execute
import Recheck.Digest.Blake3
import Recheck.Watch.Session
import Std.Data.HashSet
import Std.Time.DateTime.Timestamp

/-!
# The program

Reads the part of the file system that a command can see into a file tree, carries the command out
on the tree, and writes back what has changed. Links are not followed, and the system hands over
names as texts.
-/

namespace Recheck.Program

/-! ## Reading the file system -/

/-- The names along an absolute path. -/
def locationOf (p : Path) : Location :=
  p.normalize.components.filterMap fun component =>
    match component with
    | .name name => some name
    | _ => none

/-- The directory entry at a location below the root. -/
def dirEntry (location : Location) : IO.FS.DirEntry :=
  ⟨(Path.ofNames location.dropLast).shown, Text.shown (location.getLast?.getD "")⟩

/-- A time in milliseconds since 1970. -/
def millisOf (time : IO.FS.SystemTime) : Int := time.sec * 1000 + time.nsec.toNat / 1000000

/-- Reads the entry at a location. -/
def readEntry? (location : Location) : IO (Option Entry) := do
  let path := (dirEntry location).path
  match ← path.symlinkMetadata.toBaseIO with
  | .error _ => return none
  | .ok data =>
    let time := millisOf data.modified
    match data.type with
    | .dir => return some (.dir time)
    | .file =>
      match ← (IO.FS.readBinFile path).toBaseIO with
      | .ok content => return some (.file content.toList time true)
      | .error _ => return some (.file [] time false)
    | _ => return none

/-- Reads the entry at a location and all below it. -/
partial def readBelow (location : Location) : IO (List (Location × Entry)) := do
  match ← readEntry? location with
  | none => return []
  | some (.dir time) =>
    match ← (dirEntry location).path.readDir.toBaseIO with
    | .error _ => return [(location, .dir time)]
    | .ok children =>
      let below ← children.toList.mapM fun child =>
        readBelow (location ++ [Text.encoded child.fileName])
      return (location, .dir time) :: below.flatten
  | some entry => return [(location, entry)]

/-- Reads the directories that lead to a location, with their ignore files. -/
def readAbove (location : Location) : IO (List (Location × Entry)) := do
  let dirs := (List.range location.length).map fun n => location.take n
  let places := dirs.flatMap fun dir => dir :: Ignore.fileNames.map (dir ++ ·)
  let entries ← (places.filter (!·.isEmpty)).mapM fun place => do
    return (← readEntry? place).map fun entry => (place, entry)
  return entries.filterMap id

/-- The entries without those at a location that came before. -/
def distinctEntries (entries : List (Location × Entry)) : List (Location × Entry) :=
  (entries.foldl
    (fun (kept, seen) e =>
      let text := (Path.ofNames e.1).text
      if seen.contains text then (kept, seen) else (e :: kept, seen.insert text))
    (([] : List (Location × Entry)), (∅ : Std.HashSet String))).1.reverse

/-- Reads what a command can see of a project: its configuration, manifest, sources and cache, and
the ignore files in effect. -/
def readProject (root : Path) (config : Config) (now : Int) : IO FileTree := do
  let workDir : Path := .ofText (← IO.currentDir).toString
  let root := workDir.join root
  let single := [root, root.join ⟨Config.fileName⟩, root.join (.ofText config.manifest),
    config.reportsPath root].map locationOf
  let whole := [root.join (.ofText config.sourceDir), config.cachePath root].map locationOf
  let above ← (locationOf workDir :: single ++ whole).mapM readAbove
  let own ← (locationOf workDir :: single).mapM fun location => do
    return (← readEntry? location).toList.map fun entry => (location, entry)
  let below ← whole.mapM readBelow
  return {
    entries := distinctEntries (above.flatten ++ own.flatten ++ below.flatten)
    workDir := locationOf workDir
    clock := now }

/-! ## Writing back -/

/-- The path of a location, as the system takes it. -/
def pathText (location : Location) : String := (Path.ofNames location).shown

/-- Makes the file system agree with a tree, given the tree that was read from it. -/
def writeBack (old new : FileTree) : IO Unit := do
  for (location, entry) in old.entries do
    if (new.get? location).isNone && (new.get? location.dropLast).isSome then
      if entry.isDir then IO.FS.removeDirAll (pathText location)
      else IO.FS.removeFile (pathText location)
  for (location, entry) in new.entries do
    match entry, old.get? location with
    | .dir _, none => IO.FS.createDirAll (pathText location)
    | .file content _ _, previous =>
      let isSame :=
        match previous with
        | some (.file before _ _) => before == content
        | _ => false
      unless isSame do
        let draft := pathText location ++ ".part"
        IO.FS.writeBinFile draft ⟨content.toArray⟩
        IO.FS.rename draft (pathText location)
    | .dir _, some _ => pure ()

/-- Writes back what has changed, and says so if that fails. -/
def tryWriteBack (old new : FileTree) : IO Unit := do
  match ← (writeBack old new).toBaseIO with
  | .ok _ => pure ()
  | .error e => IO.eprintln (toString e)

/-! ## Commands -/

/-- Prints what a command has to say and gives its exit code. -/
def tell (o : CommandOutcome) : IO UInt32 := do
  o.out.forM IO.println
  o.err.forM IO.eprintln
  return o.exitCode.toUInt32

/-- The present time, in milliseconds since 1970. -/
def clockMillis : IO Int := return (← Std.Time.Timestamp.now).toMillisecondsSinceUnixEpoch.val

/-- What a run at the present time takes from its surroundings. -/
def contextAt (now : Int) : RunContext where
  digest := Digest.blake3
  now := (Timestamp.ofMillis? now).getD Timestamp.epoch

/-- The settings in the environment of the program. -/
def environment : IO (String → Option String) := do
  let settings ← Config.environmentNames.mapM fun name => return (name, ← IO.getEnv name)
  return fun name => (settings.lookup name).join

/-- Prints the summary of a run of a session. Gives the tree that the run leaves behind. -/
def tellRun (t : FileTree) (outcome : Except AnalysisError RunOutcome) : IO FileTree := do
  match outcome with
  | .ok o =>
    tryWriteBack t o.tree
    (Summary.lines o.analysis).forM IO.println
    (← IO.getStdout).flush
    return o.tree
  | .error e =>
    IO.eprintln ("Analysis failed: " ++ e.message)
    return t

/-- How long no edit may come before a session runs, in milliseconds. -/
def quietPeriod : UInt32 := 300

/-- Keeps a session going. The edits that came since its last run are waiting. -/
partial def keepWatching (session : WatchSession) (t : FileTree) (waiting : List Edit) :
    IO UInt32 := do
  IO.sleep quietPeriod
  let now ← clockMillis
  let present ← readProject session.root session.config now
  let edits := editsBetween t present
  if edits.isEmpty then
    match session.respond (contextAt now) present waiting with
    | none => keepWatching session present []
    | some outcome => keepWatching session (← tellRun present outcome) []
  else keepWatching session present (waiting ++ edits)

/-- Watches a project. -/
def watch (config : Config) (t : FileTree) (root : Path) (now : Int) : IO UInt32 := do
  match WatchSession.start config t root with
  | .error e => tell (.failure t e.message [])
  | .ok session => keepWatching session (← tellRun t (session.run (contextAt now) t)) []

/-- Carries out what an invocation asks for. -/
def carryOut (i : Invocation) (arguments : List String) : IO UInt32 := do
  let environment ← environment
  let now ← clockMillis
  let config := Config.load (← readProject i.root {} now) i.root environment
  let config := config.toOption.getD {}
  if i.verbose || config.verboseLogging then
    IO.eprintln (versionText ++ ", project root: " ++ i.root.shown)
  let t ← readProject i.root config now
  let startTime ← IO.monoMsNow
  match start (contextAt now) environment t arguments with
  | .finished outcome =>
    tryWriteBack t outcome.tree
    tell outcome
  | .analyzed run =>
    let outcome := run.finish ((← IO.monoMsNow) - startTime)
    tryWriteBack t outcome.tree
    tell outcome
  | .watching config root => watch config t root now

end Recheck.Program

def main (arguments : List String) : IO UInt32 :=
  match Recheck.Invocation.ofArguments arguments with
  | .ok i => Recheck.Program.carryOut i arguments
  | .error refusal => Recheck.Program.tell (.refused {} refusal)
