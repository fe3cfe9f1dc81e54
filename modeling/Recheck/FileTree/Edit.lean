import Recheck.FileTree.Basic

/-!
# Changing file trees

Each operation gives the tree that it leaves behind. One that changes which names a directory has
also sets the time of that directory.
-/

namespace Recheck

namespace FileTree

/-- Sets the time of the entry at a location. -/
def stamp (t : FileTree) (location : Location) (time : Int) : FileTree :=
  { t with
    entries := t.entries.map fun e => if e.1 = location then (e.1, e.2.withModified time) else e }

/-- Puts an entry under a name of a directory. -/
def enter (t : FileTree) (dir : Location) (name : String) (entry : Entry) : FileTree :=
  (t.put (dir ++ [name]) entry).stamp dir t.clock

/-- Removes an entry and all below it. -/
def drop (t : FileTree) (location : Location) : FileTree :=
  { t with entries := t.entries.filter fun e => !location.isPrefixOf e.1 }.stamp
    location.dropLast t.clock

/-- Makes a directory in an existing one. -/
def makeDir (t : FileTree) (p : Path) : Except OsError FileTree :=
  match t.resolve p with
  | .ok (.entry _ _) => .error .alreadyExists
  | .ok (.vacant dir name) => .ok (t.enter dir name (.dir t.clock))
  | .error e => .error e

/-- Makes a directory and those that lead to it, unless it exists. What was made before a failure
stays. A path has fewer parents than characters, so its length is fuel enough. -/
def makeDirsFuel : (fuel : Nat) → FileTree → Path → FileTree × Option OsError
  | 0, t, _ => (t, none)
  | fuel + 1, t, p =>
    if p.text.isEmpty then (t, none)
    else
      match t.makeDir p with
      | .ok t => (t, none)
      | .error .notFound =>
        match p.parent? with
        | none => (t, some .notFound)
        | some parent =>
          match makeDirsFuel fuel t parent with
          | (t, some e) => (t, some e)
          | (t, none) =>
            match t.makeDir p with
            | .ok t => (t, none)
            | .error e => (t, if t.isDir p then none else some e)
      | .error e => (t, if t.isDir p then none else some e)

/-- Makes a directory and those that lead to it, unless it exists. What was made before a failure
stays. -/
def makeDirs (t : FileTree) (p : Path) : FileTree × Option OsError :=
  makeDirsFuel (p.text.length + 1) t p

/-- Writes a file, whether it exists or not. -/
def write (t : FileTree) (p : Path) (content : List UInt8) : Except OsError FileTree :=
  match t.resolve p with
  | .ok (.entry location (.file _ _ readable)) =>
    .ok (t.put location (.file content t.clock readable))
  | .ok (.entry _ (.dir _)) => .error .isDirectory
  | .ok (.vacant dir name) =>
    if spellsDir p then .error .isDirectory
    else .ok (t.enter dir name (.file content t.clock true))
  | .error e => .error e

/-- Moves a file to another path and replaces what file is there. -/
def moveFile (t : FileTree) (source target : Path) : Except OsError FileTree :=
  match t.resolve source with
  | .error e => .error e
  | .ok (.vacant _ _) => .error .notFound
  | .ok (.entry old entry) =>
    match t.resolve target with
    | .error e => .error e
    | .ok (.entry _ (.dir _)) => .error .isDirectory
    | .ok (.entry new (.file ..)) =>
      if old = new then .ok t
      else .ok (((t.drop old).put new entry).stamp new.dropLast t.clock)
    | .ok (.vacant dir name) =>
      if spellsDir target then .error .notDirectory
      else .ok ((t.drop old).enter dir name entry)

/-- Removes a file. -/
def removeFile (t : FileTree) (p : Path) : Except OsError FileTree :=
  match t.resolve p with
  | .ok (.entry location (.file ..)) => .ok (t.drop location)
  | .ok (.entry _ (.dir _)) => .error .isDirectory
  | .ok (.vacant _ _) => .error .notFound
  | .error e => .error e

/-- Removes a directory and all in it. -/
def removeDir (t : FileTree) (p : Path) : Except OsError FileTree :=
  match t.resolve p with
  | .ok (.entry location (.dir _)) => .ok (t.drop location)
  | .ok (.entry _ (.file ..)) => .error .notDirectory
  | .ok (.vacant _ _) => .error .notFound
  | .error e => .error e

/-- Sets the time of the last change. -/
def setModified (t : FileTree) (p : Path) (time : Int) : Except OsError FileTree :=
  match t.resolve p with
  | .ok (.entry location _) => .ok (t.stamp location time)
  | .ok (.vacant _ _) => .error .notFound
  | .error e => .error e

end FileTree

end Recheck
