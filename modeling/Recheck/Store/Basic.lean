import Recheck.Path
import Recheck.Table
import Recheck.Timestamp

/-!
# The store

What is remembered from one run to the next: for each file the digest of its content and its
modification time, the files that a run left unresolved, and a summary of the last run. The keys are
canonical paths as they are shown, so files whose names are not UTF-8 can share a key, and such a
key names another path than theirs. A store lives in memory, or it stands for a file on disk; then
it also knows whether it has changed since it was last written.
-/

namespace Recheck

/-- What is remembered of a file. -/
structure Record where
  hash : String
  /-- The time of the last change, in milliseconds since 1970. -/
  modified : Int
deriving DecidableEq

/-- A summary of a run. -/
structure RunMetadata where
  lastRun : Timestamp
  fileCount : Nat
  symbolCount : Nat
deriving DecidableEq

/-- A set of texts. -/
abbrev TextSet := Table Unit

/-- The set of the texts of a list. -/
def TextSet.ofTexts (texts : List String) : TextSet := Table.ofList (texts.map fun s => (s, ()))

/-- The content of a store. -/
structure StoreData where
  files : Table Record := Table.empty
  metadata : Option RunMetadata := none
  /-- The files that the last run left unresolved. -/
  pending : TextSet := Table.empty

namespace StoreData

/-- The record of a file. -/
def get? (d : StoreData) (p : Path) : Option Record := d.files.get? p.shown

/-- Every path that a key names. -/
def paths (d : StoreData) : List Path := d.files.keys.map .ofText

/-- The files that the last run left unresolved. -/
def pendingPaths (d : StoreData) : List Path := d.pending.keys.map .ofText

end StoreData

/-- The file that a store stands for. -/
structure StoreFile where
  path : Path
  /-- Whether the store has changed since it was last read or written. -/
  dirty : Bool

/-- A store in memory or on disk. -/
structure Store where
  data : StoreData := {}
  file : Option StoreFile := none

namespace Store

/-- An empty store in memory. -/
def memory : Store := {}

/-- The store with other content. -/
def change (s : Store) (data : StoreData) : Store :=
  { data, file := s.file.map fun f => { f with dirty := true } }

/-- The record of a file. -/
def get? (s : Store) (p : Path) : Option Record := s.data.get? p

/-- The digest remembered for a file. -/
def hash? (s : Store) (p : Path) : Option String := (s.get? p).map (·.hash)

/-- The modification time remembered for a file. -/
def modified? (s : Store) (p : Path) : Option Int := (s.get? p).map (·.modified)

/-- Remembers a record. -/
def put (s : Store) (p : Path) (r : Record) : Store :=
  s.change { s.data with files := s.data.files.put p.shown r }

/-- Forgets the record of a file. -/
def remove (s : Store) (p : Path) : Store :=
  if s.data.files.contains p.shown then
    s.change { s.data with files := s.data.files.erase p.shown }
  else s

/-- Remembers a digest; the time stays, or is zero. -/
def setHash (s : Store) (p : Path) (hash : String) : Store :=
  s.put p ⟨hash, (s.modified? p).getD 0⟩

/-- Remembers a modification time, if there is a record. -/
def setModified (s : Store) (p : Path) (modified : Int) : Store :=
  match s.hash? p with
  | some hash => s.put p ⟨hash, modified⟩
  | none => s

/-- Every path that a key names. -/
def paths (s : Store) : List Path := s.data.paths

/-- The files that the last run left unresolved. -/
def pending (s : Store) : List Path := s.data.pendingPaths

/-- Remembers the files that a run left unresolved. -/
def setPending (s : Store) (paths : List Path) : Store :=
  let pending := TextSet.ofTexts (paths.map (·.shown))
  if pending.keys = s.data.pending.keys then s else s.change { s.data with pending }

/-- Remembers a summary of a run. -/
def saveMetadata (s : Store) (metadata : RunMetadata) : Store :=
  s.change { s.data with metadata := some metadata }

/-- Forgets the records whose keys name none of the given files. Also gives their number. -/
def prune (s : Store) (live : List Path) : Store × Nat :=
  let stale := s.paths.filter fun p => !Path.memSame p live
  (stale.foldl remove s, stale.length)

end Store

end Recheck
