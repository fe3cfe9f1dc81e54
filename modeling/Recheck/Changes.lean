import Recheck.Digest
import Recheck.FileTree.Basic
import Recheck.Graph.Dependents
import Recheck.Store.Basic

/-!
# Change detection

Which files a run has to treat as changed. Each file is checked against its record on its own: the
same modification time settles that it has not changed, otherwise the digest of the content decides.
A changed file takes its transitive dependents with it. So does a file that refers to a file with a
record that is not there any more, and a file that an earlier run left unresolved.

New records are not stored at once but staged, and stored for the files that resolve, so a file that
fails keeps the record it had.
-/

namespace Recheck

/-- What the check of a file against its record found. -/
inductive FileCheck where
  /-- The file does not exist. -/
  | missing
  /-- The record has the modification time of the file. -/
  | current
  /-- The content has not changed, the modification time has. -/
  | touched (record : Record)
  | modified (record : Record)
  /-- The file exists but cannot be read. -/
  | unreadable (record : Record)
deriving DecidableEq

namespace FileCheck

/-- Whether the file counts as changed. -/
def isChanged : FileCheck → Bool
  | missing => true
  | modified _ => true
  | unreadable _ => true
  | current => false
  | touched _ => false

/-- The record to store once the file has resolved. -/
def staged? : FileCheck → Option Record
  | touched record => some record
  | modified record => some record
  | unreadable record => some record
  | missing => none
  | current => none

/-- Whether the content of the file was read. -/
def isHashed : FileCheck → Bool
  | touched _ => true
  | modified _ => true
  | _ => false

/-- Whether the file exists but cannot be read. -/
def isUnreadable : FileCheck → Bool
  | unreadable _ => true
  | _ => false

/-- The record that stands for a file that cannot be read. -/
def fallback (digest : Digest) (p : Path) : Record := ⟨digest.ofUnreadable p, 0⟩

/-- Checks a file against its record. -/
def run (digest : Digest) (t : FileTree) (prior : Option Record) (p : Path) : FileCheck :=
  match t.stat p with
  | .error .notFound => missing
  | .error _ => unreadable (fallback digest p)
  | .ok entry =>
    if prior.any fun r => r.modified = entry.modifiedMillis then current
    else
      match t.read p with
      | .error _ => unreadable (fallback digest p)
      | .ok content =>
        let record : Record := ⟨digest.ofContent content, entry.modifiedMillis⟩
        if prior.any fun r => r.hash = record.hash then touched record else modified record

end FileCheck

/-- The files that a run treats as changed, and the records to store as they resolve. -/
structure Changes where
  changeSet : List Path := []
  staged : List (Path × Record) := []
  /-- The number of files whose modification time settled the check. -/
  quickSkips : Nat := 0
  /-- The number of files that were read. -/
  hashComputations : Nat := 0
  unreadable : List Path := []
  /-- Files with a record that are referred to but do not exist. -/
  deleted : List Path := []
  /-- Files that an earlier run left unresolved. -/
  carried : List Path := []

namespace Changes

/-- Every file changed and nothing staged. -/
def allChanged (files : List Path) : Changes := { changeSet := Path.distinct files }

/-- Whether a file is in the change set. -/
def contains (c : Changes) (p : Path) : Bool := Path.memSame p c.changeSet

/-- Puts a file and its transitive dependents into the change set. With a file that is in it, its
dependents are in it already. -/
def invalidate (g : Graph) (c : Changes) (p : Path) : Changes :=
  if c.contains p then c
  else { c with changeSet := (p :: g.transitiveDependents p).foldl Path.insert c.changeSet }

/-- The staged records with one for the path `p`. -/
def stage (staged : List (Path × Record)) (p : Path) (r : Record) : List (Path × Record) :=
  if staged.any fun e => decide (Path.Same e.1 p) then
    staged.map fun e => if Path.Same e.1 p then (e.1, r) else e
  else staged ++ [(p, r)]

/-- Takes the check of a file into account. -/
def addCheck (g : Graph) (c : Changes) (p : Path) (check : FileCheck) : Changes :=
  let c :=
    { c with
      quickSkips := c.quickSkips + if check = .current then 1 else 0
      hashComputations := c.hashComputations + if check.isHashed then 1 else 0
      unreadable := if check.isUnreadable then Path.insert c.unreadable p else c.unreadable }
  let c := if check.isChanged then c.invalidate g p else c
  match check.staged? with
  | some r => { c with staged := stage c.staged p r }
  | none => c

/-- Takes the missing files that a file refers to into account. -/
def addMissing (g : Graph) (data : StoreData) (c : Changes) (e : Path × List Path) : Changes :=
  let deleted := e.2.filter fun target => (data.get? target).isSome
  if deleted.isEmpty then c
  else { c with deleted := deleted.foldl Path.insert c.deleted }.invalidate g e.1

/-- Takes a file that an earlier run left unresolved into account. -/
def addPending (g : Graph) (c : Changes) (p : Path) : Changes :=
  if g.contains p then
    let c := c.invalidate g p
    { c with carried := Path.insert c.carried p }
  else c

/-- The changes among files against a store. `missing` lists, for each file that has some, the files
it refers to that are not in the project. -/
def detect (digest : Digest) (t : FileTree) (g : Graph) (missing : List (Path × List Path))
    (files : List Path) (data : StoreData) : Changes :=
  let c := files.foldl
    (fun c p => c.addCheck g p (FileCheck.run digest t (data.get? p) p)) ({} : Changes)
  let c := missing.foldl (addMissing g data) c
  data.pendingPaths.foldl (addPending g) c

/-- The staged record of a file. -/
def staged? (c : Changes) (p : Path) : Option Record :=
  (c.staged.find? fun e => decide (Path.Same e.1 p)).map (·.2)

/-- Stores the staged record of a file, if it has one. -/
def commit (c : Changes) (s : Store) (p : Path) : Store :=
  match c.staged? p with
  | some r => s.put p r
  | none => s

/-- Stores all staged records. -/
def commitAll (c : Changes) (s : Store) : Store := c.staged.foldl (fun s e => s.put e.1 e.2) s

/-- The files of the change set that are not done, in order. -/
def unfinished (c : Changes) (done : Path → Bool) : List Path :=
  Path.sort (c.changeSet.filter fun p => !done p)

end Changes

end Recheck
