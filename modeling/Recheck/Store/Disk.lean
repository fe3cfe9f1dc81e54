import Recheck.FileTree.Edit
import Recheck.Json.Printer
import Recheck.Json.Reader
import Recheck.Store.Format

/-!
# Stores on disk

A store on disk is the file `cache.json` of a cache directory. Opening never fails: what cannot be
read is an empty store. A flush writes the file beside its place and then moves it there, so that a
failure leaves the old file as it was; it writes nothing if nothing has changed. The system can put
an end to it at every step (`Refusal`), and what was done up to then stays.
-/

namespace Recheck

/-- Why a store cannot be written. -/
structure StoreError where
  path : Path
  cause : OsError
deriving DecidableEq

/-- The text shown for a failure to write a store. -/
def StoreError.message (e : StoreError) : String :=
  "cache I/O error at " ++ e.path.shown ++ ": " ++ e.cause.message

namespace Store

/-- The file of a store in a cache directory. -/
def fileIn (dir : Path) : Path := dir.join ⟨"cache.json"⟩

/-- The content of a store file, empty if it cannot be read. -/
def load (t : FileTree) (file : Path) : StoreData :=
  match t.readText file with
  | .error _ => {}
  | .ok text => ((Json.parse? text).bind StoreData.ofJson?).getD {}

/-- Opens the store in a cache directory. -/
def openIn (t : FileTree) (dir : Path) : Store where
  data := load t (fileIn dir)
  file := some ⟨fileIn dir, false⟩

/-- The text of a store file. -/
def text (d : StoreData) : String := d.toJson.pretty

/-- Where a store file is written before it is moved to its place. -/
def draftOf (file : Path) : Path := ⟨file.text ++ ".tmp"⟩

/-! ## Refusals -/

/-- Where the system can put an end to the writing of a store. -/
inductive Stop where
  /-- No directory is made below the one that many levels up. -/
  | makeDirs (above : Nat)
  /-- The draft is not opened. -/
  | openDraft
  /-- The draft is opened, which empties it, and no more than that many bytes are written. -/
  | writeDraft (count : Nat)
  /-- The draft is not moved to its place. -/
  | moveDraft

/-- An end that the system puts to the writing of a store for its own reasons, such as a full disk
or a lack of permission. -/
structure Refusal where
  stop : Stop
  cause : OsError

namespace Refusal

/-- The directory some levels up, or the last one on the way there. -/
def above : Nat → Path → Path
  | 0, dir => dir
  | n + 1, dir =>
    match dir.parent? with
    | some parent => above n parent
    | none => dir

/-- Makes the directory of a store, unless the system refuses to. -/
def makeDirs (refusal : Option Refusal) (t : FileTree) (dir : Path) :
    FileTree × Option OsError :=
  match refusal with
  | some ⟨.makeDirs levels, cause⟩ => ((t.makeDirs (above levels dir)).1, some cause)
  | _ => t.makeDirs dir

/-- Writes the draft of a store, unless the system refuses to. -/
def write (refusal : Option Refusal) (t : FileTree) (draft : Path) (content : List UInt8) :
    FileTree × Option OsError :=
  match refusal with
  | some ⟨.openDraft, cause⟩ => (t, some cause)
  | some ⟨.writeDraft count, cause⟩ =>
    match t.write draft (content.take count) with
    | .error e => (t, some e)
    | .ok t => (t, some cause)
  | _ =>
    match t.write draft content with
    | .error e => (t, some e)
    | .ok t => (t, none)

/-- Moves the draft of a store to its place, unless the system refuses to. -/
def move (refusal : Option Refusal) (t : FileTree) (draft file : Path) :
    Except OsError FileTree :=
  match refusal with
  | some ⟨.moveDraft, cause⟩ => .error cause
  | _ => t.moveFile draft file

end Refusal

/-! ## Writing -/

/-- Writes the text of a store, unless the system refuses to. Gives the tree that is left, and the
store if all went well. -/
def writeTo (t : FileTree) (s : Store) (file : Path) (refusal : Option Refusal) :
    FileTree × Except StoreError Store :=
  let dir := file.parent?.getD ⟨""⟩
  match Refusal.makeDirs refusal t dir with
  | (t, some cause) => (t, .error ⟨dir, cause⟩)
  | (t, none) =>
    match Refusal.write refusal t (draftOf file) (Text.bytes (text s.data)) with
    | (t, some cause) => (t, .error ⟨draftOf file, cause⟩)
    | (t, none) =>
      match Refusal.move refusal t (draftOf file) file with
      | .error cause => (t, .error ⟨file, cause⟩)
      | .ok t => (t, .ok { s with file := some ⟨file, false⟩ })

/-- Writes a store to disk if it has changed, unless the system refuses to. -/
def flush (t : FileTree) (s : Store) (refusal : Option Refusal := none) :
    FileTree × Except StoreError Store :=
  match s.file with
  | none => (t, .ok s)
  | some file => if file.dirty then writeTo t s file.path refusal else (t, .ok s)

/-- Removes a cache directory, if there is one. -/
def clear (t : FileTree) (dir : Path) : Except OsError FileTree :=
  if t.exists? dir then t.removeDir dir else .ok t

end Store

end Recheck
