import Recheck.Path
import Recheck.Text.Utf8

/-!
# File trees

The files that an analysis sees, as a value. A tree maps locations to files and directories; a
location is the list of names that leads to it from the root. A path is resolved against a tree name
by name, so `..` after a name asks for the directory that contains what the name leads to. Names are
strings of bytes, as in paths, and need not be UTF-8.

There are no links, so each entry has one location, and the path through it is the canonical one.
-/

namespace Recheck

/-- Why the system refuses to do something with a path. -/
inductive OsError where
  | notFound
  | permissionDenied
  | alreadyExists
  | notDirectory
  | isDirectory
  | noSpace
  | nameTooLong
  /-- The path holds a zero byte. -/
  | zeroByte
deriving DecidableEq

/-- The text shown for a refusal. -/
def OsError.message : OsError → String
  | notFound => "No such file or directory (os error 2)"
  | permissionDenied => "Permission denied (os error 13)"
  | alreadyExists => "File exists (os error 17)"
  | notDirectory => "Not a directory (os error 20)"
  | isDirectory => "Is a directory (os error 21)"
  | noSpace => "No space left on device (os error 28)"
  | nameTooLong => "File name too long (os error 36)"
  | zeroByte => "file name contained an unexpected NUL byte"

/-- The names that lead to an entry from the root, each with one character for each byte. -/
abbrev Location := List String

/-- A file or a directory. Times are in milliseconds since 1970. -/
inductive Entry where
  | file (content : List UInt8) (modified : Int) (readable : Bool)
  | dir (modified : Int)

namespace Entry

/-- The time of the last change. -/
def modified : Entry → Int
  | file _ modified _ => modified
  | dir modified => modified

/-- The time of the last change as it is remembered: times before 1970 count as zero. -/
def modifiedMillis (e : Entry) : Int := if e.modified < 0 then 0 else e.modified

/-- Whether the entry is a directory. -/
def isDir : Entry → Bool
  | dir _ => true
  | file .. => false

/-- The entry with another time of the last change. -/
def withModified (time : Int) : Entry → Entry
  | file content _ readable => file content time readable
  | dir _ => dir time

end Entry

/-- The files and directories that a program sees. -/
structure FileTree where
  /-- Everything but the root directory. -/
  entries : List (Location × Entry) := []
  /-- Where relative paths start. -/
  workDir : Location := []
  /-- The present time, in milliseconds since 1970. -/
  clock : Int := 1

namespace FileTree

/-- The entry at a location. -/
def get? (t : FileTree) (location : Location) : Option Entry :=
  if location = [] then some (.dir 0)
  else (t.entries.find? fun e => e.1 = location).map (·.2)

/-- The tree with `entry` at a location. -/
def put (t : FileTree) (location : Location) (entry : Entry) : FileTree :=
  { t with entries := (t.entries.filter fun e => e.1 ≠ location) ++ [(location, entry)] }

/-! ## Resolving paths -/

/-- What a path leads to. -/
inductive Place where
  /-- An entry. -/
  | entry (location : Location) (entry : Entry)
  /-- A name that a directory does not have. -/
  | vacant (dir : Location) (name : String)

/-- The largest number of bytes in a name. -/
def maxName : Nat := 255

/-- The largest number of bytes in a path. -/
def maxPath : Nat := 4095

/-- Follows components from a location. -/
def follow (t : FileTree) (location : Location) : List Component → Except OsError Place
  | [] =>
    match t.get? location with
    | some entry => .ok (.entry location entry)
    | none => .error .notFound
  | component :: rest =>
    match t.get? location with
    | none => .error .notFound
    | some (.file ..) => .error .notDirectory
    | some (.dir _) =>
      match component with
      | .root => t.follow location rest
      | .here => t.follow location rest
      | .up => t.follow location.dropLast rest
      | .name name =>
        if name.length > maxName then .error .nameTooLong
        else
          match t.get? (location ++ [name]) with
          | some _ => t.follow (location ++ [name]) rest
          | none => if rest.isEmpty then .ok (.vacant location name) else .error .notFound

/-- Whether a spelling can only name a directory. -/
def spellsDir (p : Path) : Bool :=
  match p.text.toList.reverse with
  | '/' :: _ => true
  | '.' :: '/' :: _ => true
  | _ => false

/-- What a path leads to. -/
def resolve (t : FileTree) (p : Path) : Except OsError Place :=
  if p.text.toList.contains '\x00' then .error .zeroByte
  else if p.text.isEmpty then .error .notFound
  else if p.text.length > maxPath then .error .nameTooLong
  else
    match t.follow (if p.isAbsolute then [] else t.workDir) p.components with
    | .ok (.entry location entry) =>
      if spellsDir p && !entry.isDir then .error .notDirectory else .ok (.entry location entry)
    | outcome => outcome

/-- The entry that a path leads to. -/
def stat (t : FileTree) (p : Path) : Except OsError Entry :=
  match t.resolve p with
  | .ok (.entry _ entry) => .ok entry
  | .ok (.vacant _ _) => .error .notFound
  | .error e => .error e

/-- The location of what a path leads to. -/
def locate (t : FileTree) (p : Path) : Except OsError Location :=
  match t.resolve p with
  | .ok (.entry location _) => .ok location
  | .ok (.vacant _ _) => .error .notFound
  | .error e => .error e

/-- The canonical path to what a path leads to. -/
def canonicalize (t : FileTree) (p : Path) : Except OsError Path := (t.locate p).map Path.ofNames

/-- Whether a path leads to something. -/
def exists? (t : FileTree) (p : Path) : Bool := (t.stat p).isOk

/-- Whether a path leads to a directory. -/
def isDir (t : FileTree) (p : Path) : Bool :=
  match t.stat p with
  | .ok entry => entry.isDir
  | .error _ => false

/-- Whether a path leads to a file. -/
def isFile (t : FileTree) (p : Path) : Bool :=
  match t.stat p with
  | .ok entry => !entry.isDir
  | .error _ => false

/-! ## Reading -/

/-- The content of a file. -/
def read (t : FileTree) (p : Path) : Except OsError (List UInt8) :=
  match t.stat p with
  | .ok (.file content _ readable) => if readable then .ok content else .error .permissionDenied
  | .ok (.dir _) => .error .isDirectory
  | .error e => .error e

/-- Why a text cannot be read. -/
inductive ReadError where
  | os (cause : OsError)
  /-- The content is not UTF-8. -/
  | notText
deriving DecidableEq

/-- The text shown for a failure to read. -/
def ReadError.message : ReadError → String
  | os cause => cause.message
  | notText => "stream did not contain valid UTF-8"

/-- The content of a file as text. -/
def readText (t : FileTree) (p : Path) : Except ReadError String :=
  match t.read p with
  | .error e => .error (.os e)
  | .ok content =>
    match Text.ofBytes? content with
    | some text => .ok text
    | none => .error .notText

end FileTree

end Recheck
