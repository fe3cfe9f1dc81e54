import Recheck.FileTree.Basic
import Recheck.Ignore.Rule

/-!
# Ignored entries of a file tree

Each directory may have three ignore files, which speak of everything below it: `.ignore`,
`.gitignore`, and `.git/info/exclude`. Those of the first kind are heard before those of the second,
and these before those of the third; among files of one kind the nearest is heard first. Entries
whose names start with a dot are left out unless a rule includes them.
-/

namespace Recheck.Ignore

/-- The ignore files of a directory, the kind that is heard first at the front. -/
def fileNames : List (List String) := [[".ignore"], [".gitignore"], [".git", "info", "exclude"]]

/-- The rules of the ignore files of a directory, one list for each kind. -/
structure DirRules where
  dir : Location
  kinds : List (List Rule)

/-- The rules in the file at a location. -/
def rulesAt (t : FileTree) (location : Location) : List Rule :=
  match t.get? location with
  | some (.file content _ true) => rulesOf content
  | _ => []

/-- The rules of a directory, if it has any. -/
def dirRules? (t : FileTree) (dir : Location) : Option DirRules :=
  let kinds := fileNames.map fun name => rulesAt t (dir ++ name)
  if kinds.all List.isEmpty then none else some { dir, kinds }

/-- All directories of a tree. -/
def dirsOf (t : FileTree) : List Location :=
  [] :: t.entries.filterMap fun e => if e.2.isDir then some e.1 else none

/-- The rules of all directories. -/
def allRules (t : FileTree) : List DirRules := (dirsOf t).filterMap (dirRules? t)

/-- The rules that speak of a location, the nearest first. -/
def rulesFor (rules : List DirRules) (location : Location) : List DirRules :=
  (rules.filter fun r => r.dir.length < location.length && r.dir.isPrefixOf location).mergeSort
    fun a b => b.dir.length ≤ a.dir.length

/-- What the ignore files of one kind say about a location. -/
def kindVerdict? (rules : List DirRules) (location : Location) (isDir : Bool) (kind : Nat) :
    Option Verdict :=
  rules.findSome? fun r =>
    verdict? (r.kinds[kind]?.getD []) ⟨"/".intercalate (location.drop r.dir.length)⟩ isDir

/-- What all ignore files say about a location. -/
def verdictAt? (rules : List DirRules) (location : Location) (isDir : Bool) : Option Verdict :=
  let rules := rulesFor rules location
  (List.range fileNames.length).findSome? (kindVerdict? rules location isDir)

/-- Whether a name is hidden. -/
def isHidden (name : String) : Bool := name.toList.head? == some '.'

/-- Whether an entry is left out. -/
def isLeftOut (rules : List DirRules) (location : Location) (isDir : Bool) : Bool :=
  match verdictAt? rules location isDir with
  | some .ignored => true
  | some .included => false
  | none => location.getLast?.any isHidden

/-- The steps from a directory to a location: the location itself and what lies between them. -/
def steps (dir location : Location) : List Location :=
  (List.range (location.length - dir.length)).map fun n => location.take (dir.length + n + 1)

/-- Whether an entry is reached from a directory: nothing on the way is left out. -/
def isReached (rules : List DirRules) (dir location : Location) (isDir : Bool) : Bool :=
  (steps dir location).all fun step =>
    !isLeftOut rules step (step.length < location.length || isDir)

/-- The files that are reached from a directory. -/
def filesBelow (t : FileTree) (dir : Location) : List Location :=
  let rules := allRules t
  t.entries.filterMap fun e =>
    let isBelow := dir.length < e.1.length && dir.isPrefixOf e.1
    if !e.2.isDir && isBelow && isReached rules dir e.1 false then some e.1 else none

end Recheck.Ignore
