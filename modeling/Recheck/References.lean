import Recheck.Config.Basic
import Recheck.Ignore.Tree
import Recheck.Project
import Recheck.Source.Directives

/-!
# References between source files

The source files of a project, and which of them refer to which. A reference is internal if it leads
into the project by its form: a relative path, or a path in the project's own package. It gives an
edge if a source file is there; otherwise the file is missing, and the reference counts as external
as well.
-/

namespace Recheck

/-! ## Source files -/

/-- Why the source files of a project cannot be listed. -/
structure ScanError where
  dir : Path
deriving DecidableEq

/-- The text shown for a source directory that cannot be scanned. -/
def ScanError.message (e : ScanError) : String :=
  "cannot scan source directory " ++ e.dir.shown ++ ": not a directory"

/-- Whether the file at a location below the source directory, which is at `start`, is a source
file. -/
def isSource (project : Project) (extensions : List String) (excludes : List Glob)
    (start location : Location) : Bool :=
  let p := project.sourceDir.join ⟨"/".intercalate (location.drop start.length)⟩
  hasExtension extensions p && !Glob.anyMatch excludes (p.relativeTo project.root)

/-- The source files of a project as canonical paths, in order. -/
def sourceFiles (t : FileTree) (project : Project) (extensions : List String)
    (excludes : List Glob) : Except ScanError (List Path) :=
  match t.resolve project.sourceDir with
  | .ok (.entry start (.dir _)) =>
    let locations := (Ignore.filesBelow t start).filter (isSource project extensions excludes start)
    .ok (Path.distinct (Path.sort (locations.map Path.ofNames)))
  | _ => .error ⟨project.sourceDir⟩

/-! ## Classifying references -/

/-- Whether a reference starts with a scheme: a colon comes before any slash. -/
def hasScheme (reference : List Char) : Bool :=
  reference.contains ':' && !(reference.takeWhile (· ≠ ':')).contains '/'

/-- The path that a reference in a file leads to, if it is internal. -/
def target? (project : Project) (file : Path) (reference : List Char) : Option Path :=
  match Text.stripStart? "package:".toList reference with
  | some rest =>
    (Text.stripStart? (project.packageName.toList ++ ['/']) rest).map fun inner =>
      (project.sourceDir.join (.ofText (String.ofList inner))).normalize
  | none =>
    if hasScheme reference then none
    else file.parent?.map fun dir => (dir.join (.ofText (String.ofList reference))).normalize

/-! ## Collecting references -/

/-- What the references of one file lead to. -/
structure FileReferences where
  /-- The source files, each once. -/
  dependencies : List Path := []
  /-- The references that lead to no source file. -/
  external : List String := []
  /-- Where the internal ones among them lead. -/
  missing : List Path := []

/-- Adds a reference. -/
def FileReferences.add (project : Project) (files : List Path) (file : Path)
    (r : FileReferences) (reference : List Char) : FileReferences :=
  match target? project file reference with
  | some target =>
    if Path.memSame target files then
      if Path.memSame target r.dependencies then r
      else { r with dependencies := r.dependencies ++ [target] }
    else
      { r with
        external := r.external ++ [String.ofList reference]
        missing := r.missing ++ [target] }
  | none => { r with external := r.external ++ [String.ofList reference] }

/-- The references of a file. A file that is no text has none. -/
def fileReferences (t : FileTree) (project : Project) (files : List Path) (file : Path) :
    FileReferences :=
  match t.readText file with
  | .error _ => {}
  | .ok text => (Source.references text.toList).foldl (FileReferences.add project files file) {}

/-- The source files of a project and the references between them. -/
structure References where
  /-- Every source file, in order. -/
  files : List Path
  /-- The pairs (dependent, dependency). -/
  edges : List (Path × Path)
  /-- The references that lead to no source file, for each file that has some. -/
  external : List (Path × List String)
  /-- The files that internal references lead to and that are not there, for each file that has
  some. -/
  missing : List (Path × List Path)

/-- The source files of a project and the references between them. -/
def References.collect (t : FileTree) (project : Project) (extensions : List String)
    (excludes : List Glob) : Except ScanError References :=
  (sourceFiles t project extensions excludes).map fun files =>
    let perFile := files.map fun file => (file, fileReferences t project files file)
    { files
      edges := perFile.flatMap fun (file, r) => r.dependencies.map fun target => (file, target)
      external := (perFile.map fun (file, r) => (file, r.external)).filter fun e => !e.2.isEmpty
      missing := (perFile.map fun (file, r) => (file, r.missing)).filter fun e => !e.2.isEmpty }

end Recheck
