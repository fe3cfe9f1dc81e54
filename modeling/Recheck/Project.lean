import Recheck.FileTree.Basic
import Recheck.Json.Reader
import Recheck.Yaml.Document

/-!
# Projects

A project is a directory with a manifest and a source directory. Its package name is the text under
`name` in the manifest; without one, or if the manifest is of a kind that is not read or cannot be
read, the project bears the name of its directory.
-/

namespace Recheck

/-- The kind of a manifest, by its file name. -/
inductive ManifestKind where
  | pubspec
  | packageJson
  | other
deriving DecidableEq

/-- The kind of the manifest with a file name. -/
def ManifestKind.ofFileName (name : String) : ManifestKind :=
  if name = "pubspec.yaml" ∨ name = "pubspec.yml" then .pubspec
  else if name = "package.json" then .packageJson
  else .other

/-- Why a directory is no project. -/
inductive ProjectError where
  | missingRoot (root : Path)
  | missingManifest (root : Path) (manifest : String)
  | missingSourceDir (dir : Path)
deriving DecidableEq

/-- The text shown for a directory that is no project. -/
def ProjectError.message : ProjectError → String
  | missingRoot root => "project root does not exist: " ++ root.shown
  | missingManifest root manifest => "no " ++ manifest ++ " found in " ++ root.shown
  | missingSourceDir dir => "source directory does not exist: " ++ dir.shown

/-- A project whose root, manifest and source directory exist. -/
structure Project where
  /-- The canonical path of the root. -/
  root : Path
  manifest : Path
  manifestKind : ManifestKind
  sourceDir : Path
  packageName : String
deriving DecidableEq

namespace Project

/-- The package name in the text of a manifest. -/
def nameIn? (kind : ManifestKind) (manifest : String) : Option String :=
  match kind with
  | .pubspec => do (← (← Yaml.parse? manifest).get? "name").text?
  | .packageJson => do
    let j ← Json.parse? manifest
    if j.usable Json.maxDepth then (← j.get? "name").text? else none
  | .other => none

/-- The name of a project whose manifest gives none. -/
def fallbackName (root : Path) : String := (root.fileName?.map Text.shown).getD "root"

/-- The package name of a project. -/
def nameOf (t : FileTree) (root manifest : Path) (kind : ManifestKind) : String :=
  match t.readText manifest with
  | .ok text => (nameIn? kind text).getD (fallbackName root)
  | .error _ => fallbackName root

/-- The project in a directory. -/
def detect (t : FileTree) (root : Path) (manifest sourceDir : String) :
    Except ProjectError Project :=
  match t.canonicalize root with
  | .error _ => .error (.missingRoot root)
  | .ok root =>
    let manifestPath := root.join (.ofText manifest)
    let source := root.join (.ofText sourceDir)
    if !t.isDir root then .error (.missingRoot root)
    else if !t.isFile manifestPath then .error (.missingManifest root manifest)
    else if !t.isDir source then .error (.missingSourceDir source)
    else
      let kind := ManifestKind.ofFileName manifest
      .ok
        { root
          manifest := manifestPath
          manifestKind := kind
          sourceDir := source
          packageName := nameOf t root manifestPath kind }

end Project

end Recheck
