import Recheck.Config.Basic

/-!
# Paths worth watching

An edit matters to an analysis if it touches a source file: one with a source extension that is not
excluded and lies neither in the cache nor in a directory of tools.
-/

namespace Recheck

/-- Decides which paths can affect an analysis. -/
structure PathFilter where
  root : Path
  extensions : List String
  excludes : List Glob
  cacheDir : Path

namespace PathFilter

/-- Directories of tools, which never hold sources. -/
def toolDirs : List String := [".git", ".dart_tool", "build", "node_modules"]

/-- Whether a path runs through a directory of tools. -/
def underTools (p : Path) : Bool :=
  p.components.any fun component => toolDirs.contains component.text

/-- The filter of a project. -/
def ofConfig (root : Path) (config : Config) : Except GlobError PathFilter :=
  config.excludes.map fun excludes =>
    { root, extensions := config.extensions, excludes, cacheDir := config.cachePath root }

/-- Whether an edit of the path can affect an analysis. -/
def isRelevant (f : PathFilter) (p : Path) : Bool :=
  let inner := p.relativeTo f.root
  !p.startsWith f.cacheDir && !underTools inner &&
    hasExtension f.extensions p && !Glob.anyMatch f.excludes inner

end PathFilter

end Recheck
