import Recheck.Glob.Match
import Recheck.Decimal
import Recheck.Path

/-!
# The configuration of an analysis

What is analyzed, what is left out, and where results are kept. The environment can override three
of the settings; a value that cannot be read is passed over.
-/

namespace Recheck

/-- The configuration of an analysis. -/
structure Config where
  /-- An upper bound on the files resolved at once; zero stands for what the machine offers. -/
  maxParallelism : Nat := 0
  enableCache : Bool := true
  verboseLogging : Bool := false
  /-- Glob patterns for the files to leave out, taken relative to the project root. -/
  excludePatterns : List String :=
    ["**/*.g.dart", "**/*.freezed.dart", "**/generated/**", "**/build/**", "**/.dart_tool/**",
      "**/test/**", "**/*_test.dart"]
  sourceDir : String := "lib"
  manifest : String := "pubspec.yaml"
  /-- The extensions of source files. -/
  extensions : List String := ["dart"]
  /-- Taken relative to the project root. -/
  cacheDir : Path := ⟨".trellis"⟩
  /-- Taken relative to the project root. -/
  reportsDir : Path := ⟨".trellis/reports"⟩
  /-- Whether a dependency cycle makes the analysis fail. -/
  strictCycles : Bool := false
deriving DecidableEq

namespace Config

/-- The name of the configuration file in a project root. -/
def fileName : String := "trellis.toml"

/-- The largest count that a setting can hold. -/
def maxCount : Nat := 18446744073709551615

/-- The cache directory of a project that does not set its own. -/
def defaultCacheDir (root : Path) : Path := root.join ⟨".trellis"⟩

/-- The cache directory of a project. -/
def cachePath (c : Config) (root : Path) : Path := root.join c.cacheDir

/-- The reports directory of a project. -/
def reportsPath (c : Config) (root : Path) : Path := root.join c.reportsDir

/-! ## Overrides -/

/-- Reads a count: decimal digits, which a plus may precede. -/
def count? (text : List Char) : Option Nat :=
  let digits :=
    match text with
    | '+' :: rest => rest
    | _ => text
  if digits.isEmpty || !digits.all Char.isDigit then none
  else
    let n := Decimal.value digits
    if n ≤ maxCount then some n else none

/-- Reads a switch, in upper or lower case. -/
def switch? (text : List Char) : Option Bool :=
  let word := String.ofList (text.map Char.toLower)
  if word ∈ ["1", "true", "yes", "on"] then some true
  else if word ∈ ["0", "false", "no", "off"] then some false
  else none

/-- The names of the settings that an environment can hold. -/
def environmentNames : List String :=
  ["TRELLIS_MAX_PARALLELISM", "TRELLIS_ENABLE_CACHE", "TRELLIS_VERBOSE"]

/-- The configuration with the settings of an environment in place of its own. -/
def override (c : Config) (environment : String → Option String) : Config :=
  let setting {α : Type} (name : String) (read : List Char → Option α) (default : α) : α :=
    ((environment name).bind fun value => read (Text.trim value.toList)).getD default
  { c with
    maxParallelism := setting "TRELLIS_MAX_PARALLELISM" count? c.maxParallelism
    enableCache := setting "TRELLIS_ENABLE_CACHE" switch? c.enableCache
    verboseLogging := setting "TRELLIS_VERBOSE" switch? c.verboseLogging }

/-! ## Exclusion -/

/-- The exclude patterns. The first one that cannot be read is reported. -/
def excludes (c : Config) : Except GlobError (List Glob) :=
  c.excludePatterns.mapM (Glob.ofPattern {})

end Config

/-- Whether a path has one of the given extensions. One that is not UTF-8 is none of them. -/
def hasExtension (extensions : List String) (p : Path) : Bool :=
  (p.extension?.bind Text.decoded?).any extensions.contains

/-- Whether one of the patterns matches a path. -/
def Glob.anyMatch (globs : List Glob) (p : Path) : Bool := globs.any (·.isMatch p.bytes)

end Recheck
