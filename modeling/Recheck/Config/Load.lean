import Recheck.Config.Basic
import Recheck.FileTree.Basic
import Recheck.Toml.Document

/-!
# Loading the configuration

The configuration of a project is read from `trellis.toml` in its root. Settings that the file does
not mention have their defaults, and what it mentions beyond them is passed over. Without the file
all settings have their defaults.
-/

namespace Recheck

/-- Why there is no configuration to work with. -/
inductive ConfigError where
  /-- The file cannot be read. -/
  | read (path : Path) (cause : FileTree.ReadError)
  /-- The file does not describe a configuration. -/
  | parse (path : Path)
  /-- An exclude pattern cannot be read. -/
  | glob (cause : GlobError)
deriving DecidableEq

/-- The text shown for a configuration that cannot be worked with. -/
def ConfigError.message : ConfigError → String
  | read path cause => "cannot read config " ++ path.shown ++ ": " ++ cause.message
  | parse path => "invalid config " ++ path.shown
  | glob cause => "invalid exclude pattern: " ++ cause.message

namespace Toml.Value

/-- The text that a value is. -/
def text? : Value → Option String
  | .string s => some s
  | _ => none

/-- The boolean that a value is. -/
def bool? : Value → Option Bool
  | .bool b => some b
  | _ => none

/-- The count that a value is. -/
def count? : Value → Option Nat
  | .integer n => if 0 ≤ n then some n.toNat else none
  | _ => none

/-- The list of texts that a value is. -/
def texts? : Value → Option (List String)
  | .array items => items.mapM text?
  | _ => none

/-- The path that a text names. -/
def path? (v : Toml.Value) : Option Path := v.text?.map .ofText

end Toml.Value

namespace Config

/-- A setting of a file: the default if it is not there, and none if it has the wrong type. -/
def setting? {α : Type} (members : List (String × Toml.Value)) (name : String)
    (read : Toml.Value → Option α) (default : α) : Option α :=
  match members.lookup name with
  | some v => read v
  | none => some default

/-- The configuration that a file describes. -/
def ofToml? (members : List (String × Toml.Value)) : Option Config := do
  let base : Config := {}
  some
    { maxParallelism := ← setting? members "max_parallelism" Toml.Value.count? base.maxParallelism
      enableCache := ← setting? members "enable_cache" Toml.Value.bool? base.enableCache
      verboseLogging := ← setting? members "verbose_logging" Toml.Value.bool? base.verboseLogging
      excludePatterns :=
        ← setting? members "exclude_patterns" Toml.Value.texts? base.excludePatterns
      sourceDir := ← setting? members "source_dir" Toml.Value.text? base.sourceDir
      manifest := ← setting? members "manifest" Toml.Value.text? base.manifest
      extensions := ← setting? members "extensions" Toml.Value.texts? base.extensions
      cacheDir := ← setting? members "cache_dir" Toml.Value.path? base.cacheDir
      reportsDir := ← setting? members "reports_dir" Toml.Value.path? base.reportsDir
      strictCycles := ← setting? members "strict_cycles" Toml.Value.bool? base.strictCycles }

/-- The configuration of a project, with the settings of an environment in place of its own. -/
def load (t : FileTree) (root : Path) (environment : String → Option String) :
    Except ConfigError Config :=
  let path := root.join ⟨fileName⟩
  match t.readText path with
  | .error (.os .notFound) => .ok (({} : Config).override environment)
  | .error cause => .error (.read path cause)
  | .ok text =>
    match (Toml.parse? text).bind ofToml? with
    | some c => .ok (c.override environment)
    | none => .error (.parse path)

end Config

end Recheck
