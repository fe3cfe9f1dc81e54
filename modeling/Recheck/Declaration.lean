import Recheck.Path

/-!
# Declarations and diagnostics

What resolving one source file yields: its top-level declarations and the messages about them.
-/

namespace Recheck

/-- What a declaration introduces. -/
inductive DeclarationKind where
  | classType
  | mixin
  | enumeration
  | alias
  | extension
deriving DecidableEq

/-- A top-level declaration of a source file. -/
structure Declaration where
  name : String
  kind : DeclarationKind
  file : Path
  line : Option Nat := none
  isAbstract : Bool := false
  /-- The type it extends. -/
  supertype : Option String := none
  mixins : List String := []
  interfaces : List String := []
  /-- The names declared directly in its body. -/
  members : List String := []
deriving DecidableEq

/-- Every type that a declaration inherits from: what it extends, mixes in and implements. -/
def Declaration.supertypes (d : Declaration) : List String :=
  d.supertype.toList ++ d.mixins ++ d.interfaces

/-- How grave a diagnostic is. -/
inductive Severity where
  | error
  | warning
  | info
deriving DecidableEq

/-- The name of a severity. -/
def Severity.label : Severity → String
  | error => "Error"
  | warning => "Warning"
  | info => "Info"

/-- A message about a source file. -/
structure Diagnostic where
  severity : Severity
  message : String
  line : Option Nat := none
deriving DecidableEq

namespace Diagnostic

/-- `supertype` is declared neither in the file of the declaration nor in a file before it. -/
def unresolvedSupertype (supertype : String) (d : Declaration) : Diagnostic where
  severity := .warning
  message := "unresolved supertype `" ++ supertype ++ "` of `" ++ d.name ++ "`"
  line := d.line

/-- The name was declared before, in the file `previous`. -/
def alsoDeclared (name : String) (previous : Path) : Diagnostic where
  severity := .warning
  message := "`" ++ name ++ "` is also declared in " ++ previous.shown

end Diagnostic

/-- What resolving a file yields. -/
structure FileAnalysis where
  declarations : List Declaration
  diagnostics : List Diagnostic
  lineCount : Nat

/-- A resolved file in the outcome of a run. -/
structure FileResult where
  path : Path
  declarations : List Declaration
  diagnostics : List Diagnostic
  /-- Whether the file is in the change set of the run. -/
  changed : Bool

/-- Whether one of the messages is an error. -/
def FileResult.hasErrors (r : FileResult) : Bool :=
  r.diagnostics.any fun d => d.severity = .error

end Recheck
