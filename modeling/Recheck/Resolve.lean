import Recheck.FileTree.Basic
import Recheck.Source.Scan
import Recheck.Symbols

/-!
# Resolving a file

A file is resolved by scanning it for declarations and looking up the types that they inherit from,
in the file itself and among the declarations of files resolved before.
-/

namespace Recheck

/-- Why a file does not resolve. -/
inductive FileError where
  | unreadable (path : Path) (cause : OsError)
  /-- The content is not UTF-8. -/
  | notText (path : Path)
  | syntaxFault (path : Path) (message : String)
deriving DecidableEq

/-- The text shown for a file that does not resolve. -/
def FileError.message : FileError → String
  | unreadable path cause => "cannot read " ++ path.shown ++ ": " ++ cause.message
  | notText path => path.shown ++ " is not valid UTF-8"
  | syntaxFault path message => path.shown ++ ": " ++ message

/-- The text of a source file. -/
def readSource (t : FileTree) (p : Path) : Except FileError String :=
  match t.read p with
  | .error cause => .error (.unreadable p cause)
  | .ok content =>
    match Text.ofBytes? content with
    | some text => .ok text
    | none => .error (.notText p)

/-- The warnings about inherited types that are declared neither here nor before. -/
def unresolvedSupertypes (declarations : List Declaration) (symbols : SymbolTable) :
    List Diagnostic :=
  declarations.flatMap fun d =>
    (d.supertypes.filter fun s =>
      !(declarations.any fun e => e.name = s) && !symbols.contains s).map fun s =>
        Diagnostic.unresolvedSupertype s d

/-- Resolves a file against the declarations of the files before it. -/
def resolveFile (t : FileTree) (p : Path) (symbols : SymbolTable) : Except FileError FileAnalysis :=
  match readSource t p with
  | .error e => .error e
  | .ok text =>
    let source := text.toList
    match Source.scan p source with
    | .error fault => .error (.syntaxFault p fault.message)
    | .ok declarations =>
      .ok
        { declarations
          diagnostics := unresolvedSupertypes declarations symbols
          lineCount := (LineIndex.ofText source).lineCount }

end Recheck
