import Recheck.Source.Header
import Recheck.Source.Lines
import Recheck.Source.Mask
import Recheck.Source.Members

/-!
# Scanning a source

The masked source is cut at its braces and semicolons, the marks. The segment before a mark is a
header or a statement outside all braces, a member directly inside the braces of a declaration, and
nothing deeper inside. The braces must match.
-/

namespace Recheck

namespace Source

/-- A character at which a source is cut. -/
inductive Mark where
  | openBrace
  | closeBrace
  | semicolon
deriving DecidableEq

/-- The mark that a character is. -/
def Mark.ofChar? (c : Char) : Option Mark :=
  if c = '\x7b' then some openBrace
  else if c = '\x7d' then some closeBrace
  else if c = ';' then some semicolon
  else none

/-- The segments of a text, each with the mark that ends it, and the text after the last mark. -/
def segments : List Char → List (List Char × Mark) × List Char
  | [] => ([], [])
  | c :: cs =>
    match Mark.ofChar? c, segments cs with
    | some mark, (rest, tail) => (([], mark) :: rest, tail)
    | none, ((segment, mark) :: rest, tail) => ((c :: segment, mark) :: rest, tail)
    | none, ([], tail) => ([], c :: tail)

/-- Why a source cannot be scanned. -/
inductive Fault where
  /-- A closing brace without a partner. -/
  | unmatched (line : Nat)
  /-- An opening brace without a partner. -/
  | unclosed (line : Nat)
deriving DecidableEq

/-- The text shown for a fault. -/
def Fault.message : Fault → String
  | unmatched line => "unmatched `\x7d` at line " ++ toString line
  | unclosed line => "unclosed `\x7b` at line " ++ toString line

/-- What is known between two marks. -/
structure ScanState where
  /-- The finished declarations. -/
  declarations : List Declaration := []
  /-- The declaration whose body is open. -/
  current : Option OpenDeclaration := none
  /-- The lines of the open braces, the innermost first. -/
  braces : List Nat := []
  /-- The newlines passed. -/
  newlines : Nat := 0

/-- The line that follows a number of newlines. -/
def lineAfter (newlines : Nat) : Nat :=
  if newlines + 1 ≤ LineIndex.maxLine then newlines + 1 else LineIndex.maxLine

/-- The newlines before the first character of a segment that is not blank. -/
def leadingNewlines (segment : List Char) : Nat :=
  (segment.takeWhile fun c => c.toNat < 0x80 && Text.isAsciiBlank c.toUInt8).count '\n'

/-- Passes a segment and its mark. -/
def ScanState.pass (file : Path) (s : ScanState) (piece : List Char × Mark) :
    Except Fault ScanState :=
  let (segment, mark) := piece
  let headerLine := lineAfter (s.newlines + leadingNewlines segment)
  let newlines := s.newlines + segment.count '\n'
  let markLine := lineAfter newlines
  let next := { s with newlines }
  match mark, s.braces with
  | .openBrace, [] =>
    .ok { next with
      current := (declaration? segment file headerLine).map fun d => { declaration := d }
      braces := [markLine] }
  | .openBrace, [outer] =>
    .ok { next with current := s.current.map (·.add segment), braces := [markLine, outer] }
  | .openBrace, braces => .ok { next with braces := markLine :: braces }
  | .closeBrace, [] => .error (.unmatched markLine)
  | .closeBrace, [_] =>
    .ok { next with
      declarations := s.declarations ++ (s.current.map fun d => (d.add segment).declaration).toList
      current := none
      braces := [] }
  | .closeBrace, _ :: braces => .ok { next with braces }
  | .semicolon, [] =>
    .ok { next with declarations := s.declarations ++ (alias? segment file headerLine).toList }
  | .semicolon, [_] => .ok { next with current := s.current.map (·.add segment) }
  | .semicolon, _ => .ok next

/-- The declarations of a source, in order. -/
def scan (file : Path) (source : List Char) : Except Fault (List Declaration) :=
  match (segments (mask source)).1.foldlM (ScanState.pass file) {} with
  | .error fault => .error fault
  | .ok s =>
    match s.braces with
    | [] => .ok s.declarations
    | line :: _ => .error (.unclosed line)

end Source

end Recheck
