import Recheck.Glob.Pattern
import Recheck.Text.Utf8

/-!
# Matching glob patterns

Patterns are matched against the bytes of a path, as a whole. Reading a pattern from left to right,
a mark at a position of the path says that the tokens so far can end there. Each token moves the
marks along in one sweep over the path, so matching takes no longer than the pattern times the path.

A member of a class outside ASCII stands for each byte of its encoding, and a range runs from the
last byte of its first member to the first byte of its last. An alternative that can only stand for
nothing is not counted among the alternatives.
-/

namespace Recheck

/-- A pattern that has been read. -/
structure Glob where
  options : Glob.Options
  tokens : List Glob.Token

namespace Glob

/-- The slash. -/
def slash : UInt8 := 0x2F

/-- Whether a byte belongs to a range of characters. -/
def inRange (b : UInt8) (range : Char × Char) : Bool :=
  let first := Text.bytes (String.singleton range.1)
  let last := Text.bytes (String.singleton range.2)
  if range.1 = range.2 then first.contains b
  else
    first.dropLast.contains b || last.tail.contains b ||
      (first.getLast?.any fun low => low.toNat ≤ b.toNat) &&
        (last.head?.any fun high => b.toNat ≤ high.toNat)

/-! ## Sweeps -/

/-- New marks from old ones: a state is carried along the path, `out` gives the mark at a position,
and `pass` the state behind its byte. There is one mark more than there are bytes. -/
def sweep {σ : Type} (out : σ → Bool → Bool) (pass : σ → Bool → UInt8 → σ) (s : σ) :
    List UInt8 → List Bool → List Bool
  | _, [] => []
  | [], mark :: _ => [out s mark]
  | b :: bs, mark :: marks => out s mark :: sweep out pass (pass s mark b) bs marks

/-- Moves each mark over one byte with a property. -/
def sweepOne (p : UInt8 → Bool) : List UInt8 → List Bool → List Bool :=
  sweep (fun moved _ => moved) (fun _ mark b => mark && p b) false

/-- Moves each mark over given bytes. -/
def sweepBytes (text bs : List UInt8) (marks : List Bool) : List Bool :=
  text.foldl (fun marks b => sweepOne (· == b) bs marks) marks

/-- Moves each mark over any number of bytes with a property. -/
def sweepMany (p : UInt8 → Bool) : List UInt8 → List Bool → List Bool :=
  sweep (fun carried mark => carried || mark) (fun carried mark b => (carried || mark) && p b) false

/-- Keeps each mark and moves it behind each slash after it. -/
def sweepLeadingDirs : List UInt8 → List Bool → List Bool :=
  sweep (fun (_, behindSlash) mark => mark || behindSlash)
    (fun (seen, _) mark b => (seen || mark, (seen || mark) && b == slash)) (false, false)

/-- Moves each mark at a slash behind that slash and each slash after it. -/
def sweepInnerDirs : List UInt8 → List Bool → List Bool :=
  sweep (fun (_, behindSlash) _ => behindSlash)
    (fun (inside, _) mark b => (inside || mark && b == slash, (inside || mark) && b == slash))
    (false, false)

/-- Moves each mark at a slash over that slash and any number of bytes. -/
def sweepAllBelow : List UInt8 → List Bool → List Bool :=
  sweep (fun inside _ => inside) (fun inside mark b => inside || mark && b == slash) false

/-! ## Matching -/

mutual

/-- Whether a token can only stand for nothing. -/
def Token.isVoid : Token → Bool
  | .alternates branches => branchesVoid branches
  | _ => false

/-- Whether a list of tokens can only stand for nothing. -/
def allVoid : List Token → Bool
  | [] => true
  | token :: rest => token.isVoid && allVoid rest

/-- Whether all branches can only stand for nothing. -/
def branchesVoid : List (List Token) → Bool
  | [] => true
  | branch :: rest => allVoid branch && branchesVoid rest

end

mutual

/-- Moves the marks over a token. -/
def Token.move (options : Options) (bs : List UInt8) : Token → List Bool → List Bool
  | .literal c, marks => sweepBytes (Text.bytes (String.singleton c)) bs marks
  | .anyOne, marks => sweepOne (fun b => !(options.slashSeparates && b == slash)) bs marks
  | .anyMany, marks => sweepMany (fun b => !(options.slashSeparates && b == slash)) bs marks
  | .leadingDirs, marks => sweepLeadingDirs bs marks
  | .innerDirs, marks => sweepInnerDirs bs marks
  | .allBelow, marks => sweepAllBelow bs marks
  | .oneOf negated ranges, marks => sweepOne (fun b => ranges.any (inRange b) != negated) bs marks
  | .alternates branches, marks =>
    if branchesVoid branches then marks else moveBranches options bs branches marks

/-- Moves the marks over a list of tokens. -/
def moveAll (options : Options) (bs : List UInt8) : List Token → List Bool → List Bool
  | [], marks => marks
  | token :: rest, marks => moveAll options bs rest (token.move options bs marks)

/-- Moves the marks over any one of several lists of tokens. -/
def moveBranches (options : Options) (bs : List UInt8) :
    List (List Token) → List Bool → List Bool
  | [], marks => marks.map fun _ => false
  | branch :: rest, marks =>
    if allVoid branch then moveBranches options bs rest marks
    else
      (moveAll options bs branch marks).zipWith (· || ·) (moveBranches options bs rest marks)

end

/-- The marks before the first token: one at the start of the path. -/
def startMarks (bs : List UInt8) : List Bool := true :: bs.map fun _ => false

/-- Whether the pattern matches a path. Leading directories alone match everything. -/
def isMatch (glob : Glob) (path : List UInt8) : Bool :=
  match glob.tokens with
  | [.leadingDirs] => true
  | tokens => (moveAll glob.options path tokens (startMarks path)).getLast? == some true

/-- Reads a pattern. -/
def ofPattern (options : Options) (pattern : String) : Except GlobError Glob :=
  match tokensOf options pattern.toList with
  | .ok tokens => .ok ⟨options, tokens⟩
  | .error fault => .error ⟨pattern, fault⟩

end Glob

end Recheck
