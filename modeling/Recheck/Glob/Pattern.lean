/-!
# Glob patterns

A pattern is read into a list of tokens.

* `?` stands for one byte and `*` for any bytes.
* `**` next to a slash, or next to the start or the end of the pattern, stands for directories: at
  the start for any leading directories, at the end for anything below, and between two slashes for
  any directories between. Elsewhere it is `*` twice.
* `[a-z]` is a class, `[!a-z]` and `[^a-z]` are its complement; a bracket or a dash that comes first
  is a member, as is a dash that comes last.
* `{a,b}` lists alternatives, which may hold further alternatives.
* A backslash takes away the meaning of the next character.
-/

namespace Recheck

namespace Glob

/-- How patterns are read. -/
structure Options where
  /-- Whether `?`, `*` and their kind stop at a slash. -/
  slashSeparates : Bool := false
  /-- Whether a bracket that is never closed, and all brackets after it, stand for themselves. -/
  lenientBrackets : Bool := false

/-- What is wrong with a pattern. -/
inductive Fault where
  | unclosedClass
  | invalidRange (first last : Char)
  | unclosedAlternates
  | unopenedAlternates
  | danglingEscape
deriving DecidableEq

/-- The text shown for a fault. -/
def Fault.message : Fault → String
  | unclosedClass => "unclosed character class; missing ']'"
  | invalidRange first last =>
    "invalid range; '" ++ String.singleton first ++ "' > '" ++ String.singleton last ++ "'"
  | unclosedAlternates =>
    "unclosed alternate group; missing '\x7d' (maybe escape '\x7b' with '[\x7b]'?)"
  | unopenedAlternates =>
    "unopened alternate group; missing '\x7b' (maybe escape '\x7d' with '[\x7d]'?)"
  | danglingEscape => "dangling '\\'"

/-- A part of a pattern. -/
inductive Token where
  | literal (c : Char)
  /-- One byte. -/
  | anyOne
  /-- Any number of bytes. -/
  | anyMany
  /-- Any leading directories. -/
  | leadingDirs
  /-- Anything below a directory. -/
  | allBelow
  /-- Any directories between two names. -/
  | innerDirs
  /-- One byte of a class, or one outside of it. -/
  | oneOf (negated : Bool) (ranges : List (Char × Char))
  /-- One of several lists of tokens. -/
  | alternates (branches : List (List Token))

/-! ## Classes -/

/-- The members of a class read so far, the last one first. -/
structure ClassReader where
  ranges : List (Char × Char) := []
  /-- The last character was a dash after a member. -/
  inRange : Bool := false

/-- The class with one more character. -/
def ClassReader.add (r : ClassReader) (c : Char) : Except Fault ClassReader :=
  match r.inRange, r.ranges with
  | true, (first, _) :: ranges =>
    if c.toNat < first.toNat then .error (.invalidRange first c)
    else .ok ⟨(first, c) :: ranges, false⟩
  | _, ranges =>
    if c = '-' ∧ !ranges.isEmpty then .ok ⟨ranges, true⟩ else .ok ⟨(c, c) :: ranges, false⟩

/-- The members of a class, in order. -/
def ClassReader.members (r : ClassReader) : List (Char × Char) :=
  (if r.inRange then ('-', '-') :: r.ranges else r.ranges).reverse

/-- Reads the members of a class up to its closing bracket. -/
def classMembers (r : ClassReader) :
    List Char → Except Fault (List (Char × Char) × List Char)
  | [] => .error .unclosedClass
  | c :: cs =>
    if c = ']' ∧ !r.ranges.isEmpty then .ok (r.members, cs)
    else
      match r.add c with
      | .error fault => .error fault
      | .ok r => classMembers r cs

/-- Reads a class after its opening bracket. -/
def classToken (cs : List Char) : Except Fault (Token × List Char) :=
  let (negated, cs) :=
    match cs with
    | '!' :: rest => (true, rest)
    | '^' :: rest => (true, rest)
    | _ => (false, cs)
  match classMembers {} cs with
  | .ok (ranges, rest) => .ok (.oneOf negated ranges, rest)
  | .error fault => .error fault

/-! ## Patterns -/

/-- A group of alternatives that is being read: the tokens before it and its finished branches, each
list with the last one first. -/
structure OpenGroup where
  before : List Token
  branches : List (List Token)

/-- The tokens read so far, the last one first, and the groups around them, the innermost first. -/
structure Reader where
  tokens : List Token := []
  groups : List OpenGroup := []
  /-- The character read last. -/
  previous : Option Char := none
  /-- A bracket was found that is never closed. -/
  bracketsLiteral : Bool := false

namespace Reader

/-- Appends a token after reading `c`. -/
def push (r : Reader) (token : Token) (c : Char) : Reader :=
  { r with tokens := token :: r.tokens, previous := some c }

/-- Appends `*` twice. -/
def pushTwoStars (r : Reader) : Reader := (r.push .anyMany '*').push .anyMany '*'

/-- Replaces the slash before `**` by a token for directories, which takes up neighbours of its
kind. -/
def pushDirs (r : Reader) (token : Token) (c : Char) : Reader :=
  let tokens :=
    match r.tokens with
    | .leadingDirs :: rest => .leadingDirs :: rest
    | .allBelow :: rest => .allBelow :: rest
    | _ :: rest => token :: rest
    | [] => [token]
  { r with tokens, previous := some c }

/-- Reads on after `**`. -/
def doubleStar (r : Reader) (cs : List Char) : Reader × List Char :=
  if r.tokens.isEmpty then
    match cs with
    | [] => (r.push .leadingDirs '*', [])
    | '/' :: rest => (r.push .leadingDirs '/', rest)
    | _ => (r.pushTwoStars, cs)
  else if r.previous = some '/' ∨
      (!r.groups.isEmpty ∧ (r.previous = some ',' ∨ r.previous = some '\x7b')) then
    match cs with
    | [] => (r.pushDirs .allBelow '*', [])
    | '/' :: rest => (r.pushDirs .innerDirs '/', rest)
    | c :: _ =>
      if !r.groups.isEmpty ∧ (c = ',' ∨ c = '\x7d') then (r.pushDirs .allBelow '*', cs)
      else (r.pushTwoStars, cs)
  else (r.pushTwoStars, cs)

/-- Ends the innermost group. -/
def closeGroup (r : Reader) : Except Fault Reader :=
  match r.groups with
  | [] => .error .unopenedAlternates
  | group :: groups =>
    .ok
      { r with
        tokens := .alternates ((r.tokens.reverse :: group.branches).reverse) :: group.before
        groups := groups
        previous := some '\x7d' }

/-- Ends a branch of the innermost group. -/
def nextBranch (r : Reader) : Reader :=
  match r.groups with
  | [] => r.push (.literal ',') ','
  | group :: groups =>
    { r with
      tokens := []
      groups := { group with branches := r.tokens.reverse :: group.branches } :: groups
      previous := some ',' }

/-- The reader before the next character and the rest of the pattern. -/
def step (options : Options) (r : Reader) (c : Char) (cs : List Char) :
    Except Fault (Reader × List Char) :=
  match c with
  | '?' => .ok (r.push .anyOne c, cs)
  | '*' =>
    match cs with
    | '*' :: rest => .ok (r.doubleStar rest)
    | _ => .ok (r.push .anyMany c, cs)
  | '[' =>
    if r.bracketsLiteral then .ok (r.push (.literal c) c, cs)
    else
      match classToken cs with
      | .ok (token, rest) => .ok (r.push token ']', rest)
      | .error .unclosedClass =>
        if options.lenientBrackets then
          .ok ({ r.push (.literal c) c with bracketsLiteral := true }, cs)
        else .error .unclosedClass
      | .error fault => .error fault
  | '\x7b' =>
    .ok ({ r with tokens := [], groups := ⟨r.tokens, []⟩ :: r.groups, previous := some c }, cs)
  | '\x7d' => r.closeGroup.map fun r => (r, cs)
  | ',' => .ok (r.nextBranch, cs)
  | '\\' =>
    match cs with
    | [] => .error .danglingEscape
    | d :: rest => .ok (r.push (.literal d) d, rest)
  | _ => .ok (r.push (.literal c) c, cs)

/-- Reads the rest of a pattern. Its length is fuel enough. -/
def run (options : Options) : (fuel : Nat) → Reader → List Char → Except Fault Reader
  | _, r, [] => .ok r
  | 0, r, _ => .ok r
  | fuel + 1, r, c :: cs =>
    match r.step options c cs with
    | .ok (r, rest) => run options fuel r rest
    | .error fault => .error fault

end Reader

/-- The tokens of a pattern. -/
def tokensOf (options : Options) (pattern : List Char) : Except Fault (List Token) :=
  match Reader.run options pattern.length {} pattern with
  | .error fault => .error fault
  | .ok r => if r.groups.isEmpty then .ok r.tokens.reverse else .error .unclosedAlternates

end Glob

/-- A pattern that cannot be read. -/
structure GlobError where
  pattern : String
  fault : Glob.Fault
deriving DecidableEq

/-- The text shown for a bad pattern. -/
def GlobError.message (e : GlobError) : String :=
  "error parsing glob '" ++ e.pattern ++ "': " ++ e.fault.message

end Recheck
