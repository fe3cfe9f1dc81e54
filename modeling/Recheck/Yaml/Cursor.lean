/-!
# Reading YAML character by character

A cursor is a position in a text: what is left of it, and where in the text it stands. Lines end at
a line feed, a carriage return, both together, a next line, or a line or paragraph separator.
-/

namespace Recheck.Yaml

/-- A space or a tab. -/
def isBlank (c : Char) : Bool := c == ' ' || c == '\t'

/-- A character that ends a line. -/
def isBreak (c : Char) : Bool :=
  c == '\n' || c == '\r' || c.toNat == 0x85 || c.toNat == 0x2028 || c.toNat == 0x2029

/-- A character of anchors, handles and directives. -/
def isNameChar (c : Char) : Bool := c.isAlphanum || c == '_' || c == '-'

/-- The characters that a document may hold. -/
def isAllowed (c : Char) : Bool :=
  let n := c.toNat
  n == 0x09 || n == 0x0A || n == 0x0D || (0x20 ≤ n && n ≤ 0x7E) || n == 0x85 ||
    (0xA0 ≤ n && n ≤ 0xFFFD) || 0x10000 ≤ n

/-- A position in a text. -/
structure Cursor where
  rest : List Char
  index : Nat := 0
  line : Nat := 0
  column : Nat := 0

namespace Cursor

/-- The character `n` places ahead. -/
def peek? (c : Cursor) (n : Nat) : Option Char := c.rest[n]?

/-- Whether the character `n` places ahead is `ch`. -/
def isAt (c : Cursor) (n : Nat) (ch : Char) : Bool := c.peek? n == some ch

/-- Whether the character `n` places ahead belongs to a class. -/
def isIn (c : Cursor) (n : Nat) (p : Char → Bool) : Bool := (c.peek? n).any p

/-- Whether there is no character `n` places ahead, or one that ends a line. -/
def lineEnds (c : Cursor) (n : Nat) : Bool :=
  match c.peek? n with
  | some ch => isBreak ch
  | none => true

/-- Whether there is no character `n` places ahead, or one that ends a word. -/
def wordEnds (c : Cursor) (n : Nat) : Bool :=
  match c.peek? n with
  | some ch => isBreak ch || isBlank ch
  | none => true

/-- The cursor after `n` characters of one line. -/
def skip (c : Cursor) (n : Nat) : Cursor :=
  { c with rest := c.rest.drop n, index := c.index + n, column := c.column + n }

/-- The cursor after the characters of a class at its place. -/
def skipWhile (c : Cursor) (p : Char → Bool) : Cursor := c.skip (c.rest.takeWhile p).length

/-- The cursor at the end of its line. -/
def skipToBreak (c : Cursor) : Cursor := c.skipWhile fun ch => !isBreak ch

/-- The end of a line as it counts in a value, and the cursor after it. -/
def takeBreak (c : Cursor) : List Char × Cursor :=
  let next (n : Nat) : Cursor :=
    { rest := c.rest.drop n, index := c.index + n, line := c.line + 1, column := 0 }
  match c.rest with
  | '\r' :: '\n' :: _ => (['\n'], next 2)
  | ch :: _ =>
    if ch == '\n' || ch == '\r' || ch.toNat == 0x85 then (['\n'], next 1)
    else if isBreak ch then ([ch], next 1)
    else ([], c)
  | [] => ([], c)

/-- Whether a marker between documents stands at the cursor. -/
def atMarker (c : Cursor) (ch : Char) : Bool :=
  c.column == 0 && c.isAt 0 ch && c.isAt 1 ch && c.isAt 2 ch && c.wordEnds 3

/-- Whether a marker of either kind stands at the cursor. -/
def atAnyMarker (c : Cursor) : Bool := c.atMarker '-' || c.atMarker '.'

end Cursor

end Recheck.Yaml
