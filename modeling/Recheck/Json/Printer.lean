import Recheck.Json.Basic

/-!
# Writing JSON

Two layouts: `Json.compact` on one line without blanks, and `Json.pretty` with two spaces of
indentation, one item or member a line, and empty arrays and objects as `[]` and `{}`. In strings
the quote, the backslash and the control characters are escaped, and nothing else.
-/

namespace Recheck.Json

/-- A character inside a string. -/
def escape (c : Char) : List Char :=
  if c = '"' then ['\\', '"']
  else if c = '\\' then ['\\', '\\']
  else if c = '\n' then ['\\', 'n']
  else if c = '\r' then ['\\', 'r']
  else if c = '\t' then ['\\', 't']
  else if c.toNat = 0x08 then ['\\', 'b']
  else if c.toNat = 0x0C then ['\\', 'f']
  else if c.toNat < 0x20 then
    ['\\', 'u', '0', '0', Nat.digitChar (c.toNat / 16), Nat.digitChar (c.toNat % 16)]
  else [c]

/-- A string with its quotes. -/
def quote (s : String) : List Char := '"' :: s.toList.flatMap escape ++ ['"']

/-- An integer in decimal digits. -/
def intText (n : Int) : List Char :=
  if n < 0 then '-' :: Nat.toDigits 10 n.natAbs else Nat.toDigits 10 n.natAbs

/-- The text of a numeral. -/
def Number.chars : Number → List Char
  | integer n => intText n
  | decimal negative digits exponent =>
    (if negative then ['-'] else []) ++ Nat.toDigits 10 digits ++ 'e' :: intText exponent

/-- A new line, indented to a level. -/
def newLine (level : Nat) : List Char := '\n' :: List.replicate (2 * level) ' '

mutual

/-- The indented layout of a value that starts at a level of indentation. -/
def prettyChars : (level : Nat) → Json → List Char
  | _, null => "null".toList
  | _, bool true => "true".toList
  | _, bool false => "false".toList
  | _, number n => n.chars
  | _, string s => quote s
  | _, array [] => "[]".toList
  | level, array (item :: rest) =>
    '[' :: newLine (level + 1) ++ prettyChars (level + 1) item ++ prettyItems level rest
  | _, object [] => "\x7b\x7d".toList
  | level, object ((name, value) :: rest) =>
    '\x7b' :: newLine (level + 1) ++ quote name ++ ": ".toList ++ prettyChars (level + 1) value ++
      prettyMembers level rest
  | _, unreadable => "null".toList

/-- The items of an array after the first, and its end. -/
def prettyItems : (level : Nat) → List Json → List Char
  | level, [] => newLine level ++ [']']
  | level, item :: rest =>
    ',' :: newLine (level + 1) ++ prettyChars (level + 1) item ++ prettyItems level rest

/-- The members of an object after the first, and its end. -/
def prettyMembers : (level : Nat) → List (String × Json) → List Char
  | level, [] => newLine level ++ ['\x7d']
  | level, (name, value) :: rest =>
    ',' :: newLine (level + 1) ++ quote name ++ ": ".toList ++ prettyChars (level + 1) value ++
      prettyMembers level rest

end

/-- The indented layout of a value. -/
def pretty (j : Json) : String := String.ofList (prettyChars 0 j)

mutual

/-- The layout of a value on one line. -/
def compactChars : Json → List Char
  | null => "null".toList
  | bool true => "true".toList
  | bool false => "false".toList
  | number n => n.chars
  | string s => quote s
  | array [] => "[]".toList
  | array (item :: rest) => '[' :: compactChars item ++ compactItems rest
  | object [] => "\x7b\x7d".toList
  | object ((name, value) :: rest) =>
    '\x7b' :: quote name ++ ':' :: compactChars value ++ compactMembers rest
  | unreadable => "null".toList

/-- The items of an array after the first, and its end. -/
def compactItems : List Json → List Char
  | [] => [']']
  | item :: rest => ',' :: compactChars item ++ compactItems rest

/-- The members of an object after the first, and its end. -/
def compactMembers : List (String × Json) → List Char
  | [] => ['\x7d']
  | (name, value) :: rest => ',' :: quote name ++ ':' :: compactChars value ++ compactMembers rest

end

/-- The layout of a value on one line. -/
def compact (j : Json) : String := String.ofList (compactChars j)

end Recheck.Json
