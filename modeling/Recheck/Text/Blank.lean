/-!
# Blank characters

Two classes of blanks are in use. `Text.isBlank` is the Unicode property `White_Space`; it separates
words and is what trimming removes from texts. `Text.isAsciiBlank` is its ASCII part without the
vertical tab; it is what trimming removes from bytes.
-/

namespace Recheck

namespace Text

/-- The Unicode property `White_Space`. -/
def isBlank (c : Char) : Bool :=
  let n := c.toNat
  (0x09 ≤ n && n ≤ 0x0D) || n == 0x20 || n == 0x85 || n == 0xA0 || n == 0x1680 ||
    (0x2000 ≤ n && n ≤ 0x200A) || n == 0x2028 || n == 0x2029 || n == 0x202F || n == 0x205F ||
    n == 0x3000

/-- Space, tab, line feed, form feed and carriage return. -/
def isAsciiBlank (b : UInt8) : Bool :=
  b == 0x20 || b == 0x09 || b == 0x0A || b == 0x0C || b == 0x0D

/-- A list without the elements of a class at its end. -/
def dropRightWhile {α : Type} (p : α → Bool) (xs : List α) : List α :=
  xs.foldr (fun x rest => if rest.isEmpty && p x then [] else x :: rest) []

/-- A text without the blanks at its start. -/
def trimLeft (cs : List Char) : List Char := cs.dropWhile isBlank

/-- A text without the blanks at its end. -/
def trimRight (cs : List Char) : List Char := dropRightWhile isBlank cs

/-- A text without the blanks at either end. -/
def trim (cs : List Char) : List Char := trimRight (trimLeft cs)

/-- The words of a text: its longest blank-free stretches, in order. -/
def words : List Char → List (List Char)
  | [] => []
  | c :: cs =>
    if isBlank c then words cs
    else
      match cs with
      | [] => [[c]]
      | d :: _ =>
        if isBlank d then [c] :: words cs
        else
          match words cs with
          | [] => [[c]]
          | w :: ws => (c :: w) :: ws

end Text

end Recheck
