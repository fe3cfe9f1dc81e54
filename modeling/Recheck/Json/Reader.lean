import Recheck.Json.Basic

/-!
# Reading JSON

`Json.parse?` reads a whole text as one value, with blanks around it. Blanks are spaces, tabs, line
feeds and carriage returns. Control characters in strings must be escaped.
-/

namespace Recheck.Json

/-- Blanks between tokens. -/
def isSpace (c : Char) : Bool := c == ' ' || c == '\n' || c == '\t' || c == '\r'

/-- The text after the blanks at its head. -/
def skipSpaces (cs : List Char) : List Char := cs.dropWhile isSpace

/-! ## Strings -/

/-- The number that four hexadecimal digits stand for. -/
def hex4? (a b c d : Char) : Option Nat := Decimal.valueIn? 16 [a, b, c, d]

/-- One unit of a string. -/
inductive Unit16 where
  /-- A character. -/
  | char (c : Char)
  /-- Half of a surrogate pair. -/
  | surrogate (n : Nat)

/-- The unit that an escaped number stands for. -/
def unitOf (n : Nat) : Unit16 :=
  if 0xD800 ≤ n ∧ n ≤ 0xDFFF then .surrogate n else .char (Char.ofNat n)

/-- The character of a short escape. -/
def shortEscape? (c : Char) : Option Char :=
  match c with
  | '"' => some '"'
  | '\\' => some '\\'
  | '/' => some '/'
  | 'b' => some '\x08'
  | 'f' => some '\x0c'
  | 'n' => some '\n'
  | 'r' => some '\r'
  | 't' => some '\t'
  | _ => none

/-- The units of a string up to its closing quote, and the text after it. -/
def units? : List Char → Option (List Unit16 × List Char)
  | [] => none
  | '"' :: rest => some ([], rest)
  | '\\' :: 'u' :: a :: b :: c :: d :: rest =>
    match hex4? a b c d, units? rest with
    | some n, some (us, rest) => some (unitOf n :: us, rest)
    | _, _ => none
  | '\\' :: c :: rest =>
    match shortEscape? c, units? rest with
    | some e, some (us, rest) => some (.char e :: us, rest)
    | _, _ => none
  | c :: rest =>
    if c.toNat < 0x20 ∨ c = '\\' then none
    else
      match units? rest with
      | some (us, rest) => some (.char c :: us, rest)
      | none => none

/-- The text of the units, if every surrogate has its partner. -/
def textOf? : List Unit16 → Option (List Char)
  | [] => some []
  | .char c :: us => (textOf? us).map (c :: ·)
  | .surrogate high :: .surrogate low :: us =>
    if high < 0xDC00 ∧ 0xDC00 ≤ low then
      (textOf? us).map (Char.ofNat (0x10000 + (high - 0xD800) * 0x400 + (low - 0xDC00)) :: ·)
    else none
  | .surrogate _ :: _ => none

/-! ## Numbers -/

/-- Whether there is a minus sign, and the text after it. -/
def sign : List Char → Bool × List Char
  | '-' :: rest => (true, rest)
  | cs => (false, cs)

/-- The digits after a decimal point, if there is one. -/
def fraction? : List Char → Option (Option (List Char) × List Char)
  | '.' :: rest =>
    let (digits, rest) := Decimal.span rest
    if digits.isEmpty then none else some (some digits, rest)
  | cs => some (none, cs)

/-- The exponent, if there is one. -/
def exponent? : List Char → Option (Option Int × List Char)
  | e :: cs =>
    if e = 'e' ∨ e = 'E' then
      let (factor, rest) : Int × List Char :=
        match cs with
        | '+' :: rest => (1, rest)
        | '-' :: rest => (-1, rest)
        | _ => (1, cs)
      let (digits, rest) := Decimal.span rest
      if digits.isEmpty then none else some (some (factor * Decimal.value digits), rest)
    else some (none, e :: cs)
  | [] => some (none, [])

/-- The numeral with the given parts. -/
def Number.ofParts (negative : Bool) (whole : List Char) (fraction : Option (List Char))
    (exponent : Option Int) : Number :=
  match fraction, exponent with
  | none, none =>
    let n := Decimal.value whole
    if negative && n == 0 then decimal true 0 0
    else integer (if negative then -(n : Int) else n)
  | _, _ =>
    let digits := fraction.getD []
    decimal negative (Decimal.value (whole ++ digits)) (exponent.getD 0 - digits.length)

/-- The numeral at the head of a text. -/
def number? (cs : List Char) : Option (Number × List Char) :=
  let (negative, cs) := sign cs
  let (whole, cs) := Decimal.span cs
  if whole.isEmpty || (whole.head? == some '0' && whole.length > 1) then none
  else
    match fraction? cs with
    | none => none
    | some (fraction, cs) =>
      match exponent? cs with
      | none => none
      | some (exponent, cs) => some (.ofParts negative whole fraction exponent, cs)

/-! ## Values -/

/-- An object with the given members, of which none may have an unreadable name. -/
def objectOf (members : List (Option (List Char) × Json)) : Json :=
  match members.mapM fun (name, value) => name.map fun cs => (String.ofList cs, value) with
  | some members => object members
  | none => unreadable

mutual

/-- The value at the head of a text. Twice the length of the text is fuel enough. -/
def value? : (fuel : Nat) → List Char → Option (Json × List Char)
  | 0, _ => none
  | fuel + 1, cs =>
    match skipSpaces cs with
    | 'n' :: 'u' :: 'l' :: 'l' :: rest => some (null, rest)
    | 't' :: 'r' :: 'u' :: 'e' :: rest => some (bool true, rest)
    | 'f' :: 'a' :: 'l' :: 's' :: 'e' :: rest => some (bool false, rest)
    | '"' :: rest =>
      match units? rest with
      | none => none
      | some (us, rest) =>
        match textOf? us with
        | some s => some (string (String.ofList s), rest)
        | none => some (unreadable, rest)
    | '[' :: rest =>
      match skipSpaces rest with
      | ']' :: rest => some (array [], rest)
      | rest =>
        match items? fuel rest with
        | some (items, rest) => some (array items, rest)
        | none => none
    | '\x7b' :: rest =>
      match skipSpaces rest with
      | '\x7d' :: rest => some (object [], rest)
      | rest =>
        match members? fuel rest with
        | some (members, rest) => some (objectOf members, rest)
        | none => none
    | cs =>
      match number? cs with
      | some (n, rest) => some (number n, rest)
      | none => none

/-- The items of an array up to its closing bracket. -/
def items? : (fuel : Nat) → List Char → Option (List Json × List Char)
  | 0, _ => none
  | fuel + 1, cs =>
    match value? fuel cs with
    | none => none
    | some (item, rest) =>
      match skipSpaces rest with
      | ']' :: rest => some ([item], rest)
      | ',' :: rest =>
        match items? fuel rest with
        | some (items, rest) => some (item :: items, rest)
        | none => none
      | _ => none

/-- The members of an object up to its closing brace. -/
def members? : (fuel : Nat) → List Char → Option (List (Option (List Char) × Json) × List Char)
  | 0, _ => none
  | fuel + 1, cs =>
    match skipSpaces cs with
    | '"' :: rest =>
      match units? rest with
      | none => none
      | some (us, rest) =>
        match skipSpaces rest with
        | ':' :: rest =>
          match value? fuel rest with
          | none => none
          | some (value, rest) =>
            match skipSpaces rest with
            | '\x7d' :: rest => some ([(textOf? us, value)], rest)
            | ',' :: rest =>
              match members? fuel rest with
              | some (members, rest) => some ((textOf? us, value) :: members, rest)
              | none => none
            | _ => none
        | _ => none
    | _ => none

end

/-- The value that a text consists of. -/
def parse? (text : String) : Option Json :=
  let cs := text.toList
  match value? (2 * cs.length + 2) cs with
  | some (j, rest) => if (skipSpaces rest).isEmpty then some j else none
  | none => none

end Recheck.Json
