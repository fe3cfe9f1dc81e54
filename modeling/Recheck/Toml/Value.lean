import Recheck.Decimal
import Recheck.Text.Split
import Recheck.Timestamp

/-!
# TOML values

Reading a value from the head of a text. Times and floating point numbers are checked but their
values are not kept.
-/

namespace Recheck.Toml

/-- A TOML value. -/
inductive Value where
  | string (text : String)
  | integer (value : Int)
  | float
  | bool (value : Bool)
  | time
  | array (items : List Value)
  | table (members : List (String × Value))

/-! ## Characters -/

/-- A space or a tab. -/
def isBlank (c : Char) : Bool := c == ' ' || c == '\t'

/-- A character of comments: a tab, or anything but control characters. -/
def isComment (c : Char) : Bool := c == '\t' || (0x20 ≤ c.toNat && c.toNat != 0x7F)

/-- The text after blanks. -/
def skipBlanks (cs : List Char) : List Char := cs.dropWhile isBlank

/-- The text after a line end. -/
def lineEnd? (cs : List Char) : Option (List Char) :=
  match cs with
  | '\n' :: rest => some rest
  | '\r' :: '\n' :: rest => some rest
  | _ => none

/-- The text after a comment, if there is one. -/
def skipComment (cs : List Char) : List Char :=
  match cs with
  | '#' :: rest => rest.dropWhile isComment
  | _ => cs

/-- The text after blanks, comments and line ends. The length of the text is fuel enough. -/
def skipLines : (fuel : Nat) → List Char → List Char
  | 0, cs => cs
  | fuel + 1, cs =>
    let cs := skipComment (skipBlanks cs)
    match lineEnd? cs with
    | some rest => skipLines fuel rest
    | none => cs

/-! ## Strings -/

/-- The character of a short escape. -/
def shortEscape? (c : Char) : Option Char :=
  match c with
  | 'b' => some '\x08'
  | 't' => some '\t'
  | 'n' => some '\n'
  | 'f' => some '\x0c'
  | 'r' => some '\r'
  | '"' => some '"'
  | '\\' => some '\\'
  | _ => none

/-- The character of an escape by number, and the text after it. -/
def numericEscape? (width : Nat) (cs : List Char) : Option (Char × List Char) :=
  let digits := cs.take width
  if digits.length < width then none
  else
    (Decimal.valueIn? 16 digits).bind fun n =>
      if (0xD800 ≤ n ∧ n ≤ 0xDFFF) ∨ 0x10FFFF < n then none
      else some (Char.ofNat n, cs.drop width)

/-- The character of an escape after its backslash, and the text after it. -/
def escape? (cs : List Char) : Option (Char × List Char) :=
  match cs with
  | 'u' :: rest => numericEscape? 4 rest
  | 'U' :: rest => numericEscape? 8 rest
  | c :: rest => (shortEscape? c).map fun e => (e, rest)
  | [] => none

/-- A basic string on one line, after its opening quote. -/
def basic? : (fuel : Nat) → List Char → Option (List Char × List Char)
  | 0, _ => none
  | fuel + 1, cs =>
    match cs with
    | '"' :: rest => some ([], rest)
    | '\\' :: rest =>
      (escape? rest).bind fun (e, rest) => (basic? fuel rest).map fun (s, rest) => (e :: s, rest)
    | c :: rest =>
      if isComment c then (basic? fuel rest).map fun (s, rest) => (c :: s, rest) else none
    | [] => none

/-- A literal string on one line, after its opening quote. -/
def literal? (cs : List Char) : Option (List Char × List Char) :=
  let text := cs.takeWhile fun c => isComment c && c != '\''
  match cs.drop text.length with
  | '\'' :: rest => some (text, rest)
  | _ => none

/-- The text after blanks and line ends. -/
def skipGap : (fuel : Nat) → List Char → List Char
  | 0, cs => cs
  | fuel + 1, cs =>
    let cs := skipBlanks cs
    match lineEnd? cs with
    | some rest => skipGap fuel rest
    | none => cs

/-- The end of a string in triple quotes: up to two quotes that belong to it, and the three. -/
def tripleEnd? (quote : Char) (cs : List Char) : Option (List Char × List Char) :=
  let quotes := (cs.takeWhile (· == quote)).length
  if quotes < 3 then none
  else
    let size := if quotes < 5 then quotes else 5
    some (List.replicate (size - 3) quote, cs.drop size)

/-- A string in triple quotes, after its opening quotes and a line end that follows them. -/
def triple? (quote : Char) : (fuel : Nat) → List Char → Option (List Char × List Char)
  | 0, _ => none
  | fuel + 1, cs =>
    match tripleEnd? quote cs with
    | some (tail, rest) => some (tail, rest)
    | none =>
      match lineEnd? cs with
      | some rest => (triple? quote fuel rest).map fun (s, rest) => ('\n' :: s, rest)
      | none =>
        match cs with
        | [] => none
        | c :: rest =>
          if c = '\\' ∧ quote = '"' then
            match lineEnd? (skipBlanks rest) with
            | some after => triple? quote fuel (skipGap after.length after)
            | none =>
              (escape? rest).bind fun (e, rest) =>
                (triple? quote fuel rest).map fun (s, rest) => (e :: s, rest)
          else if isComment c then (triple? quote fuel rest).map fun (s, rest) => (c :: s, rest)
          else none

/-- The text without a line end at its head. -/
def dropLineEnd (cs : List Char) : List Char := (lineEnd? cs).getD cs

/-- A string of any kind. -/
def string? (cs : List Char) : Option (List Char × List Char) :=
  match cs with
  | '"' :: '"' :: '"' :: rest => triple? '"' (rest.length + 1) (dropLineEnd rest)
  | '\'' :: '\'' :: '\'' :: rest => triple? '\'' (rest.length + 1) (dropLineEnd rest)
  | '"' :: rest => basic? (rest.length + 1) rest
  | '\'' :: rest => literal? rest
  | _ => none

/-! ## Numbers -/

/-- Digits of a class with single underscores between them, and the text after them. -/
def digits? (isDigit : Char → Bool) (cs : List Char) : Option (List Char × List Char) :=
  let run := cs.takeWhile fun c => isDigit c || c == '_'
  let groups := Text.splitOn '_' run
  if groups.any List.isEmpty then none else some (groups.flatten, cs.drop run.length)

/-- A run of decimal digits without needless zeros. -/
def wholePart? (cs : List Char) : Option (List Char × List Char) :=
  match cs with
  | '0' :: c :: _ => if c.isDigit || c == '_' then none else some (['0'], cs.drop 1)
  | _ => digits? Char.isDigit cs

/-- The integers that a value can hold. -/
def integerOf? (n : Int) : Option Value :=
  if -9223372036854775808 ≤ n ∧ n ≤ 9223372036854775807 then some (.integer n) else none

/-- An integer in another base, after the mark for the base. -/
def based? (base : Nat) (cs : List Char) : Option (Value × List Char) :=
  (digits? (fun c => (Decimal.digitIn? base c).isSome) cs).bind fun (digits, rest) =>
    (Decimal.valueIn? base digits).bind fun n => (integerOf? n).map fun v => (v, rest)

/-- The fraction and the exponent of a number, and the text after them. -/
def fractionPart? (cs : List Char) : Option (Option (List Char) × Option Int × List Char) := do
  let (fraction, cs) ←
    match cs with
    | '.' :: rest => (digits? Char.isDigit rest).map fun (ds, rest) => (some ds, rest)
    | _ => some (none, cs)
  match cs with
  | e :: rest =>
    if e = 'e' ∨ e = 'E' then
      let (negative, rest) :=
        match rest with
        | '-' :: rest => (true, rest)
        | '+' :: rest => (false, rest)
        | _ => (false, rest)
      let (ds, rest) ← digits? Char.isDigit rest
      let n : Int := Decimal.value ds
      some (fraction, some (if negative then -n else n), rest)
    else some (fraction, none, cs)
  | [] => some (fraction, none, cs)

/-- A number after its sign. -/
def signed? (negative : Bool) (cs : List Char) : Option (Value × List Char) :=
  match cs with
  | 'i' :: 'n' :: 'f' :: rest => some (.float, rest)
  | 'n' :: 'a' :: 'n' :: rest => some (.float, rest)
  | _ => do
    let (whole, cs) ← wholePart? cs
    let (fraction, exponent, cs) ← fractionPart? cs
    if fraction.isNone && exponent.isNone then
      let n : Int := Decimal.value whole
      (integerOf? (if negative then -n else n)).map fun v => (v, cs)
    else
      let digits := fraction.getD []
      let value := Decimal.value (whole ++ digits)
      if negative || Decimal.isFinite value (exponent.getD 0 - digits.length) then some (.float, cs)
      else none

/-- A number. -/
def number? (cs : List Char) : Option (Value × List Char) :=
  match cs with
  | '+' :: rest => signed? false rest
  | '-' :: rest => signed? true rest
  | '0' :: 'x' :: rest => based? 16 rest
  | '0' :: 'o' :: rest => based? 8 rest
  | '0' :: 'b' :: rest => based? 2 rest
  | _ => signed? false cs

/-! ## Dates and times -/

/-- A number of exactly `width` digits, at most `high`. -/
def field? (width high : Nat) (cs : List Char) : Option (Nat × List Char) :=
  let digits := cs.take width
  if digits.length < width || !digits.all Char.isDigit then none
  else
    let n := Decimal.value digits
    if n ≤ high then some (n, cs.drop width) else none

/-- What follows a character. -/
def after? (c : Char) (cs : List Char) : Option (List Char) := Text.stripStart? [c] cs

/-- The text after a time of day. -/
def clock? (cs : List Char) : Option (List Char) := do
  let (_, cs) ← field? 2 23 cs
  let (_, cs) ← field? 2 59 (← after? ':' cs)
  let (_, cs) ← field? 2 60 (← after? ':' cs)
  match cs with
  | '.' :: rest =>
    let (digits, rest) := Decimal.span rest
    if digits.isEmpty then none else some rest
  | _ => some cs

/-- The text after an offset from UTC, if there is one. -/
def offset? (cs : List Char) : Option (List Char) := do
  match cs with
  | c :: rest =>
    if c = 'Z' ∨ c = 'z' then some rest
    else if c = '+' ∨ c = '-' then
      let (_, rest) ← field? 2 23 rest
      let (_, rest) ← field? 2 59 (← after? ':' rest)
      some rest
    else some cs
  | [] => some cs

/-- The text after a date, a time, or both. -/
def time? (cs : List Char) : Option (List Char) :=
  let year? := (field? 4 9999 cs).bind fun (year, rest) =>
    (after? '-' rest).map fun rest => (year, rest)
  match year? with
  | some (year, rest) => do
    let (month, rest) ← field? 2 12 rest
    let (day, rest) ← field? 2 31 (← after? '-' rest)
    if month = 0 ∨ day = 0 ∨ daysIn year month < day then none
    else
      match rest with
      | c :: later =>
        if c = 'T' ∨ c = 't' then (clock? later).bind offset?
        else if c = ' ' ∧ later.head?.any Char.isDigit then (clock? later).bind offset?
        else some rest
      | [] => some rest
  | none => clock? cs

/-- Whether a number at the head of a text is one of a date or a time. -/
def looksTimed (cs : List Char) : Bool :=
  let (digits, rest) := Decimal.span cs
  (digits.length == 4 && rest.head? == some '-') || (digits.length == 2 && rest.head? == some ':')

/-! ## Keys -/

/-- A character of keys without quotes. -/
def isBareKey (c : Char) : Bool := c.isAlphanum || c == '_' || c == '-'

/-- One part of a key. -/
def keyPart? (cs : List Char) : Option (String × List Char) :=
  match cs with
  | '"' :: rest => (basic? (rest.length + 1) rest).map fun (s, rest) => (String.ofList s, rest)
  | '\'' :: rest => (literal? rest).map fun (s, rest) => (String.ofList s, rest)
  | _ =>
    let part := cs.takeWhile isBareKey
    if part.isEmpty then none else some (String.ofList part, cs.drop part.length)

/-- The largest nesting of values, and the largest number of parts of a key. -/
def maxDepth : Nat := 79

/-- The parts of a key, with blanks around them. -/
def key? : (fuel : Nat) → List Char → Option (List String × List Char)
  | 0, _ => none
  | fuel + 1, cs =>
    match keyPart? (skipBlanks cs) with
    | none => none
    | some (part, rest) =>
      match skipBlanks rest with
      | '.' :: rest => (key? fuel rest).map fun (parts, rest) => (part :: parts, rest)
      | rest => some ([part], rest)

/-- A key with its equals sign. -/
def assignment? (cs : List Char) : Option (List String × List Char) :=
  match key? maxDepth cs with
  | some (key, '=' :: rest) => some (key, skipBlanks rest)
  | _ => none

end Recheck.Toml
