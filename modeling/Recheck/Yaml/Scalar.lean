import Recheck.Decimal
import Recheck.Yaml.Cursor

/-!
# YAML scalars

Reading the text of a scalar in each of its styles: quoted, plain, and as a block. Within a quoted
or plain scalar a line end counts as a space, and more line ends in a row as one less.
-/

namespace Recheck.Yaml

/-- The blanks and line ends between two words of a scalar. -/
structure Gap where
  /-- Blanks before the first line end. -/
  blanks : List Char := []
  /-- The first line end, if there is one. -/
  first : Option (List Char) := none
  /-- The further line ends. -/
  further : List Char := []

/-- What a gap counts for in the value. -/
def Gap.text (g : Gap) : List Char :=
  match g.first with
  | none => g.blanks
  | some ['\n'] => if g.further.isEmpty then [' '] else g.further
  | some first => first ++ g.further

/-- Reads a gap. A tab left of column `indent` is not allowed after a line end. The number of
characters left is fuel enough. -/
def Gap.read : (fuel : Nat) → (indent : Nat) → Gap → Cursor → Option (Gap × Cursor)
  | 0, _, g, c => some (g, c)
  | fuel + 1, indent, g, c =>
    match c.peek? 0 with
    | none => some (g, c)
    | some ch =>
      if isBlank ch then
        if g.first.isNone then
          Gap.read fuel indent { g with blanks := g.blanks ++ [ch] } (c.skip 1)
        else if ch == '\t' && c.column < indent then none
        else Gap.read fuel indent g (c.skip 1)
      else if isBreak ch then
        let (ending, c) := c.takeBreak
        if g.first.isNone then Gap.read fuel indent { g with first := some ending } c
        else Gap.read fuel indent { g with further := g.further ++ ending } c
      else some (g, c)

/-! ## Quoted scalars -/

/-- The character of a short escape in double quotes. -/
def shortEscape? (c : Char) : Option Char :=
  match c with
  | '0' => some '\x00'
  | 'a' => some '\x07'
  | 'b' => some '\x08'
  | 't' => some '\t'
  | '\t' => some '\t'
  | 'n' => some '\n'
  | 'v' => some '\x0b'
  | 'f' => some '\x0c'
  | 'r' => some '\r'
  | 'e' => some '\x1b'
  | ' ' => some ' '
  | '"' => some '"'
  | '/' => some '/'
  | '\\' => some '\\'
  | 'N' => some '\u0085'
  | '_' => some '\u00a0'
  | 'L' => some '\u2028'
  | 'P' => some '\u2029'
  | _ => none

/-- The number of digits in an escape by number. -/
def escapeWidth? (c : Char) : Option Nat :=
  match c with
  | 'x' => some 2
  | 'u' => some 4
  | 'U' => some 8
  | _ => none

/-- The character of an escape after its backslash, and the number of characters it takes. -/
def escape? (cs : List Char) : Option (Char × Nat) :=
  match cs with
  | [] => none
  | c :: rest =>
    match escapeWidth? c with
    | none => (shortEscape? c).map fun ch => (ch, 1)
    | some width =>
      let digits := rest.take width
      if digits.length < width then none
      else
        match Decimal.valueIn? 16 digits with
        | none => none
        | some n =>
          if (0xD800 ≤ n ∧ n ≤ 0xDFFF) ∨ 0x10FFFF < n then none
          else some (Char.ofNat n, width + 1)

/-- Reads a quoted scalar after its opening quote. -/
def quoted? (quote : Char) :
    (fuel : Nat) → List Char → Cursor → Option (List Char × Cursor)
  | 0, _, _ => none
  | fuel + 1, text, c =>
    if c.atAnyMarker then none
    else
      match c.rest with
      | [] => none
      | ch :: rest =>
        if ch == quote then
          if quote == '\'' && c.isAt 1 quote then quoted? quote fuel (text ++ [quote]) (c.skip 2)
          else some (text, c.skip 1)
        else if quote == '"' && ch == '\\' then
          if c.isIn 1 isBreak then
            let (_, c) := (c.skip 1).takeBreak
            match Gap.read c.rest.length 0 { first := some [] } c with
            | some (g, c) => quoted? quote fuel (text ++ g.further) c
            | none => none
          else
            match escape? rest with
            | some (e, n) => quoted? quote fuel (text ++ [e]) (c.skip (n + 1))
            | none => none
        else if isBlank ch || isBreak ch then
          match Gap.read c.rest.length 0 {} c with
          | some (g, c) => quoted? quote fuel (text ++ g.text) c
          | none => none
        else quoted? quote fuel (text ++ [ch]) (c.skip 1)

/-! ## Plain scalars -/

/-- A character of flow collections. -/
def isFlowIndicator (c : Char) : Bool :=
  c == ',' || c == '[' || c == ']' || c == '\x7b' || c == '\x7d'

/-- The word of a plain scalar at the cursor, up to a blank or an indicator. -/
def plainWord? (inFlow : Bool) :
    (fuel : Nat) → List Char → Cursor → Option (List Char × Cursor)
  | 0, word, c => some (word, c)
  | fuel + 1, word, c =>
    match c.peek? 0 with
    | none => some (word, c)
    | some ch =>
      if c.wordEnds 0 then some (word, c)
      else if inFlow && ch == ':' && c.isIn 1 fun d => isFlowIndicator d || d == '?' then none
      else if (ch == ':' && c.wordEnds 1) || (inFlow && isFlowIndicator ch) then some (word, c)
      else plainWord? inFlow fuel (word ++ [ch]) (c.skip 1)

/-- A plain scalar that has been read. -/
structure PlainScalar where
  text : List Char
  /-- Whether line ends were passed after it. -/
  endsLine : Bool
  cursor : Cursor

/-- Reads a plain scalar after some text and a gap. Its further lines lie right of `indent`. -/
def plain? (inFlow : Bool) (indent : Nat) :
    (fuel : Nat) → List Char → Gap → Cursor → Option PlainScalar
  | 0, _, _, _ => none
  | fuel + 1, text, gap, c =>
    let done : PlainScalar := ⟨text, gap.first.isSome, c⟩
    if c.atAnyMarker || c.isAt 0 '#' then some done
    else
      match plainWord? inFlow c.rest.length [] c with
      | none => none
      | some ([], _) => some done
      | some (word, c) =>
        let text := text ++ gap.text ++ word
        match Gap.read c.rest.length indent {} c with
        | none => none
        | some (gap, c) =>
          let done : PlainScalar := ⟨text, gap.first.isSome, c⟩
          if gap.first.isNone && gap.blanks.isEmpty then some done
          else if !inFlow && c.column < indent then some done
          else plain? inFlow indent fuel text gap c

/-! ## Block scalars -/

/-- What becomes of the line ends at the end of a block. -/
inductive Chomping where
  | strip
  | clip
  | keep
deriving DecidableEq

/-- The chomping that a character asks for. -/
def Chomping.ofChar? (c : Char) : Option Chomping :=
  if c = '+' then some .keep else if c = '-' then some .strip else none

/-- The indentation that a digit asks for. -/
def indentation? (c : Char) : Option Nat :=
  if c.isDigit then some (c.toNat - '0'.toNat) else none

/-- The chomping and the indentation in the header of a block. -/
def blockHeader (c : Cursor) : Chomping × Option Nat × Cursor :=
  match (c.peek? 0).bind Chomping.ofChar? with
  | some chomping =>
    match (c.peek? 1).bind indentation? with
    | some n => (chomping, some n, c.skip 2)
    | none => (chomping, none, c.skip 1)
  | none =>
    match (c.peek? 0).bind indentation? with
    | some n =>
      match (c.peek? 1).bind Chomping.ofChar? with
      | some chomping => (chomping, some n, c.skip 2)
      | none => (.clip, some n, c.skip 1)
    | none => (.clip, none, c)

/-- The empty lines at the cursor, the cursor in the first line that is not empty, and the largest
indentation seen. With an `indent` of zero the lines may be indented as they like. -/
def blockBreaks? :
    (fuel : Nat) → (indent : Nat) → List Char → (widest : Nat) → Cursor →
      Option (List Char × Nat × Cursor)
  | 0, _, breaks, widest, c => some (breaks, widest, c)
  | fuel + 1, indent, breaks, widest, c =>
    let spaces := (c.rest.takeWhile (· == ' ')).length
    let c := c.skip (if indent = 0 || c.column + spaces < indent then spaces else indent - c.column)
    let widest := if widest < c.column then c.column else widest
    if (indent = 0 || c.column < indent) && c.isAt 0 '\t' then none
    else if c.isIn 0 isBreak then
      let (ending, c) := c.takeBreak
      blockBreaks? fuel indent (breaks ++ ending) widest c
    else some (breaks, widest, c)

/-- A block scalar that is being read. -/
structure BlockReader where
  text : List Char := []
  /-- The line end after the last line. -/
  ending : List Char := []
  /-- The empty lines after it. -/
  breaks : List Char := []
  /-- The last line starts with a blank. -/
  lastIndented : Bool := false
  cursor : Cursor

/-- Reads the lines of a block. -/
def blockLines? (folded : Bool) (indent : Nat) :
    (fuel : Nat) → BlockReader → Option BlockReader
  | 0, r => some r
  | fuel + 1, r =>
    let c := r.cursor
    if c.column != indent || c.rest.isEmpty then some r
    else
      let indented := c.isIn 0 isBlank
      let joint :=
        if folded && r.ending == ['\n'] && !r.lastIndented && !indented then
          if r.breaks.isEmpty then [' '] else []
        else r.ending
      let line := c.rest.takeWhile fun ch => !isBreak ch
      let (ending, c) := (c.skip line.length).takeBreak
      match blockBreaks? (c.rest.length + 1) indent [] 0 c with
      | none => none
      | some (breaks, _, c) =>
        blockLines? folded indent fuel
          { text := r.text ++ joint ++ r.breaks ++ line
            ending
            breaks
            lastIndented := indented
            cursor := c }

/-- Reads a block scalar after its indicator, inside a collection indented by `outer`. -/
def block? (folded : Bool) (outer : Int) (c : Cursor) : Option (List Char × Cursor) := do
  let (chomping, increment, c) := blockHeader c
  if increment = some 0 then none
  else
    let c := c.skipWhile isBlank
    let c := if c.isAt 0 '#' then c.skipToBreak else c
    if !c.lineEnds 0 then none
    else
      let (_, c) := c.takeBreak
      let least : Nat := (outer + 1).toNat
      let fixed := increment.map fun n => if outer ≥ 0 then outer.toNat + n else n
      let (breaks, widest, c) ← blockBreaks? (c.rest.length + 1) (fixed.getD 0) [] 0 c
      let found := if widest < least then least else widest
      let indent := fixed.getD (if found < 1 then 1 else found)
      let r ← blockLines? folded indent (c.rest.length + 1) { breaks, cursor := c }
      let tail :=
        match chomping with
        | .strip => []
        | .clip => r.ending
        | .keep => r.ending ++ r.breaks
      some (r.text ++ tail, r.cursor)

end Recheck.Yaml
