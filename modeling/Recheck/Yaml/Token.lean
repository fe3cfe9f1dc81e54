import Recheck.Yaml.Scalar

/-!
# YAML tokens

A document is cut into tokens. Indentation shows as tokens that start and end block collections. A
scalar turns out to be a key only when a colon follows it on its line, so the scanner remembers
where a key could be, and puts the tokens for it there once the colon comes.
-/

namespace Recheck.Yaml

/-- A token of a document. -/
inductive Token where
  | versionDirective (major minor : Nat)
  | tagDirective (handle stem : String)
  | documentStart
  | documentEnd
  | blockSequenceStart
  | blockMappingStart
  | blockEnd
  | flowSequenceStart
  | flowSequenceEnd
  | flowMappingStart
  | flowMappingEnd
  | blockEntry
  | flowEntry
  | key
  | value
  | alias (name : String)
  | anchor (name : String)
  | tag (handle suffix : String)
  | scalar (text : String) (plain : Bool)
deriving DecidableEq

/-- A place where a key may have started. -/
structure KeyPlace where
  /-- The number of tokens before it. -/
  position : Nat
  index : Nat
  line : Nat
  column : Nat
  /-- Nothing but a key can stand there. -/
  required : Bool

/-- A scanner between two tokens. -/
structure Scanner where
  cursor : Cursor
  tokens : List Token := []
  /-- The column of the innermost block collection. -/
  indent : Int := -1
  /-- The columns of the collections around it. -/
  indents : List Int := []
  /-- The possible key of the innermost flow collection, or of the block around all of them. -/
  place : Option KeyPlace := none
  /-- The possible keys of the collections around it; there are as many as there are open flow
  collections. -/
  places : List (Option KeyPlace) := []
  keyAllowed : Bool := true

namespace Scanner

/-- Whether a flow collection is open. -/
def inFlow (s : Scanner) : Bool := !s.places.isEmpty

/-- Appends a token. -/
def push (s : Scanner) (token : Token) : Scanner := { s with tokens := s.tokens ++ [token] }

/-- Passes the text of a token of `n` characters. -/
def pass (s : Scanner) (token : Token) (n : Nat) : Scanner :=
  { s.push token with cursor := s.cursor.skip n }

/-! ## Indentation -/

/-- Ends the block collections right of a column. -/
def unrollFuel : (fuel : Nat) → (column : Int) → Scanner → Scanner
  | 0, _, s => s
  | fuel + 1, column, s =>
    if s.indent > column then
      unrollFuel fuel column
        { s.push .blockEnd with indent := s.indents.head?.getD (-1), indents := s.indents.tail }
    else s

/-- Ends the block collections right of a column. -/
def unroll (s : Scanner) (column : Int) : Scanner :=
  if s.inFlow then s else unrollFuel (s.indents.length + 1) column s

/-- Starts a block collection at a column, unless one is open there; its token goes to a
position. -/
def roll (s : Scanner) (column : Nat) (position : Nat) (token : Token) : Scanner :=
  if s.inFlow || s.indent ≥ column then s
  else
    { s with
      tokens := s.tokens.take position ++ token :: s.tokens.drop position
      indent := column
      indents := s.indent :: s.indents }

/-! ## Possible keys -/

/-- Gives up the possible key, which must not be a required one. -/
def dropKey? (s : Scanner) : Option Scanner :=
  if s.place.any (·.required) then none else some { s with place := none }

/-- Notes a possible key at the cursor. -/
def saveKey? (s : Scanner) : Option Scanner :=
  if s.keyAllowed then
    s.dropKey?.map fun s =>
      { s with
        place := some
          { position := s.tokens.length
            index := s.cursor.index
            line := s.cursor.line
            column := s.cursor.column
            required := !s.inFlow && s.indent == s.cursor.column } }
  else some s

/-- Whether a key that started there is out of reach: it must lie on one line and not be too
long. -/
def isStale (c : Cursor) (place : KeyPlace) : Bool :=
  place.line < c.line || place.index + 1024 < c.index

/-- A possible key, unless it is out of reach; a required one must not be. -/
def refresh? (c : Cursor) : Option KeyPlace → Option (Option KeyPlace)
  | none => some none
  | some place =>
    if isStale c place then if place.required then none else some none else some (some place)

/-- Gives up the possible keys that are out of reach. -/
def dropStale? (s : Scanner) : Option Scanner := do
  some
    { s with
      place := ← refresh? s.cursor s.place
      places := ← s.places.mapM (refresh? s.cursor) }

/-! ## Between tokens -/

/-- Passes blanks, comments and line ends. -/
def skipGap : (fuel : Nat) → Scanner → Scanner
  | 0, s => s
  | fuel + 1, s =>
    let c := s.cursor
    let c := if c.index == 0 && c.isIn 0 (·.toNat == 0xFEFF) then c.skip 1 else c
    let c := c.skipWhile fun ch => ch == ' ' || ((s.inFlow || !s.keyAllowed) && ch == '\t')
    let c := if c.isAt 0 '#' then c.skipToBreak else c
    if c.isIn 0 isBreak then
      skipGap fuel { s with cursor := c.takeBreak.2, keyAllowed := s.keyAllowed || !s.inFlow }
    else { s with cursor := c }

/-! ## Tokens of one kind -/

/-- An anchor or alias after its indicator. -/
def named? (s : Scanner) (token : String → Token) : Option Scanner := do
  let s ← s.saveKey?
  let c := s.cursor.skip 1
  let name := c.rest.takeWhile isNameChar
  let c := c.skip name.length
  let ends := c.wordEnds 0 || c.isIn 0 fun ch => "?:,]\x7d%@`".toList.contains ch
  if name.isEmpty || !ends then none
  else some { s.push (token (String.ofList name)) with cursor := c, keyAllowed := false }

/-- A character of a tag. -/
def isTagChar (verbatim : Bool) (c : Char) : Bool :=
  isNameChar c || ";/?:@&=+$.!~*'()%".toList.contains c ||
    (verbatim && (c == ',' || c == '[' || c == ']'))

/-- The bytes that stand for the characters of a tag, escapes resolved. -/
def tagBytes? : List Char → Option (List UInt8)
  | [] => some []
  | '%' :: a :: b :: rest =>
    match Decimal.valueIn? 16 [a, b], tagBytes? rest with
    | some n, some bytes => some (UInt8.ofNat n :: bytes)
    | _, _ => none
  | c :: rest =>
    if c = '%' then none else (tagBytes? rest).map fun bytes => c.toUInt8 :: bytes

/-- The text of the characters of a tag. -/
def tagText? (cs : List Char) : Option String :=
  (tagBytes? cs).bind fun bytes => String.fromUTF8? ⟨bytes.toArray⟩

/-- A tag at the cursor. -/
def tag? (s : Scanner) : Option Scanner := do
  let s ← s.saveKey?
  let c := s.cursor
  let (token, c) ←
    if c.isAt 1 '<' then
      let c := c.skip 2
      let uri := c.rest.takeWhile (isTagChar true)
      let c := c.skip uri.length
      if uri.isEmpty || !c.isAt 0 '>' then none
      else some (Token.tag "" (← tagText? uri), c.skip 1)
    else
      let c := c.skip 1
      let name := c.rest.takeWhile isNameChar
      if c.isAt name.length '!' then
        let c := c.skip (name.length + 1)
        let uri := c.rest.takeWhile (isTagChar false)
        if uri.isEmpty then none
        else
          some (Token.tag ("!" ++ String.ofList name ++ "!") (← tagText? uri), c.skip uri.length)
      else
        let uri := c.rest.takeWhile (isTagChar false)
        let suffix ← tagText? uri
        some (if suffix.isEmpty then Token.tag "" "!" else Token.tag "!" suffix,
          c.skip uri.length)
  if c.wordEnds 0 || (s.inFlow && c.isAt 0 ',') then
    some { s.push token with cursor := c, keyAllowed := false }
  else none

/-- A quoted scalar at the cursor. -/
def quotedScalar? (s : Scanner) (quote : Char) : Option Scanner := do
  let s ← s.saveKey?
  let (text, c) ← quoted? quote (s.cursor.rest.length + 1) [] (s.cursor.skip 1)
  some { s.push (.scalar (String.ofList text) false) with cursor := c, keyAllowed := false }

/-- A plain scalar at the cursor. -/
def plainScalar? (s : Scanner) : Option Scanner := do
  let s ← s.saveKey?
  let p ← plain? s.inFlow (s.indent + 1).toNat (s.cursor.rest.length + 1) [] {} s.cursor
  some
    { s.push (.scalar (String.ofList p.text) true) with
      cursor := p.cursor
      keyAllowed := p.endsLine }

/-- A block scalar at the cursor. -/
def blockScalar? (s : Scanner) (folded : Bool) : Option Scanner := do
  let s ← s.dropKey?
  let (text, c) ← block? folded s.indent (s.cursor.skip 1)
  some { s.push (.scalar (String.ofList text) false) with cursor := c, keyAllowed := true }

/-- A number of at most nine digits in a directive. -/
def directiveNumber? (c : Cursor) : Option (Nat × Cursor) :=
  let (digits, _) := Decimal.span c.rest
  if digits.isEmpty || 9 < digits.length then none
  else some (Decimal.value digits, c.skip digits.length)

/-- A directive at the cursor. -/
def directive? (s : Scanner) : Option Scanner := do
  let s ← (s.unroll (-1)).dropKey?
  let c := s.cursor.skip 1
  let name := c.rest.takeWhile isNameChar
  let c := c.skip name.length
  if name.isEmpty || !c.wordEnds 0 then none
  else
    let c := c.skipWhile isBlank
    let (token, c) ←
      if name = "YAML".toList then
        let (major, c) ← directiveNumber? c
        if !c.isAt 0 '.' then none
        else
          let (minor, c) ← directiveNumber? (c.skip 1)
          some (Token.versionDirective major minor, c)
      else if name = "TAG".toList then
        let inner := (c.rest.drop 1).takeWhile isNameChar
        let closed := c.isAt (inner.length + 1) '!'
        let size := if closed then inner.length + 2 else 1
        if !c.isAt 0 '!' || (!closed && !inner.isEmpty) || !c.isIn size isBlank then none
        else
          let handle := String.ofList (c.rest.take size)
          let c := (c.skip size).skipWhile isBlank
          let uri := c.rest.takeWhile (isTagChar true)
          let c := c.skip uri.length
          if uri.isEmpty || !c.wordEnds 0 then none
          else some (Token.tagDirective handle (← tagText? uri), c)
      else none
    let c := c.skipWhile isBlank
    let c := if c.isAt 0 '#' then c.skipToBreak else c
    if c.lineEnds 0 then
      some { s.push token with cursor := c.takeBreak.2, keyAllowed := false }
    else none

/-- A marker between documents at the cursor. -/
def marker? (s : Scanner) (token : Token) : Option Scanner :=
  (s.unroll (-1)).dropKey?.map fun s => { s.pass token 3 with keyAllowed := false }

/-- The start of a flow collection. -/
def flowStart? (s : Scanner) (token : Token) : Option Scanner :=
  s.saveKey?.map fun s =>
    { s.pass token 1 with place := none, places := s.place :: s.places, keyAllowed := true }

/-- The end of a flow collection. -/
def flowEnd? (s : Scanner) (token : Token) : Option Scanner :=
  s.dropKey?.map fun s =>
    { s.pass token 1 with
      place := s.places.head?.join
      places := s.places.tail
      keyAllowed := false }

/-- The comma of a flow collection. -/
def flowEntry? (s : Scanner) : Option Scanner :=
  s.dropKey?.map fun s => { s.pass .flowEntry 1 with keyAllowed := true }

/-- The dash of a block sequence. -/
def blockEntry? (s : Scanner) : Option Scanner :=
  if !s.inFlow && !s.keyAllowed then none
  else
    (s.roll s.cursor.column s.tokens.length .blockSequenceStart).dropKey?.map fun s =>
      { s.pass .blockEntry 1 with keyAllowed := true }

/-- The question mark before a key. -/
def key? (s : Scanner) : Option Scanner :=
  if !s.inFlow && !s.keyAllowed then none
  else
    (s.roll s.cursor.column s.tokens.length .blockMappingStart).dropKey?.map fun s =>
      { s.pass .key 1 with keyAllowed := !s.inFlow }

/-- The colon before a value. -/
def value? (s : Scanner) : Option Scanner :=
  match s.place with
  | some place =>
    let s :=
      { s with
        tokens := s.tokens.take place.position ++ Token.key :: s.tokens.drop place.position
        place := none }
    let s := s.roll place.column place.position .blockMappingStart
    some { s.pass .value 1 with keyAllowed := false }
  | none =>
    if !s.inFlow && !s.keyAllowed then none
    else
      let s := s.roll s.cursor.column s.tokens.length .blockMappingStart
      some { s.pass .value 1 with keyAllowed := !s.inFlow }

/-- Whether a plain scalar can start at the cursor. -/
def plainStarts (s : Scanner) : Bool :=
  let c := s.cursor
  match c.peek? 0 with
  | none => false
  | some ch =>
    if ch == '-' then !c.isIn 1 isBlank
    else if ch == '?' || ch == ':' then !s.inFlow && !c.wordEnds 1
    else !(c.wordEnds 0 || ",[]\x7b\x7d#&*!|>'\"%@`".toList.contains ch)

/-- The scanner after the next token, or nothing more to scan. -/
def next? (s : Scanner) : Option (Scanner × Bool) := do
  let s ← (skipGap (s.cursor.rest.length + 1) s).dropStale?
  let s := s.unroll s.cursor.column
  let c := s.cursor
  match c.peek? 0 with
  | none =>
    let s ← (s.unroll (-1)).dropKey?
    some (s, true)
  | some ch =>
    let s ←
      if c.column == 0 && ch == '%' then s.directive?
      else if c.atMarker '-' then s.marker? .documentStart
      else if c.atMarker '.' then s.marker? .documentEnd
      else if ch == '[' then s.flowStart? .flowSequenceStart
      else if ch == '\x7b' then s.flowStart? .flowMappingStart
      else if ch == ']' then s.flowEnd? .flowSequenceEnd
      else if ch == '\x7d' then s.flowEnd? .flowMappingEnd
      else if ch == ',' then s.flowEntry?
      else if ch == '-' && c.wordEnds 1 then s.blockEntry?
      else if ch == '?' && (s.inFlow || c.wordEnds 1) then s.key?
      else if ch == ':' && (s.inFlow || c.wordEnds 1) then s.value?
      else if ch == '*' then s.named? .alias
      else if ch == '&' then s.named? .anchor
      else if ch == '!' then s.tag?
      else if ch == '|' && !s.inFlow then s.blockScalar? false
      else if ch == '>' && !s.inFlow then s.blockScalar? true
      else if ch == '\'' || ch == '"' then s.quotedScalar? ch
      else if s.plainStarts then s.plainScalar?
      else none
    some (s, false)

/-- All tokens. Each step passes a character, so the length of the text is fuel enough. -/
def run? : (fuel : Nat) → Scanner → Option (List Token)
  | 0, _ => none
  | fuel + 1, s =>
    match s.next? with
    | none => none
    | some (s, true) => some s.tokens
    | some (s, false) => run? fuel s

end Scanner

/-- The tokens of a text. -/
def tokens? (text : List Char) : Option (List Token) :=
  if text.all isAllowed then
    let text :=
      match text with
      | c :: rest => if c.toNat = 0xFEFF then rest else text
      | [] => []
    Scanner.run? (text.length + 2) { cursor := { rest := text } }
  else none

end Recheck.Yaml
