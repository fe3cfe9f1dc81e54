import Recheck.Proofs.Source.ByteMask
import Recheck.Proofs.Source.Heads
import Recheck.Proofs.Source.Lines

/-!
# Scanning by offsets

The scan need not cut the mask into segments beforehand. A loop over the bytes of the mask
(`OffsetState.run`) can keep the offsets at which the stretch outside all braces and the stretch in
the body of the open declaration start, and take the segment before a mark out of the mask as a
slice. The mask itself can be made byte by byte (`Sheet.ofBytes?`). Offsets may go wrong: there is
no slice between offsets that are out of order, out of range or inside a character, no byte at an
offset out of range, and no number below zero. Then the loop stops (`Stop.stray`).

It never does, and it finds what the scan finds (`scanByOffsets_eq`). The invariant `Follows` says
where the offsets are: as many bytes behind the start of the mask as the text up to the last mark
has. This is about the loop and the mask. What is then read out of a segment, such as the name of a
member, the clauses of a header or the name of an alias, is read with functions on lists of
characters, which have no offsets to go wrong.
-/

namespace Recheck

namespace Source

/-! ## Slices -/

/-- The text from a byte offset on, unless the offset is out of range or inside a character. -/
def fromOffset? : Nat → List Char → Option (List Char)
  | 0, cs => some cs
  | _ + 1, [] => none
  | n + 1, c :: cs => if c.utf8Size ≤ n + 1 then fromOffset? (n + 1 - c.utf8Size) cs else none

/-- The text up to a byte offset, unless the offset is out of range or inside a character. -/
def upToOffset? : Nat → List Char → Option (List Char)
  | 0, _ => some []
  | _ + 1, [] => none
  | n + 1, c :: cs =>
    if c.utf8Size ≤ n + 1 then (upToOffset? (n + 1 - c.utf8Size) cs).map (c :: ·) else none

/-- The text between two byte offsets. -/
def slice? (text : List Char) (start stop : Nat) : Option (List Char) :=
  if start ≤ stop then (fromOffset? start text).bind (upToOffset? (stop - start)) else none

theorem length_encode_cons (c : Char) (cs : List Char) :
    (encode (c :: cs)).length = c.utf8Size + (encode cs).length := by
  rw [encode_cons, List.length_append, String.length_utf8EncodeChar]

theorem fromOffset?_cons {c : Char} {n : Nat} (h : 0 < n) (cs : List Char) :
    fromOffset? n (c :: cs) =
      if c.utf8Size ≤ n then fromOffset? (n - c.utf8Size) cs else none := by
  obtain ⟨m, rfl⟩ : ∃ m, n = m + 1 := ⟨n - 1, by omega⟩
  rfl

theorem upToOffset?_cons {c : Char} {n : Nat} (h : 0 < n) (cs : List Char) :
    upToOffset? n (c :: cs) =
      if c.utf8Size ≤ n then (upToOffset? (n - c.utf8Size) cs).map (c :: ·) else none := by
  obtain ⟨m, rfl⟩ : ∃ m, n = m + 1 := ⟨n - 1, by omega⟩
  rfl

theorem fromOffset?_length (a b : List Char) : fromOffset? (encode a).length (a ++ b) = some b := by
  induction a with
  | nil => rw [List.nil_append, show (encode []).length = 0 from rfl, fromOffset?]
  | cons c a ih =>
    have hsize := c.utf8Size_pos
    rw [length_encode_cons, List.cons_append, fromOffset?_cons (by omega), if_pos (by omega),
      Nat.add_sub_cancel_left, ih]

theorem upToOffset?_length (a b : List Char) : upToOffset? (encode a).length (a ++ b) = some a := by
  induction a with
  | nil => rw [List.nil_append, show (encode []).length = 0 from rfl, upToOffset?]
  | cons c a ih =>
    have hsize := c.utf8Size_pos
    rw [length_encode_cons, List.cons_append, upToOffset?_cons (by omega), if_pos (by omega),
      Nat.add_sub_cancel_left, ih, Option.map_some]

/-- The part of a text behind its first part. -/
theorem slice?_append (a b c : List Char) :
    slice? (a ++ (b ++ c)) (encode a).length ((encode a).length + (encode b).length) = some b := by
  rw [slice?, if_pos (by omega), fromOffset?_length, Option.bind_some, Nat.add_sub_cancel_left,
    upToOffset?_length]

/-! ## The loop -/

/-- Why the loop stops early. -/
inductive Stop where
  /-- An offset or a position is not one. -/
  | stray
  | fault (fault : Fault)

/-- A value that must be there. -/
def orStray {α : Type} : Option α → Except Stop α
  | none => .error .stray
  | some x => .ok x

/-- What is known between two bytes of the mask. -/
structure OffsetState where
  /-- The declarations, that with the open body included. -/
  declarations : List Declaration := []
  /-- The position of the declaration whose body is open, and whether no segment of it has been
  read. -/
  opened : Option (Nat × Bool) := none
  /-- The offsets of the open braces, the innermost first. -/
  braces : List Nat := []
  /-- Where the stretch outside all braces starts. -/
  topStart : Nat := 0
  /-- Where the stretch in the open body starts. -/
  memberStart : Nat := 0

/-- The mark that a byte is. -/
def Mark.ofByte? (b : UInt8) : Option Mark :=
  if b = 0x7B then some openBrace
  else if b = 0x7D then some closeBrace
  else if b = 0x3B then some semicolon
  else none

/-- The first of `count` offsets at which no blank stands, the first of all if there is none. -/
def firstSolid? (bytes : List UInt8) (first : Nat) : (offset count : Nat) → Option Nat
  | _, 0 => some first
  | offset, count + 1 =>
    match bytes[offset]? with
    | none => none
    | some b =>
      if Text.isAsciiBlank b then firstSolid? bytes first (offset + 1) count else some offset

/-- A source as the loop sees it. -/
structure Sheet where
  file : Path
  /-- The line index of the source. -/
  index : LineIndex
  /-- The mask of the source. -/
  text : List Char

/-- The sheet of a source. -/
def Sheet.ofSource (file : Path) (source : List Char) : Sheet where
  file
  index := LineIndex.ofText source
  text := mask source

/-- The sheet of a source that is masked byte by byte, unless what comes of it is no text. -/
def Sheet.ofBytes? (file : Path) (source : List Char) : Option Sheet := do
  let bytes ← maskBytes? (encode source)
  let text ← Text.ofBytes? bytes
  return { file, index := LineIndex.ofText source, text := text.toList }

/-- The stretch between two offsets, and the line in which it starts, blanks aside. -/
def Sheet.stretch (sheet : Sheet) (start stop : Nat) : Except Stop (List Char × Nat) := do
  let first ← orStray (firstSolid? (encode sheet.text) start start (stop - start))
  let segment ← orStray (slice? sheet.text start stop)
  return (segment, sheet.index.lineOf first)

namespace OffsetState

/-- Reads the stretch of the open body up to an offset, if a body is open. -/
def addMember (sheet : Sheet) (s : OffsetState) (offset : Nat) : Except Stop OffsetState :=
  match s.opened with
  | none => .ok s
  | some (position, fresh) => do
    let segment ← orStray (slice? sheet.text s.memberStart offset)
    match s.declarations[position]? with
    | none => return { s with opened := some (position, false) }
    | some owner =>
      let d := OpenDeclaration.add { declaration := owner, fresh } segment
      return { s with
        declarations := s.declarations.set position d.declaration
        opened := some (position, d.fresh) }

/-- Passes an opening brace. -/
def passOpen (sheet : Sheet) (s : OffsetState) (offset : Nat) : Except Stop OffsetState :=
  match s.braces.length with
  | 0 => do
    let (header, line) ← sheet.stretch s.topStart offset
    match declaration? header sheet.file line with
    | none => return { s with braces := offset :: s.braces }
    | some d =>
      let declarations := s.declarations ++ [d]
      let position ← orStray declarations.length.ppred
      return { s with
        declarations
        opened := some (position, true)
        braces := offset :: s.braces
        memberStart := offset + 1 }
  | 1 => do
    let s ← s.addMember sheet offset
    return { s with braces := offset :: s.braces }
  | _ => .ok { s with braces := offset :: s.braces }

/-- Passes a closing brace. -/
def passClose (sheet : Sheet) (s : OffsetState) (offset : Nat) : Except Stop OffsetState :=
  match s.braces with
  | [] => .error (.fault (.unmatched (sheet.index.lineOf offset)))
  | _ :: braces => do
    let outer ← orStray s.braces.length.ppred
    match outer with
    | 0 =>
      let s ← s.addMember sheet offset
      return { s with opened := none, braces, topStart := offset + 1 }
    | 1 => return { s with braces, memberStart := offset + 1 }
    | _ => return { s with braces }

/-- Passes a semicolon. -/
def passSemicolon (sheet : Sheet) (s : OffsetState) (offset : Nat) : Except Stop OffsetState :=
  match s.braces.length with
  | 0 => do
    let (statement, line) ← sheet.stretch s.topStart offset
    return { s with
      declarations := s.declarations ++ (alias? statement sheet.file line).toList
      topStart := offset + 1 }
  | 1 =>
    match s.opened with
    | none => .ok s
    | some _ => do
      let s ← s.addMember sheet offset
      return { s with memberStart := offset + 1 }
  | _ => .ok s

/-- Passes a mark. -/
def pass (sheet : Sheet) (s : OffsetState) (offset : Nat) : Mark → Except Stop OffsetState
  | .openBrace => s.passOpen sheet offset
  | .closeBrace => s.passClose sheet offset
  | .semicolon => s.passSemicolon sheet offset

/-- Passes the bytes from an offset on. -/
def run (sheet : Sheet) : OffsetState → (offset : Nat) → List UInt8 → Except Stop OffsetState
  | s, _, [] => .ok s
  | s, offset, b :: bytes =>
    match Mark.ofByte? b with
    | none => run sheet s (offset + 1) bytes
    | some mark => do run sheet (← s.pass sheet offset mark) (offset + 1) bytes

end OffsetState

/-- The declarations on a sheet, in order. -/
def Sheet.declarations (sheet : Sheet) : Except Stop (List Declaration) := do
  let s ← OffsetState.run sheet {} 0 (encode sheet.text)
  match s.braces with
  | [] => return s.declarations
  | offset :: _ => throw (.fault (.unclosed (sheet.index.lineOf offset)))

/-- The declarations of a source, in order, found by offsets. -/
def scanByOffsets (file : Path) (source : List Char) : Except Stop (List Declaration) := do
  let sheet ← orStray (Sheet.ofBytes? file source)
  sheet.declarations

/-! ## Bytes that are no marks -/

theorem ofByte?_encode {c : Char} {mark : Mark} (h : Mark.ofChar? c = some mark) :
    ∃ b, String.utf8EncodeChar c = [b] ∧ Mark.ofByte? b = some mark := by
  rw [← Mark.char_of_ofChar? h]
  cases mark <;> exact ⟨_, rfl, rfl⟩

theorem ofByte?_of_mem_encode {c : Char} (h : Mark.ofChar? c = none) {b : UInt8}
    (hb : b ∈ String.utf8EncodeChar c) : Mark.ofByte? b = none := by
  have hne : ∀ d : Char, d.val.toNat ≤ 0x7f → Mark.ofChar? d ≠ none → b.toNat ≠ d.val.toNat := by
    rintro d hd hmark hbyte
    obtain rfl := eq_of_ascii_byte hd hb hbyte
    exact hmark h
  have hopen : b ≠ 0x7B := fun heq => hne '\x7b' (by decide) (by decide) (by rw [heq]; rfl)
  have hclose : b ≠ 0x7D := fun heq => hne '\x7d' (by decide) (by decide) (by rw [heq]; rfl)
  have hsemicolon : b ≠ 0x3B := fun heq => hne ';' (by decide) (by decide) (by rw [heq]; rfl)
  rw [Mark.ofByte?, if_neg hopen, if_neg hclose, if_neg hsemicolon]

namespace OffsetState

variable {sheet : Sheet} {s : OffsetState}

theorem run_of_no_mark (sheet : Sheet) {bytes : List UInt8} (h : ∀ b ∈ bytes, Mark.ofByte? b = none)
    (offset : Nat) (rest : List UInt8) :
    run sheet s offset (bytes ++ rest) = run sheet s (offset + bytes.length) rest := by
  induction bytes generalizing offset with
  | nil => rfl
  | cons b bytes ih =>
    rw [List.cons_append, run, h b List.mem_cons_self]
    dsimp only
    rw [ih (fun x hx => h x (List.mem_cons_of_mem b hx)), List.length_cons]
    congr 1
    omega

theorem run_unmarked (sheet : Sheet) {segment : List Char} (h : Unmarked segment) (offset : Nat)
    (rest : List UInt8) :
    run sheet s offset (encode segment ++ rest) =
      run sheet s (offset + (encode segment).length) rest := by
  refine run_of_no_mark sheet (fun b hb => ?_) offset rest
  obtain ⟨c, hc, hbyte⟩ := List.mem_flatMap.mp hb
  exact ofByte?_of_mem_encode (h c hc) hbyte

/-- The loop goes over a segment to its mark. -/
theorem run_segment {segment : List Char} {c : Char} {mark : Mark} (h : Unmarked segment)
    (hc : Mark.ofChar? c = some mark) (offset : Nat) (rest : List Char) :
    run sheet s offset (encode (segment ++ c :: rest)) =
      (s.pass sheet (offset + (encode segment).length) mark).bind fun s' =>
        run sheet s' (offset + (encode (segment ++ [c])).length) (encode rest) := by
  obtain ⟨b, hbyte, hmark⟩ := ofByte?_encode hc
  have hone : encode [c] = [b] := by simp [encode, hbyte]
  have hcons : encode (c :: rest) = b :: encode rest := by simp [encode, hbyte]
  rw [encode_append, run_unmarked sheet h, hcons, run, hmark, encode_append, List.length_append,
    hone]
  rfl

end OffsetState

/-! ## Stretches -/

theorem Sheet.ofBytes?_eq (file : Path) (source : List Char) :
    Sheet.ofBytes? file source = some (Sheet.ofSource file source) := by
  simp only [Sheet.ofBytes?, maskBytes?_encode, ofBytes?_encode, Option.bind_eq_bind,
    Option.bind_some, String.toList_ofList]
  rfl

theorem isAsciiBlankChar_eq (c : Char) :
    (decide (c.toNat < 0x80) && Text.isAsciiBlank c.toUInt8) = Text.isAsciiBlankChar c := by
  rw [Bool.eq_iff_iff]
  constructor
  · intro h
    rw [Bool.and_eq_true, decide_eq_true_eq] at h
    obtain ⟨hascii, hblank⟩ := h
    have hc : c.val.toNat ≤ 0x7f := Nat.le_of_lt_succ hascii
    refine Text.isAsciiBlankChar_of_byte (b := c.toUInt8) ?_ hblank
    simp only [String.utf8EncodeChar, if_pos hc, List.mem_singleton]
    rfl
  · intro h
    refine Text.isAsciiBlankChar_cases h ?_ ?_ ?_ ?_ ?_ <;> decide

theorem encode_of_isAsciiBlankChar {c : Char} (h : Text.isAsciiBlankChar c) :
    ∃ b, String.utf8EncodeChar c = [b] ∧ Text.isAsciiBlank b := by
  refine Text.isAsciiBlankChar_cases h ?_ ?_ ?_ ?_ ?_ <;> exact ⟨_, rfl, rfl⟩

/-- The search for a solid byte passes the blanks that a stretch starts with. -/
theorem firstSolid?_eq {text before tail rest : List Char} (h : text = before ++ (tail ++ rest))
    (first : Nat) :
    firstSolid? (encode text) first (encode before).length (encode tail).length =
      some (if tail.all Text.isAsciiBlankChar then first
        else (encode (before ++ tail.takeWhile Text.isAsciiBlankChar)).length) := by
  induction tail generalizing before with
  | nil => rfl
  | cons c tail ih =>
    obtain ⟨b, bytes, hbytes⟩ : ∃ b bytes, String.utf8EncodeChar c = b :: bytes := by
      refine List.exists_cons_of_ne_nil (List.ne_nil_of_length_pos ?_)
      rw [String.length_utf8EncodeChar]
      exact c.utf8Size_pos
    have hget : (encode text)[(encode before).length]? = some b := by
      rw [h, encode_append, List.getElem?_append_right (Nat.le_refl _), Nat.sub_self]
      simp [encode, hbytes]
    have hlength : (encode (c :: tail)).length = (bytes.length + (encode tail).length) + 1 := by
      simp [encode, hbytes]
    rw [hlength, firstSolid?, hget]
    by_cases hc : Text.isAsciiBlankChar c
    · obtain ⟨b', hb', hblank⟩ := encode_of_isAsciiBlankChar hc
      obtain ⟨rfl, rfl⟩ : b' = b ∧ bytes = [] := by simpa [hb'] using hbytes
      have hnext : (encode before).length + 1 = (encode (before ++ [c])).length := by
        simp [encode, hb']
      have htext : text = before ++ [c] ++ (tail ++ rest) := by simp [h]
      simp only [hblank, if_true, List.length_nil, Nat.zero_add, hnext, ih htext, List.all_cons, hc,
        Bool.true_and, List.takeWhile_cons_of_pos, List.append_assoc, List.singleton_append]
    · have hsolid : ¬ Text.isAsciiBlank b := by
        intro hblank
        exact hc (Text.isAsciiBlankChar_of_byte (hbytes ▸ List.mem_cons_self) hblank)
      simp [hsolid, hc]

/-- Blanks declare nothing, in whatever line they stand. -/
theorem declares_nothing_of_isBlank {blanks : List Char} (h : ∀ c ∈ blanks, Text.isBlank c)
    (file : Path) (line : Nat) :
    declaration? blanks file line = none ∧ alias? blanks file line = none := by
  constructor
  · rw [declaration?, wordsOf_of_isBlank h]
    rfl
  · rw [alias?, aliasName?, clean, wordsOf_of_isBlank h]
    rfl

/-- The stretch up to a mark, and the line of what it declares. -/
theorem stretch_eq {file : Path} {source before tail rest : List Char}
    (h : mask source = before ++ (tail ++ rest)) :
    ∃ line, (Sheet.ofSource file source).stretch (encode before).length
        ((encode before).length + (encode tail).length) = .ok (tail, line) ∧
      declaration? tail file line =
        declaration? tail file (lineAfter (before.count '\n' + leadingNewlines tail)) ∧
      alias? tail file line =
        alias? tail file (lineAfter (before.count '\n' + leadingNewlines tail)) := by
  have hsolid := firstSolid?_eq h (encode before).length
  have hslice := slice?_append before tail rest
  rw [← h] at hslice
  have hstretch : (Sheet.ofSource file source).stretch (encode before).length
      ((encode before).length + (encode tail).length) = .ok (tail,
        (LineIndex.ofText source).lineOf
          (if tail.all Text.isAsciiBlankChar then (encode before).length
            else (encode (before ++ tail.takeWhile Text.isAsciiBlankChar)).length)) := by
    simp only [Sheet.stretch, Sheet.ofSource, Nat.add_sub_cancel_left, hsolid, hslice]
    rfl
  refine ⟨_, hstretch, ?_⟩
  by_cases hall : tail.all Text.isAsciiBlankChar
  · have hblank : ∀ c ∈ tail, Text.isBlank c := fun c hc =>
      Text.isBlank_of_isAsciiBlankChar (List.all_eq_true.mp hall c hc)
    simp only [declares_nothing_of_isBlank hblank, and_self]
  · have hline : (LineIndex.ofText source).lineOf
        (encode (before ++ tail.takeWhile Text.isAsciiBlankChar)).length =
          lineAfter (before.count '\n' + leadingNewlines tail) := by
      have hsplit : mask source = before ++ tail.takeWhile Text.isAsciiBlankChar ++
          (tail.dropWhile Text.isAsciiBlankChar ++ rest) := by
        rw [h, List.append_assoc, ← List.append_assoc (tail.takeWhile _),
          List.takeWhile_append_dropWhile]
      rw [lineOf_mask hsplit, List.count_append, leadingNewlines, funext isAsciiBlankChar_eq]
    rw [if_neg hall, hline]
    exact ⟨rfl, rfl⟩

/-! ## The invariant -/

/-- The loop has come as far as the scan, to the end of `before`, which is empty or ends at a
mark. -/
structure Follows (index : LineIndex) (before : List Char) (s : ScanState) (o : OffsetState) :
    Prop where
  newlines : s.newlines = before.count '\n'
  braces : s.braces = o.braces.map index.lineOf
  declarations : o.declarations = s.declarations ++ (s.current.map (·.declaration)).toList
  opened : o.opened = s.current.map fun d => (s.declarations.length, d.fresh)
  outside : s.braces = [] → s.current = none ∧ o.topStart = (encode before).length
  inside : s.current.isSome → ∀ line, s.braces = [line] → o.memberStart = (encode before).length

/-- The loop comes as far as the scan, or it stops with the same fault. -/
def Agree (index : LineIndex) (before : List Char) :
    Except Fault ScanState → Except Stop OffsetState → Prop
  | .ok s, .ok o => Follows index before s o
  | .error fault, .error (.fault fault') => fault = fault'
  | _, _ => False

theorem follows_start (index : LineIndex) : Follows index [] {} {} where
  newlines := rfl
  braces := rfl
  declarations := rfl
  opened := rfl
  outside := fun _ => ⟨rfl, rfl⟩
  inside := by simp

/-- In the mask of the source, the mark `c` stands behind `before` and the segment `tail`, at this
offset. -/
structure AtMark (source before tail : List Char) (c : Char) (offset : Nat) : Prop where
  exists_rest : ∃ rest, mask source = before ++ (tail ++ c :: rest)
  isMark : ∃ mark, Mark.ofChar? c = some mark
  offset_eq : offset = (encode before).length + (encode tail).length

variable {source before tail : List Char} {c : Char} {offset : Nat}

namespace AtMark

theorem length_encode (h : AtMark source before tail c offset) :
    (encode (before ++ (tail ++ [c]))).length = offset + 1 := by
  obtain ⟨mark, hmark⟩ := h.isMark
  obtain ⟨b, hbyte, -⟩ := ofByte?_encode hmark
  have hone : encode [c] = [b] := by simp [encode, hbyte]
  rw [encode_append, encode_append, hone, List.length_append, List.length_append,
    List.length_singleton, h.offset_eq, Nat.add_assoc]

theorem count_eq (h : AtMark source before tail c offset) :
    (before ++ (tail ++ [c])).count '\n' = before.count '\n' + tail.count '\n' := by
  have hc : c ≠ '\n' := by
    rintro rfl
    obtain ⟨mark, hmark⟩ := h.isMark
    cases hmark
  rw [List.count_append, List.count_append, List.count_singleton, if_neg (by simpa using hc)]
  rfl

theorem lineOf_eq (h : AtMark source before tail c offset) :
    (LineIndex.ofText source).lineOf offset =
      lineAfter (before.count '\n' + tail.count '\n') := by
  obtain ⟨rest, hrest⟩ := h.exists_rest
  rw [← List.append_assoc] at hrest
  rw [h.offset_eq, ← List.length_append, ← encode_append, lineOf_mask hrest, List.count_append]

end AtMark

namespace Follows

variable {s : ScanState} {o : OffsetState}

theorem newlines_at (h : Follows (LineIndex.ofText source) before s o)
    (hat : AtMark source before tail c offset) :
    s.newlines + tail.count '\n' = (before ++ (tail ++ [c])).count '\n' := by
  rw [h.newlines, hat.count_eq]

/-- The line of the mark is the same for the loop and the scan. -/
theorem line_at (h : Follows (LineIndex.ofText source) before s o)
    (hat : AtMark source before tail c offset) :
    lineAfter (s.newlines + tail.count '\n') = (LineIndex.ofText source).lineOf offset := by
  rw [h.newlines, hat.lineOf_eq]

/-- Outside all braces the stretch up to the mark is the segment. -/
theorem stretch_eq (file : Path) (h : Follows (LineIndex.ofText source) before s o)
    (hat : AtMark source before tail c offset) (hs : s.braces = []) :
    ∃ line, (Sheet.ofSource file source).stretch o.topStart offset = .ok (tail, line) ∧
      declaration? tail file line =
        declaration? tail file (lineAfter (s.newlines + leadingNewlines tail)) ∧
      alias? tail file line = alias? tail file (lineAfter (s.newlines + leadingNewlines tail)) := by
  obtain ⟨rest, hrest⟩ := hat.exists_rest
  rw [(h.outside hs).2, hat.offset_eq, h.newlines]
  exact Source.stretch_eq hrest

/-- Directly inside a body the loop reads what the scan reads. -/
theorem addMember_eq (file : Path) (h : Follows (LineIndex.ofText source) before s o)
    (hat : AtMark source before tail c offset) {line : Nat} (hs : s.braces = [line]) :
    o.addMember (Sheet.ofSource file source) offset =
      .ok { o with
        declarations :=
          s.declarations ++ ((s.current.map (·.add tail)).map (·.declaration)).toList
        opened := (s.current.map (·.add tail)).map fun d => (s.declarations.length, d.fresh) } := by
  have hdeclarations := h.declarations
  have hopened := h.opened
  have hinside := h.inside
  obtain ⟨declarations, opened, braces, topStart, memberStart⟩ := o
  cases hcurrent : s.current with
  | none =>
    rw [hcurrent] at hdeclarations hopened
    obtain rfl : declarations = _ := hdeclarations
    obtain rfl : opened = _ := hopened
    rfl
  | some d =>
    rw [hcurrent] at hdeclarations hopened hinside
    obtain rfl : declarations = _ := hdeclarations
    obtain rfl : opened = _ := hopened
    obtain rfl : memberStart = _ := hinside rfl line hs
    obtain ⟨rest, hrest⟩ := hat.exists_rest
    have hslice := slice?_append before tail (c :: rest)
    rw [← hrest, ← hat.offset_eq] at hslice
    have hget : (s.declarations ++ [d.declaration])[s.declarations.length]? =
        some d.declaration := by
      simp
    have hset : ∀ d' : Declaration,
        (s.declarations ++ [d.declaration]).set s.declarations.length d' =
          s.declarations ++ [d'] := by
      simp
    simp only [OffsetState.addMember, Sheet.ofSource, hslice, orStray, Option.map_some,
      Option.toList_some, hget, hset, bind, Except.bind]
    rfl

theorem passOpen (file : Path) (h : Follows (LineIndex.ofText source) before s o)
    (hat : AtMark source before tail c offset) :
    Agree (LineIndex.ofText source) (before ++ (tail ++ [c])) (s.pass file (tail, .openBrace))
      (o.passOpen (Sheet.ofSource file source) offset) := by
  have hnewlines := h.newlines_at hat
  have hline := h.line_at hat
  have hbraces := h.braces
  rcases hoffsets : o.braces with _ | ⟨offset₁, _ | ⟨offset₂, offsets⟩⟩ <;> rw [hoffsets] at hbraces
  · obtain ⟨hcurrent, htop⟩ := h.outside hbraces
    obtain ⟨line, hstretch, hdeclares, -⟩ := h.stretch_eq file hat hbraces
    have hdeclarations := h.declarations
    have hopened := h.opened
    rw [hcurrent] at hdeclarations hopened
    have hfile : (Sheet.ofSource file source).file = file := rfl
    simp only [ScanState.pass, hbraces, List.map_nil, OffsetState.passOpen, hoffsets,
      List.length_nil, ← hdeclares, hstretch, bind, Except.bind, hfile]
    cases declaration? tail file line with
    | none =>
      exact
        { newlines := hnewlines
          braces := congrArg (fun line => [line]) hline
          declarations := hdeclarations
          opened := hopened
          outside := by simp
          inside := by simp }
    | some d =>
      have hlast : (o.declarations ++ [d]).length.ppred = some s.declarations.length := by
        simp [hdeclarations]
      simp only [hlast, orStray]
      exact
        { newlines := hnewlines
          braces := congrArg (fun line => [line]) hline
          declarations := by simp [hdeclarations]
          opened := rfl
          outside := by simp
          inside := fun _ _ _ => hat.length_encode.symm }
  · simp only [ScanState.pass, hbraces, List.map_cons, List.map_nil, OffsetState.passOpen, hoffsets,
      List.length_singleton, h.addMember_eq file hat hbraces, bind, Except.bind]
    exact
      { newlines := hnewlines
        braces := by simp [hline]
        declarations := rfl
        opened := rfl
        outside := by simp
        inside := by simp }
  · simp only [ScanState.pass, hbraces, List.map_cons, OffsetState.passOpen, hoffsets,
      List.length_cons]
    exact
      { newlines := hnewlines
        braces := by simp [hline]
        declarations := h.declarations
        opened := h.opened
        outside := by simp
        inside := by simp }

theorem passClose (file : Path) (h : Follows (LineIndex.ofText source) before s o)
    (hat : AtMark source before tail c offset) :
    Agree (LineIndex.ofText source) (before ++ (tail ++ [c])) (s.pass file (tail, .closeBrace))
      (o.passClose (Sheet.ofSource file source) offset) := by
  have hnewlines := h.newlines_at hat
  have hbraces := h.braces
  rcases hoffsets : o.braces with _ | ⟨offset₁, _ | ⟨offset₂, offsets⟩⟩ <;> rw [hoffsets] at hbraces
  · simp only [ScanState.pass, hbraces, List.map_nil, OffsetState.passClose, hoffsets]
    exact congrArg Fault.unmatched (h.line_at hat)
  · simp only [ScanState.pass, hbraces, List.map_cons, List.map_nil, OffsetState.passClose,
      hoffsets, List.length_singleton, Nat.ppred_succ, orStray, h.addMember_eq file hat hbraces,
      bind, Except.bind]
    exact
      { newlines := hnewlines
        braces := rfl
        declarations := by simp [Option.map_map, Function.comp_def]
        opened := rfl
        outside := fun _ => ⟨rfl, hat.length_encode.symm⟩
        inside := by simp }
  · cases offsets with
    | nil =>
      simp only [ScanState.pass, hbraces, List.map_cons, List.map_nil, OffsetState.passClose,
        hoffsets, List.length_cons, List.length_nil, Nat.ppred_succ, orStray, bind, Except.bind]
      exact
        { newlines := hnewlines
          braces := rfl
          declarations := h.declarations
          opened := h.opened
          outside := by simp
          inside := fun _ _ _ => hat.length_encode.symm }
    | cons offset₃ offsets =>
      simp only [ScanState.pass, hbraces, List.map_cons, OffsetState.passClose, hoffsets,
        List.length_cons, Nat.ppred_succ, orStray, bind, Except.bind]
      exact
        { newlines := hnewlines
          braces := rfl
          declarations := h.declarations
          opened := h.opened
          outside := by simp
          inside := by simp }

theorem passSemicolon (file : Path) (h : Follows (LineIndex.ofText source) before s o)
    (hat : AtMark source before tail c offset) :
    Agree (LineIndex.ofText source) (before ++ (tail ++ [c])) (s.pass file (tail, .semicolon))
      (o.passSemicolon (Sheet.ofSource file source) offset) := by
  have hnewlines := h.newlines_at hat
  have hbraces := h.braces
  rcases hoffsets : o.braces with _ | ⟨offset₁, _ | ⟨offset₂, offsets⟩⟩ <;> rw [hoffsets] at hbraces
  · obtain ⟨hcurrent, htop⟩ := h.outside hbraces
    obtain ⟨line, hstretch, -, halias⟩ := h.stretch_eq file hat hbraces
    have hdeclarations := h.declarations
    have hfile : (Sheet.ofSource file source).file = file := rfl
    simp only [ScanState.pass, hbraces, List.map_nil, OffsetState.passSemicolon, hoffsets,
      List.length_nil, ← halias, hstretch, bind, Except.bind, hfile]
    exact
      { newlines := hnewlines
        braces := rfl
        declarations := by simp [hdeclarations, hcurrent]
        opened := by simp [h.opened, hcurrent]
        outside := fun _ => ⟨hcurrent, hat.length_encode.symm⟩
        inside := by simp [hcurrent] }
  · have hopened := h.opened
    cases hcurrent : s.current with
    | none =>
      rw [hcurrent, Option.map_none] at hopened
      simp only [ScanState.pass, hbraces, List.map_cons, List.map_nil, OffsetState.passSemicolon,
        hoffsets, List.length_singleton, hopened, hcurrent]
      exact
        { newlines := hnewlines
          braces := by simp [hoffsets]
          declarations := by simp [h.declarations, hcurrent]
          opened := hopened
          outside := by simp
          inside := by simp }
    | some d =>
      rw [hcurrent, Option.map_some] at hopened
      have hadd := h.addMember_eq file hat hbraces
      simp only [ScanState.pass, hbraces, List.map_cons, List.map_nil, OffsetState.passSemicolon,
        hoffsets, List.length_singleton, hopened, hadd, bind, Except.bind]
      exact
        { newlines := hnewlines
          braces := rfl
          declarations := rfl
          opened := rfl
          outside := by simp
          inside := fun _ _ _ => hat.length_encode.symm }
  · simp only [ScanState.pass, hbraces, List.map_cons, OffsetState.passSemicolon, hoffsets,
      List.length_cons]
    exact
      { newlines := hnewlines
        braces := by simp [hoffsets]
        declarations := h.declarations
        opened := h.opened
        outside := by simp
        inside := by simp }

theorem pass (file : Path) (mark : Mark) (h : Follows (LineIndex.ofText source) before s o)
    (hat : AtMark source before tail c offset) :
    Agree (LineIndex.ofText source) (before ++ (tail ++ [c])) (s.pass file (tail, mark))
      (o.pass (Sheet.ofSource file source) offset mark) := by
  cases mark with
  | openBrace => exact h.passOpen file hat
  | closeBrace => exact h.passClose file hat
  | semicolon => exact h.passSemicolon file hat

end Follows

/-- A text is unmarked, or it is cut at its first mark. -/
theorem unmarked_or_exists_mark (text : List Char) :
    Unmarked text ∨ ∃ tail c mark rest, text = tail ++ c :: rest ∧ Unmarked tail ∧
      Mark.ofChar? c = some mark ∧
        (segments text).1 = (tail, mark) :: (segments rest).1 := by
  induction text with
  | nil => exact .inl (by simp [Unmarked])
  | cons d text ih =>
    cases hd : Mark.ofChar? d with
    | some mark =>
      exact .inr ⟨[], d, mark, text, rfl, by simp [Unmarked], hd, by rw [segments_cons_of_mark hd]⟩
    | none =>
      rcases ih with ih | ⟨tail, c, mark, rest, rfl, htail, hc, hsegments⟩
      · exact .inl (List.forall_mem_cons.mpr ⟨hd, ih⟩)
      · have htail' : Unmarked (d :: tail) := List.forall_mem_cons.mpr ⟨hd, htail⟩
        refine .inr ⟨d :: tail, c, mark, rest, rfl, htail', hc, ?_⟩
        rw [← List.cons_append, segments_append_mark hc, segments_of_unmarked htail']
        rfl

/-- The loop and the scan go on alike from where they agree to the end. -/
theorem Follows.run (file : Path) {s : ScanState} {o : OffsetState} {rest : List Char}
    (h : Follows (LineIndex.ofText source) before s o) (hmask : mask source = before ++ rest) :
    ∃ end', Agree (LineIndex.ofText source) end'
      ((segments rest).1.foldlM (ScanState.pass file) s)
      (o.run (Sheet.ofSource file source) (encode before).length (encode rest)) := by
  induction hn : rest.length using Nat.strongRecOn generalizing before s o rest with
  | ind n ih =>
    rcases unmarked_or_exists_mark rest with
      hrest | ⟨tail, c, mark, rest, rfl, htail, hc, hsegments⟩
    · have hrun := @OffsetState.run_unmarked o (Sheet.ofSource file source) rest hrest
        (encode before).length []
      rw [List.append_nil] at hrun
      refine ⟨before, ?_⟩
      rw [segments_of_unmarked hrest, hrun]
      exact h
    · have hat : AtMark source before tail c ((encode before).length + (encode tail).length) :=
        ⟨⟨rest, hmask⟩, ⟨mark, hc⟩, rfl⟩
      have hpass := h.pass file mark hat
      rw [hsegments, List.foldlM_cons, OffsetState.run_segment htail hc]
      revert hpass
      rcases s.pass file (tail, mark) with fault | s' <;>
        rcases o.pass (Sheet.ofSource file source) _ mark with stop | o' <;> intro hpass
      · exact ⟨before ++ (tail ++ [c]), hpass⟩
      · exact hpass.elim
      · exact hpass.elim
      · have hlength : (encode before).length + (encode (tail ++ [c])).length =
            (encode (before ++ (tail ++ [c]))).length := by
          rw [encode_append before, List.length_append]
        have hrest : mask source = before ++ (tail ++ [c]) ++ rest := by simp [hmask]
        have hrun := ih rest.length (by simp [← hn]; omega) hpass hrest rfl
        rwa [← hlength] at hrun

/-- The loop never stops for an offset that is not one, and it finds what the scan finds. -/
theorem scanByOffsets_eq (file : Path) (source : List Char) :
    scanByOffsets file source = (scan file source).mapError Stop.fault := by
  obtain ⟨end', hend⟩ := (follows_start (LineIndex.ofText source)).run file
    (List.nil_append (mask source)).symm
  have hsheet : scanByOffsets file source = (Sheet.ofSource file source).declarations := by
    rw [scanByOffsets, Sheet.ofBytes?_eq]
    rfl
  rw [hsheet, scan, Sheet.declarations]
  change Agree _ _ _ (OffsetState.run (Sheet.ofSource file source) {} 0
    (encode (Sheet.ofSource file source).text)) at hend
  revert hend
  rcases (segments (mask source)).1.foldlM (ScanState.pass file) {} with fault | s <;>
    rcases OffsetState.run (Sheet.ofSource file source) {} 0
      (encode (Sheet.ofSource file source).text) with stop | o <;> intro hend
  · cases stop with
    | stray => exact hend.elim
    | fault fault' =>
      obtain rfl : fault = fault' := hend
      rfl
  · exact hend.elim
  · exact hend.elim
  · have hbraces : s.braces = o.braces.map (LineIndex.ofText source).lineOf := Follows.braces hend
    cases hoffsets : o.braces with
    | nil =>
      rw [hoffsets] at hbraces
      have hcurrent : s.current = none := (Follows.outside hend hbraces).1
      have hdeclarations : o.declarations = s.declarations := by
        rw [Follows.declarations hend, hcurrent, Option.map_none, Option.toList_none,
          List.append_nil]
      simp only [bind, Except.bind, hoffsets, hbraces, List.map_nil, hdeclarations]
      rfl
    | cons offset offsets =>
      rw [hoffsets] at hbraces
      simp only [bind, Except.bind, hoffsets, hbraces, List.map_cons]
      rfl

end Source

end Recheck
