import Recheck.Proofs.Source.Bodies
import Recheck.Proofs.Source.Lexemes
import Recheck.Proofs.Source.LineIndex

/-!
# Lines of a scan

A line is one more than the newlines before a position. The scan counts them segment by segment
(`Passes.newlines_eq`). A line index counts the line starts up to a byte offset, which comes to the
same (`lineOf_ofText`), and as the mask has its newlines at the offsets where the source has them
(`count_take_mask`), both have one index (`ofText_mask`), and a line can be looked up in the index
of the source by an offset in the mask (`lineOf_mask`). What an index answers of a text is put
together in `CountsNewlines`.
-/

namespace Recheck

namespace Source

/-! ## Newlines passed -/

/-- A newline is in one of the segments or behind the last mark. -/
theorem count_segments (text : List Char) :
    ((segments text).1.flatMap (·.1)).count '\n' + (segments text).2.count '\n' =
      text.count '\n' := by
  induction text with
  | nil => rfl
  | cons c text ih =>
    cases hc : Mark.ofChar? c with
    | some mark =>
      have hne : c ≠ '\n' := by
        rintro rfl
        cases hc
      rw [segments_cons_of_mark hc, List.count_cons_of_ne (by simpa using hne), ← ih]
      simp
    | none =>
      rw [segments_cons_of_none hc, List.count_cons, ← ih]
      rcases segments text with ⟨_ | ⟨piece, pieces⟩, tail⟩
      · simp [Cuts.prepend, List.count_cons]
      · simp only [Cuts.prepend, List.flatMap_cons, List.cons_append, List.count_cons]
        omega

variable {file : Path} {s s' : ScanState}

theorem newlines_pass {piece : List Char × Mark} (h : s.pass file piece = .ok s') :
    s'.newlines = s.newlines + piece.1.count '\n' := by
  obtain ⟨segment, mark⟩ := piece
  obtain ⟨declarations, current, braces, newlines⟩ := s
  cases mark <;> rcases braces with _ | ⟨line, _ | ⟨outer, braces⟩⟩ <;> cases h <;> rfl

theorem newlines_foldlM {pieces : List (List Char × Mark)}
    (h : pieces.foldlM (ScanState.pass file) s = .ok s') :
    s'.newlines = s.newlines + (pieces.flatMap (·.1)).count '\n' := by
  induction pieces generalizing s with
  | nil =>
    cases h
    rfl
  | cons piece pieces ih =>
    rw [List.foldlM_cons] at h
    cases hnext : s.pass file piece with
    | error fault =>
      rw [hnext] at h
      cases h
    | ok next =>
      rw [hnext] at h
      rw [ih h, newlines_pass hnext, List.flatMap_cons, List.count_append, Nat.add_assoc]

/-- The newlines of a text are passed but for those behind its last mark. -/
theorem Passes.newlines_eq {text : List Char} (h : Passes file text s s') :
    s'.newlines + (segments text).2.count '\n' = s.newlines + text.count '\n' := by
  rw [newlines_foldlM h, ← count_segments text, Nat.add_assoc]

theorem Passes.newlines_eq_of_endsAtMark {text : List Char} (h : Passes file text s s')
    (hend : EndsAtMark text) : s'.newlines = s.newlines + text.count '\n' := by
  have htail : (segments text).2 = [] := by
    have hsegments := segments_append hend []
    rw [List.append_nil] at hsegments
    rw [hsegments]
    rfl
  rw [← h.newlines_eq, htail]
  rfl

/-! ## Line indices -/

theorem count_encode (text : List Char) : (encode text).count 0x0A = text.count '\n' := by
  induction text with
  | nil => rfl
  | cons c text ih =>
    rw [encode_cons, List.count_append, ih]
    by_cases hc : c = '\n'
    · subst hc
      rw [List.count_cons_self, Nat.add_comm]
      rfl
    · rw [List.count_eq_zero.mpr fun h => hc (eq_lineFeed_of_byte h),
        List.count_cons_of_ne (by simpa using hc), Nat.zero_add]

/-- The line starts up to an offset are those behind the newlines before it. -/
theorem countP_startsAfter (text : List Char) (base offset : Nat) :
    (LineIndex.startsAfter base text).countP (fun start => start ≤ offset) =
      ((encode text).take (offset - base)).count 0x0A := by
  induction text generalizing base with
  | nil => simp [LineIndex.startsAfter, encode]
  | cons c text ih =>
    have hcons : encode (c :: text) = String.utf8EncodeChar c ++ encode text := rfl
    rw [hcons, LineIndex.startsAfter]
    by_cases hc : c = '\n'
    · subst hc
      have hbyte : String.utf8EncodeChar '\n' = [0x0A] := rfl
      rw [if_pos rfl, List.countP_cons, ih, hbyte, List.singleton_append]
      by_cases hle : base + 1 ≤ offset
      · rw [show offset - base = offset - (base + 1) + 1 by omega, List.take_succ_cons,
          List.count_cons_self, if_pos (by simpa using hle)]
      · rw [show offset - base = 0 by omega, show offset - (base + 1) = 0 by omega,
          if_neg (by simpa using hle)]
        rfl
    · have hzero : ((String.utf8EncodeChar c).take (offset - base)).count 0x0A = 0 :=
        List.count_eq_zero.mpr fun h => hc (eq_lineFeed_of_byte (List.mem_of_mem_take h))
      rw [if_neg hc, ih, List.take_append, List.count_append, hzero, String.length_utf8EncodeChar,
        Nat.zero_add, Nat.sub_sub]

/-- A line index has the line of an offset as one more than the newlines before it. -/
theorem lineOf_ofText (text : List Char) (offset : Nat) :
    (LineIndex.ofText text).lineOf offset =
      lineAfter (((encode text).take offset).count 0x0A) := by
  have hcount := countP_startsAfter text 0 offset
  rw [Nat.sub_zero] at hcount
  rw [LineIndex.lineOf_eq_min_countP, LineIndex.ofText, List.countP_cons_of_pos (by simp), hcount,
    Nat.min_def]
  rfl

/-! ## Newlines of the mask -/

theorem hideByte_eq_lineFeed (b : UInt8) : (hideByte b == 0x0A) = (b == 0x0A) := by
  by_cases hb : b = 0x0A
  · subst hb
    rfl
  · rw [hideByte, if_neg hb, beq_eq_false_iff_ne.mpr hb]
    rfl

/-- The mask has its newlines where the source has them, byte by byte. -/
theorem lineFeeds_maskFrom (r : Region) (text : List Char) :
    (encode (maskFrom r text)).map (· == 0x0A) = (encode text).map (· == 0x0A) := by
  -- A move can pass several characters, so the induction is on the length.
  induction hn : text.length using Nat.strongRecOn generalizing r text with
  | ind n ih =>
    cases text with
    | nil => rw [maskFrom_nil]
    | cons c cs =>
      have hlength : (cs.drop (r.move c cs).more).length < n := by
        rw [← hn, List.length_drop, List.length_cons]
        omega
      have hrest := ih _ hlength (r.move c cs).region _ rfl
      have hsplit : encode (c :: cs) =
          encode (c :: cs.take (r.move c cs).more) ++ encode (cs.drop (r.move c cs).more) := by
        rw [← encode_append, List.cons_append, List.take_append_drop]
      rw [maskFrom_cons, Move.mask, encode_append, List.map_append, hrest, hsplit, List.map_append]
      congr 1
      split
      · have hhide := encode_hide (c :: cs.take (r.move c cs).more)
        rw [hide] at hhide
        rw [hhide, List.map_map]
        exact List.map_congr_left fun b _ => hideByte_eq_lineFeed b
      · rfl

theorem count_take_mask (source : List Char) (offset : Nat) :
    ((encode (mask source)).take offset).count 0x0A =
      ((encode source).take offset).count 0x0A := by
  have hcount : ∀ bytes : List UInt8,
      (bytes.take offset).count 0x0A = ((bytes.map (· == 0x0A)).take offset).count true := by
    intro bytes
    rw [← List.map_take, List.count, List.count, List.countP_map]
    exact List.countP_congr fun b _ => by simp
  rw [hcount, hcount, mask, lineFeeds_maskFrom]

/-- A text has a line start behind each newline. -/
theorem startsAfter_eq (base : Nat) (text : List Char) :
    LineIndex.startsAfter base text =
      ((encode text).findIdxs (· == 0x0A) base).map (· + 1) := by
  induction text generalizing base with
  | nil => rfl
  | cons c text ih =>
    rw [LineIndex.startsAfter, encode_cons, List.findIdxs_append, List.map_append,
      String.length_utf8EncodeChar]
    by_cases hc : c = '\n'
    · subst hc
      rw [if_pos rfl, ih]
      rfl
    · have hnone : (String.utf8EncodeChar c).findIdxs (· == 0x0A) base = [] := by
        refine List.findIdxs_eq_nil_iff.mpr fun b hb => beq_eq_false_iff_ne.mpr ?_
        rintro rfl
        exact hc (eq_lineFeed_of_byte hb)
      rw [if_neg hc, ih, hnone]
      rfl

/-- The mask has the lines of the source. -/
theorem ofText_mask (source : List Char) :
    LineIndex.ofText (mask source) = LineIndex.ofText source := by
  have hflags : ∀ bytes : List UInt8, bytes.findIdxs (· == 0x0A) 0 =
      (bytes.map (· == 0x0A)).findIdxs id 0 := by
    intro bytes
    rw [List.findIdxs_map]
    rfl
  have hstarts : LineIndex.startsAfter 0 (mask source) = LineIndex.startsAfter 0 source := by
    rw [startsAfter_eq, startsAfter_eq, hflags, hflags, mask, lineFeeds_maskFrom]
  simp only [LineIndex.ofText, hstarts]

/-- The line of a position in the mask, looked up in the line index of the source. -/
theorem lineOf_mask {source before after : List Char} (h : mask source = before ++ after) :
    (LineIndex.ofText source).lineOf (encode before).length = lineAfter (before.count '\n') := by
  rw [lineOf_ofText, ← count_take_mask, h, encode_append, List.take_left, count_encode]

/-! ## What an index answers -/

theorem lineCount_ofText (text : List Char) :
    (LineIndex.ofText text).lineCount = text.count '\n' + 1 := by
  rw [LineIndex.lineCount, LineIndex.ofText, List.size_toArray, List.length_cons, startsAfter_eq,
    List.length_map, List.length_findIdxs, ← count_encode]
  rfl

/-- The answers of a line index go by the newlines of a text. -/
structure CountsNewlines (text : List Char) (index : LineIndex) : Prop where
  /-- The line of an offset, also of one past the end, is one more than the newlines among the bytes
  before it, or the largest number of 32 bits. -/
  lineOf_eq : ∀ offset, index.lineOf offset =
    min (((encode text).take offset).count 0x0A + 1) (UInt32.size - 1)
  /-- Lines do not go back. -/
  lineOf_le_lineOf : ∀ a b, a ≤ b → index.lineOf a ≤ index.lineOf b
  /-- Each offset lies in a line that is counted. -/
  lineOf_le_lineCount : ∀ offset, index.lineOf offset ≤ index.lineCount
  /-- There is one line more than there are newlines. -/
  lineCount_eq : index.lineCount = text.count '\n' + 1

/-- The line index of a text, which is searched by halving, gives each offset the line that counting
newlines gives it. -/
theorem countsNewlines_ofText (text : List Char) :
    CountsNewlines text (LineIndex.ofText text) where
  lineOf_eq offset := by
    rw [lineOf_ofText, lineAfter, Nat.min_def]
    rfl
  lineOf_le_lineOf _ _ := (LineIndex.ofText text).lineOf_le_lineOf
  lineOf_le_lineCount := (LineIndex.ofText text).lineOf_le_lineCount
  lineCount_eq := lineCount_ofText text

-- A newline lies in the line that it ends, and offsets past the end lie in the last line.
example : [0, 1, 2, 5, 6, 100].map (LineIndex.ofText "a\nbc\n\nd".toList).lineOf =
    [1, 1, 2, 3, 4, 4] := by decide +kernel

end Source

end Recheck
