import Recheck.Proofs.Content.Tidied
import Recheck.Proofs.Source.Padded

/-!
# The mask of a tidied source

The masker passes a source in moves, each of one character or of a few that belong together
(`maskFrom_eq`). Only a line feed ends a line for it. So tidying can end a comment or a literal that
went on, where a carriage return turns into a line feed, and it can keep a literal open that ended
with its line, where a backslash comes to stand before the line feed. In a source with neither
(`PlainFrom`) the moves are the same on both texts, blanks apart, and the mask of the source is the
mask of its tidied form, padded (`padded_maskFrom`).
-/

namespace Recheck

namespace Source

open Content (Tidied isPad loneReturn)
open Text (isBlank isAsciiBlankChar isBlank_of_isAsciiBlankChar)

/-! ## Moves -/

/-- How the masker passes the character at the head of a text. -/
structure Move where
  /-- How many characters are passed with it. -/
  more : Nat
  /-- Whether spaces are written instead. -/
  hidden : Bool
  /-- The region after them. -/
  region : Region

/-- The move of the masker at the text `c :: cs`. -/
def Region.move : Region → Char → List Char → Move
  | .code, c, cs =>
    if c = '/' ∧ ['/'] <+: cs then ⟨1, true, .lineComment⟩
    else if c = '/' ∧ ['*'] <+: cs then ⟨1, true, .blockComment 0⟩
    else if isQuote c then
      if [c, c] <+: cs then ⟨2, false, .tripleLiteral c⟩ else ⟨0, false, .literal c⟩
    else ⟨0, false, .code⟩
  | .lineComment, c, _ => ⟨0, true, if c = '\n' then .code else .lineComment⟩
  | .blockComment outer, c, cs =>
    if c = '/' ∧ ['*'] <+: cs then ⟨1, true, .blockComment (outer + 1)⟩
    else if c = '*' ∧ ['/'] <+: cs then
      ⟨1, true, if outer = 0 then .code else .blockComment (outer - 1)⟩
    else ⟨0, true, .blockComment outer⟩
  | .literal q, c, _ =>
    if c = q ∨ c = '\n' then ⟨0, false, .code⟩
    else if c = '\\' then ⟨1, true, .literal q⟩
    else ⟨0, true, .literal q⟩
  | .tripleLiteral q, c, cs =>
    if c = '\\' then ⟨1, true, .tripleLiteral q⟩
    else if c = q ∧ [q, q] <+: cs then ⟨2, false, .code⟩
    else ⟨0, true, .tripleLiteral q⟩

/-- The mask of the text `c :: cs`, with this move first: the characters that it passes or their
spaces, and the mask of the rest. -/
def Move.mask (m : Move) (c : Char) (cs : List Char) : List Char :=
  (if m.hidden then (c :: cs.take m.more).flatMap blank else c :: cs.take m.more) ++
    maskFrom m.region (cs.drop m.more)

/-- The masker makes one move after the other. -/
theorem maskFrom_eq (r : Region) (text : List Char) :
    maskFrom r text =
      match text with
      | [] => []
      | c :: cs => (r.move c cs).mask c cs := by
  fun_cases maskFrom r text with
  | case1 => rfl
  | case2 cs =>
    have hmove : Region.code.move '/' ('/' :: cs) = ⟨1, true, .lineComment⟩ := by
      simp [Region.move]
    simp only [hmove]
    rfl
  | case3 cs =>
    have hmove : Region.code.move '/' ('*' :: cs) = ⟨1, true, .blockComment 0⟩ := by
      simp [Region.move]
    simp only [hmove]
    rfl
  | case4 c d e cs hline hblock hq hquotes =>
    obtain ⟨hd, he⟩ := hquotes
    subst d e
    have hmove : Region.code.move c (c :: c :: cs) = ⟨2, false, .tripleLiteral c⟩ := by
      grind [Region.move]
    simp only [hmove]
    rfl
  | case5 c d e cs hline hblock hq hquotes =>
    have hmove : Region.code.move c (d :: e :: cs) = ⟨0, false, .literal c⟩ := by
      grind [Region.move]
    simp only [hmove]
    rfl
  | case6 c d e cs hline hblock hq =>
    have hmove : Region.code.move c (d :: e :: cs) = ⟨0, false, .code⟩ := by
      grind [Region.move]
    simp only [hmove]
    rfl
  | case7 c cs hline hblock hshort =>
    have hmove : Region.code.move c cs = ⟨0, false, if isQuote c then .literal c else .code⟩ := by
      rcases cs with _ | ⟨d, _ | ⟨e, cs⟩⟩
      · grind [Region.move]
      · grind [Region.move]
      · exact absurd rfl (hshort d e cs)
    simp only [hmove]
    rfl
  | case8 => rfl
  | case9 c cs hc => simp [Region.move, Move.mask, hc]
  | case10 outer cs =>
    have hmove : (Region.blockComment outer).move '/' ('*' :: cs) =
        ⟨1, true, .blockComment (outer + 1)⟩ := by
      simp [Region.move]
    simp only [hmove]
    rfl
  | case11 cs =>
    have hmove : (Region.blockComment 0).move '*' ('/' :: cs) = ⟨1, true, .code⟩ := by
      simp [Region.move]
    simp only [hmove]
    rfl
  | case12 outer cs =>
    have hmove : (Region.blockComment (outer + 1)).move '*' ('/' :: cs) =
        ⟨1, true, .blockComment outer⟩ := by
      simp [Region.move]
    simp only [hmove]
    rfl
  | case13 outer c cs hopen hclose hclose' =>
    have hmove : (Region.blockComment outer).move c cs = ⟨0, true, .blockComment outer⟩ := by
      rw [Region.move, if_neg, if_neg]
      · rintro ⟨rfl, rest, rfl⟩
        cases outer with
        | zero => exact hclose rest rfl rfl rfl
        | succ outer => exact hclose' outer rest rfl rfl rfl
      · rintro ⟨rfl, rest, rfl⟩
        exact hopen rest rfl rfl
    simp [hmove, Move.mask]
  | case14 q c cs hc => simp [Region.move, Move.mask, hc]
  | case15 q hq =>
    have hmove : (Region.literal q).move '\\' [] = ⟨1, true, .literal q⟩ := by
      rw [Region.move, if_neg hq, if_pos rfl]
    simp [hmove, Move.mask, maskFrom]
  | case16 q d cs hq =>
    have hmove : (Region.literal q).move '\\' (d :: cs) = ⟨1, true, .literal q⟩ := by
      rw [Region.move, if_neg hq, if_pos rfl]
    simp [hmove, Move.mask]
  | case17 q c cs hq hc => simp [Region.move, Move.mask, hq, hc]
  | case18 q => simp [Region.move, Move.mask, maskFrom]
  | case19 q d cs => simp [Region.move, Move.mask]
  | case20 q c hc d e rest hquotes =>
    obtain ⟨rfl, rfl, rfl⟩ := hquotes
    simp [Region.move, Move.mask, hc]
  | case21 q c hc d e rest hquotes =>
    have hmove : (Region.tripleLiteral q).move c (d :: e :: rest) =
        ⟨0, true, .tripleLiteral q⟩ := by
      grind [Region.move]
    simp [hmove, Move.mask]
  | case22 q c hc cs hshort =>
    have hmove : (Region.tripleLiteral q).move c cs = ⟨0, true, .tripleLiteral q⟩ := by
      rcases cs with _ | ⟨d, _ | ⟨e, cs⟩⟩
      · grind [Region.move]
      · grind [Region.move]
      · exact absurd rfl (hshort d e cs)
    simp [hmove, Move.mask]

theorem maskFrom_nil (r : Region) : maskFrom r [] = [] := maskFrom_eq r []

theorem maskFrom_cons (r : Region) (c : Char) (cs : List Char) :
    maskFrom r (c :: cs) = (r.move c cs).mask c cs :=
  maskFrom_eq r (c :: cs)

/-! ## Places -/

/-- The places that the masker comes to, region and text, after it has passed `skip` characters. -/
def placesFrom : (skip : Nat) → Region → List Char → List (Region × List Char)
  | _, _, [] => []
  | skip + 1, r, _ :: cs => placesFrom skip r cs
  | 0, r, c :: cs => (r, c :: cs) :: placesFrom (r.move c cs).more (r.move c cs).region cs

/-- A line ends at the head of the text, at a line feed or at both line ends together. -/
def endsLine : List Char → Bool
  | '\n' :: _ => true
  | '\r' :: '\n' :: _ => true
  | _ => false

/-- A backslash stands at the head of the text, and blanks between it and the end of its line. -/
def escapesPad : List Char → Bool
  | '\\' :: cs => cs.head? != some '\n' && endsLine (cs.dropWhile isPad)
  | _ => false

/-- A line that ends here ends for the region too. -/
def plainAt : Region → List Char → Bool
  | .lineComment, cs => !loneReturn cs
  | .literal _, cs => !loneReturn cs && !escapesPad cs
  | _, _ => true

/-- Comments and literals of one line end with the line, from a region on. -/
def PlainFrom (r : Region) (cs : List Char) : Prop :=
  ∀ place ∈ placesFrom 0 r cs, plainAt place.1 place.2

instance (r : Region) (cs : List Char) : Decidable (PlainFrom r cs) :=
  inferInstanceAs (Decidable (∀ place ∈ placesFrom 0 r cs, plainAt place.1 place.2))

theorem placesFrom_eq_drop (skip : Nat) (r : Region) (cs : List Char) :
    placesFrom skip r cs = placesFrom 0 r (cs.drop skip) := by
  induction skip generalizing cs with
  | zero => rfl
  | succ skip ih =>
    cases cs with
    | nil => rfl
    | cons c cs => exact ih cs

theorem plainFrom_cons {r : Region} {c : Char} {cs : List Char} :
    PlainFrom r (c :: cs) ↔
      plainAt r (c :: cs) ∧ PlainFrom (r.move c cs).region (cs.drop (r.move c cs).more) := by
  rw [PlainFrom, placesFrom, placesFrom_eq_drop, List.forall_mem_cons, PlainFrom]

/-! ## Moves of a text and of its tidied form -/

/-- Literals are in quotes. -/
def Region.Proper : Region → Prop
  | .literal q => isQuote q
  | .tripleLiteral q => isQuote q
  | _ => True

/-- The region ends with its line. -/
def Region.oneLine : Region → Bool
  | .lineComment => true
  | .literal _ => true
  | _ => false

/-- The region after a blank. -/
def Region.after (r : Region) (c : Char) : Region := if c = '\n' ∧ r.oneLine then .code else r

theorem after_of_ne {r : Region} {c : Char} (hc : c ≠ '\n') : r.after c = r := if_neg (hc ·.1)

theorem after_of_not_oneLine {r : Region} (hr : r.oneLine = false) (c : Char) : r.after c = r :=
  if_neg (by simp [hr])

theorem Region.Proper.after {r : Region} (hr : r.Proper) (c : Char) : (r.after c).Proper := by
  rw [Region.after]
  split
  · trivial
  · exact hr

variable {r : Region} {c : Char} {cs ds : List Char}

theorem proper_move (hr : r.Proper) (c : Char) (cs : List Char) : (r.move c cs).region.Proper := by
  fun_cases Region.move r c cs with
  | case6 | case8 =>
    dsimp only
    split <;> trivial
  | case10 | case14 => trivial
  | _ => assumption

theorem not_isAsciiBlankChar_of_isQuote (hc : isQuote c) : ¬ isAsciiBlankChar c := by
  simp only [isQuote, Bool.or_eq_true, beq_iff_eq] at hc
  rcases hc with rfl | rfl <;> decide

/-- A blank is passed alone, and it ends nothing but what ends with the line. -/
theorem move_blank (hr : r.Proper) (hc : isAsciiBlankChar c) (cs : List Char) :
    ∃ hidden, r.move c cs = ⟨0, hidden, r.after c⟩ := by
  have hslash : c ≠ '/' := by
    rintro rfl
    cases hc
  have hstar : c ≠ '*' := by
    rintro rfl
    cases hc
  have hescape : c ≠ '\\' := by
    rintro rfl
    cases hc
  have hquote : ∀ q, isQuote q → c ≠ q := by
    rintro q hq rfl
    exact not_isAsciiBlankChar_of_isQuote hq hc
  cases r with
  | code =>
    have hq : ¬ isQuote c := fun h => hquote c h rfl
    simp [Region.move, Region.after, Region.oneLine, hslash, hq]
  | lineComment => simp [Region.move, Region.after, Region.oneLine]
  | blockComment outer => simp [Region.move, Region.after, Region.oneLine, hslash, hstar]
  | literal q =>
    have hq : c ≠ q := hquote q hr
    by_cases hn : c = '\n' <;> simp [Region.move, Region.after, Region.oneLine, hescape, hn, hq]
  | tripleLiteral q =>
    have hq : c ≠ q := hquote q hr
    simp [Region.move, Region.after, Region.oneLine, hescape, hq]

theorem exists_blank_eq (hc : isAsciiBlankChar c) : ∃ d, isBlank d ∧ blank c = [d] := by
  refine Text.isAsciiBlankChar_cases hc ?_ ?_ ?_ ?_ ?_ <;> exact ⟨_, by decide, rfl⟩

/-- The mask of a blank is a blank. -/
theorem maskFrom_blank (hr : r.Proper) (hc : isAsciiBlankChar c) (cs : List Char) :
    ∃ d, isBlank d ∧ maskFrom r (c :: cs) = d :: maskFrom (r.after c) cs := by
  obtain ⟨hidden, hmove⟩ := move_blank hr hc cs
  rw [maskFrom_cons, hmove]
  cases hidden with
  | false => exact ⟨c, isBlank_of_isAsciiBlankChar hc, rfl⟩
  | true =>
    obtain ⟨d, hd, hblank⟩ := exists_blank_eq hc
    refine ⟨d, hd, ?_⟩
    simp only [Move.mask, if_true, List.take_zero, List.drop_zero, List.flatMap_singleton, hblank,
      List.singleton_append]

theorem maskFrom_lineFeed (hr : r.Proper) (cs : List Char) :
    maskFrom r ('\n' :: cs) = '\n' :: maskFrom (r.after '\n') cs := by
  obtain ⟨hidden, hmove⟩ := move_blank (c := '\n') hr rfl cs
  rw [maskFrom_cons, hmove]
  cases hidden <;> rfl

theorem plainFrom_blank (hr : r.Proper) (hc : isAsciiBlankChar c) (h : PlainFrom r (c :: cs)) :
    PlainFrom (r.after c) cs := by
  obtain ⟨hidden, hmove⟩ := move_blank hr hc cs
  have hrest := (plainFrom_cons.mp h).2
  rwa [hmove] at hrest

theorem solid_quotes {q : Char} (hq : isQuote q) : ∀ d ∈ [q, q], ¬ isAsciiBlankChar d := by
  intro d hd
  obtain rfl : d = q := by simpa using hd
  exact not_isAsciiBlankChar_of_isQuote hq

theorem solid_slash : ∀ d ∈ ['/'], ¬ isAsciiBlankChar d := Tidied.solid_of_all rfl

theorem solid_star : ∀ d ∈ ['*'], ¬ isAsciiBlankChar d := Tidied.solid_of_all rfl

/-- The masker passes a character that tidying keeps in the same way. -/
theorem move_tidied (hr : r.Proper) (c : Char) (h : Tidied cs ds) : r.move c ds = r.move c cs := by
  cases r with
  | code =>
    by_cases hq : isQuote c
    · simp only [Region.move, h.prefix_iff solid_slash, h.prefix_iff solid_star,
        h.prefix_iff (solid_quotes hq)]
    · simp only [Region.move, h.prefix_iff solid_slash, h.prefix_iff solid_star, if_neg hq]
  | lineComment => rfl
  | blockComment outer =>
    simp only [Region.move, h.prefix_iff solid_slash, h.prefix_iff solid_star]
  | literal q => rfl
  | tripleLiteral q => simp only [Region.move, h.prefix_iff (solid_quotes hr)]

/-- The further characters that are passed are the same, unless they are escaped. -/
theorem passed_tidied (hr : r.Proper) (c : Char) (h : Tidied cs ds) :
    c = '\\' ∧ r.move c cs = ⟨1, true, r⟩ ∨
      cs.take (r.move c cs).more = ds.take (r.move c cs).more ∧
        Tidied (cs.drop (r.move c cs).more) (ds.drop (r.move c cs).more) := by
  fun_cases Region.move r c cs with
  | case1 _ _ hline => exact .inr (h.drop_word solid_slash hline.2)
  | case2 _ _ _ hblock => exact .inr (h.drop_word solid_star hblock.2)
  | case3 _ _ _ _ hq hquotes => exact .inr (h.drop_word (solid_quotes hq) hquotes)
  | case7 outer _ _ hopen => exact .inr (h.drop_word solid_star hopen.2)
  | case8 outer _ _ _ hclose => exact .inr (h.drop_word solid_slash hclose.2)
  | case11 | case13 => exact .inl ⟨rfl, rfl⟩
  | case14 q _ _ _ hquotes => exact .inr (h.drop_word (solid_quotes hr) hquotes.2)
  | _ => exact .inr ⟨rfl, h⟩

/-! ## The masks -/

theorem not_oneLine_of_loneReturn (h : PlainFrom r ('\r' :: cs)) (hcs : cs.head? ≠ some '\n') :
    r.oneLine = false := by
  have hlone : loneReturn ('\r' :: cs) := by simpa [loneReturn] using hcs
  have hplain := (plainFrom_cons.mp h).1
  cases r <;> simp_all [plainAt, Region.oneLine]

/-- In a literal of one line, blanks that tidying drops are followed by the end of the line. -/
theorem endsLine_of_tidied {q : Char} (hq : (Region.literal q).Proper) (h : Tidied cs ('\n' :: ds))
    (hplain : PlainFrom (.literal q) cs) : endsLine (cs.dropWhile isPad) := by
  generalize htidied : '\n' :: ds = text at h
  induction h with
  | nil | trail => cases htidied
  | keep _ h ih =>
    obtain ⟨rfl, -⟩ := List.cons.inj htidied
    rfl
  | turn hcs h ih => cases not_oneLine_of_loneReturn hplain hcs
  | @pad c cs ds hc h ih =>
    have hrest := plainFrom_blank hq (Tidied.isAsciiBlankChar_of_pad hc) hplain
    rw [after_of_ne (Tidied.ne_lineFeed_of_pad hc)] at hrest
    rcases hc with hpad | ⟨rfl, hcs⟩
    · rw [List.dropWhile_cons_of_pos hpad]
      exact ih hrest htidied
    · obtain ⟨cs', rfl⟩ := List.head?_eq_some_iff.mp hcs
      rfl

/-! ### Escapes -/

theorem plainFrom_escape {d : Char} (hmove : r.move '\\' (d :: cs) = ⟨1, true, r⟩)
    (h : PlainFrom r ('\\' :: d :: cs)) : PlainFrom r cs := by
  have hrest := (plainFrom_cons.mp h).2
  rwa [hmove] at hrest

/-- A backslash in a literal of one line is not followed by blanks that tidying drops. -/
theorem not_oneLine_of_escape {d : Char} (hr : r.Proper)
    (hmove : r.move '\\' (d :: cs) = ⟨1, true, r⟩) (hplain : PlainFrom r ('\\' :: d :: cs))
    (hd : isPad d ∨ d = '\r' ∧ cs.head? = some '\n') (h : Tidied cs ('\n' :: ds)) :
    r.oneLine = false := by
  cases r with
  | code | blockComment | tripleLiteral => rfl
  | lineComment => simp [Region.move] at hmove
  | literal q =>
    have hend : endsLine ((d :: cs).dropWhile isPad) := by
      rcases hd with hpad | ⟨rfl, hcs⟩
      · rw [List.dropWhile_cons_of_pos hpad]
        exact endsLine_of_tidied hr h (plainFrom_escape hmove hplain)
      · obtain ⟨cs', rfl⟩ := List.head?_eq_some_iff.mp hcs
        rfl
    have hplainAt := (plainFrom_cons.mp hplain).1
    simp [plainAt, escapesPad, hend, Tidied.ne_lineFeed_of_pad hd] at hplainAt

theorem maskFrom_escape {d : Char} (hmove : r.move '\\' (d :: cs) = ⟨1, true, r⟩) :
    maskFrom r ('\\' :: d :: cs) = ' ' :: (blank d ++ maskFrom r cs) := by
  have hblank : blank '\\' = [' '] := rfl
  rw [maskFrom_cons, hmove]
  simp [Move.mask, hblank]

theorem maskFrom_escape_nil (hmove : r.move '\\' [] = ⟨1, true, r⟩) :
    maskFrom r ['\\'] = [' '] := by
  rw [maskFrom_cons, hmove, Move.mask, List.drop_nil, maskFrom_nil]
  rfl

/-- Escaped characters are hidden, whatever they are. -/
theorem padded_escape (hr : r.Proper) (hmove : r.move '\\' cs = ⟨1, true, r⟩) (h : Tidied cs ds)
    (hplain : PlainFrom r ('\\' :: cs))
    (ih : ∀ {cs' ds'}, cs'.length ≤ cs.length → Tidied cs' ds' → PlainFrom r cs' →
      Padded (maskFrom r cs') (maskFrom r ds')) :
    Padded (maskFrom r ('\\' :: cs)) (maskFrom r ('\\' :: ds)) := by
  have hmove' : r.move '\\' ds = ⟨1, true, r⟩ := (move_tidied hr _ h).trans hmove
  cases h with
  | nil => exact .refl _
  | @keep d cs ds hd h =>
    rw [maskFrom_escape hmove, maskFrom_escape hmove']
    exact ((ih (by simp) h (plainFrom_escape hmove hplain)).append_left (blank d)).char ' '
  | @turn cs ds hcs h =>
    rw [maskFrom_escape hmove, maskFrom_escape hmove']
    exact ((ih (by simp) h (plainFrom_escape hmove hplain)).blank rfl rfl).char ' '
  | @trail d cs hd h =>
    obtain ⟨x, hx, hblank⟩ := exists_blank_eq hd
    have hrest := ih (by simp) h (plainFrom_escape hmove hplain)
    rw [maskFrom_nil] at hrest
    rw [maskFrom_escape hmove, maskFrom_escape_nil hmove', hblank]
    exact (hrest.extra hx atBlank_nil).char ' '
  | @pad d cs ds hd h =>
    obtain ⟨x, hx, hblank⟩ := exists_blank_eq (Tidied.isAsciiBlankChar_of_pad hd)
    have hline := not_oneLine_of_escape hr hmove hplain hd h
    have hrest := ih (by simp) h (plainFrom_escape hmove hplain)
    rw [maskFrom_lineFeed hr, after_of_not_oneLine hline] at hrest
    rw [maskFrom_escape hmove, maskFrom_escape hmove', hblank]
    exact (hrest.extra hx (atBlank_cons.mpr rfl)).char ' '

/-- The mask of a text is the mask of its tidied form, padded. -/
theorem padded_maskFrom (h : Tidied cs ds) (hr : r.Proper) (hplain : PlainFrom r cs) :
    Padded (maskFrom r cs) (maskFrom r ds) := by
  -- A move can pass several characters, so the induction is on the length.
  induction hn : cs.length using Nat.strongRecOn generalizing r cs ds with
  | ind n ih =>
    cases h with
    | nil => exact .refl _
    | @trail c cs hc h =>
      obtain ⟨d, hd, hmask⟩ := maskFrom_blank hr hc cs
      have hrest := ih cs.length (by simp [← hn]) h (hr.after c) (plainFrom_blank hr hc hplain) rfl
      rw [hmask]
      exact hrest.extra hd atBlank_nil
    | @pad c cs ds hc h =>
      have hblank := Tidied.isAsciiBlankChar_of_pad hc
      obtain ⟨d, hd, hmask⟩ := maskFrom_blank hr hblank cs
      have hafter := plainFrom_blank hr hblank hplain
      rw [after_of_ne (Tidied.ne_lineFeed_of_pad hc)] at hmask hafter
      rw [hmask]
      refine (ih cs.length (by simp [← hn]) h hr hafter rfl).extra hd ?_
      rw [maskFrom_lineFeed hr, atBlank_cons]
      rfl
    | @turn cs ds hcs h =>
      have hreturn : isAsciiBlankChar '\r' := rfl
      have hline := not_oneLine_of_loneReturn hplain hcs
      obtain ⟨d, hd, hmask⟩ := maskFrom_blank hr hreturn cs
      have hafter := plainFrom_blank hr hreturn hplain
      rw [after_of_not_oneLine hline] at hmask hafter
      rw [hmask, maskFrom_lineFeed hr, after_of_not_oneLine hline]
      exact (ih cs.length (by simp [← hn]) h hr hafter rfl).blank hd rfl
    | @keep c cs ds hc h =>
      have hrest := (plainFrom_cons.mp hplain).2
      rcases passed_tidied hr c h with ⟨rfl, hmove⟩ | ⟨htake, hdrop⟩
      · refine padded_escape hr hmove h hplain fun hlength h' hplain' => ih _ ?_ h' hr hplain' rfl
        rw [← hn, List.length_cons]
        omega
      · rw [maskFrom_cons, maskFrom_cons, move_tidied hr c h, Move.mask, Move.mask, htake]
        refine (ih _ ?_ hdrop (proper_move hr c cs) hrest rfl).append_left _
        rw [← hn, List.length_drop, List.length_cons]
        omega

end Source

end Recheck
