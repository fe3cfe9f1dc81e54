import Mathlib.Data.List.Chain
import Mathlib.Data.List.Infix
import Recheck.Proofs.Content.Encoding
import Recheck.Proofs.Source.Masking

/-!
# The mask of a source, lexeme by lexeme

A source is made of stretches of code, comments and literals (`Lexeme`). The mask leaves code and
the quotes around literals as they are, and of comments and of what stands in literals it leaves the
newlines and writes a space for each other byte (`mask_lexemes`).

The masker has a loop for each kind of lexeme. Each loop passes what is inside its lexeme whatever
follows (`maskFrom_code`, `CommentText.maskFrom_append`, `LiteralText.maskFrom_append`), and it
stops where the lexeme ends (`Lexeme.maskFrom_append`), so the lexemes are masked one after the
other.
-/

namespace Recheck

namespace Source

/-! ## Hidden texts -/

/-- The bytes of a text. -/
def encode (text : List Char) : List UInt8 := text.flatMap String.utf8EncodeChar

theorem encode_cons (c : Char) (cs : List Char) :
    encode (c :: cs) = String.utf8EncodeChar c ++ encode cs := rfl

theorem encode_append (a b : List Char) : encode (a ++ b) = encode a ++ encode b :=
  List.flatMap_append

/-- The text with spaces for its bytes, save its newlines. -/
def hide (text : List Char) : List Char := text.flatMap blank

/-- The byte that stands for a byte of a hidden text. -/
def hideByte (b : UInt8) : UInt8 := if b = 0x0A then b else 0x20

/-- The byte of an ASCII character is part of no other character. -/
theorem eq_of_ascii_byte {c d : Char} (hd : d.val.toNat ≤ 0x7f) {b : UInt8}
    (hb : b ∈ String.utf8EncodeChar c) (h : b.toNat = d.val.toNat) : c = d := by
  by_cases hc : c.val.toNat ≤ 0x7f
  · simp only [String.utf8EncodeChar, if_pos hc, List.mem_singleton] at hb
    rw [hb, UInt8.toNat_ofNat', Nat.mod_eq_of_lt (by omega)] at h
    exact Char.ext (UInt32.toNat_inj.mp h)
  · have hlarge := Text.le_of_mem_utf8EncodeChar hc hb
    omega

theorem eq_lineFeed_of_byte {c : Char} (h : 0x0A ∈ String.utf8EncodeChar c) : c = '\n' :=
  eq_of_ascii_byte (by decide) h rfl

theorem encode_blank (c : Char) :
    encode (blank c) = (String.utf8EncodeChar c).map hideByte := by
  by_cases hc : c = '\n'
  · subst hc
    rfl
  · have hbytes : ∀ b ∈ String.utf8EncodeChar c, hideByte b = 0x20 := by
      intro b hb
      refine if_neg ?_
      rintro rfl
      exact hc (eq_lineFeed_of_byte hb)
    have hspace : String.utf8EncodeChar ' ' = [0x20] := rfl
    rw [encode, blank, if_neg hc, List.map_congr_left hbytes, List.map_const',
      String.length_utf8EncodeChar, List.flatMap_replicate, hspace]
    simp

/-- A text is hidden byte by byte. -/
theorem encode_hide (text : List Char) : encode (hide text) = (encode text).map hideByte := by
  rw [encode, hide, List.flatMap_assoc, encode, List.map_flatMap]
  exact List.flatMap_congr fun c _ => encode_blank c

theorem hide_append (a b : List Char) : hide (a ++ b) = hide a ++ hide b := List.flatMap_append

/-! ## Lexemes -/

/-- Text without quotes and without the start of a comment, which cannot be taken for the start or
the end of one together with what stands beside it. -/
structure CodeText (text : List Char) : Prop where
  ne_nil : text ≠ []
  unquoted : ∀ c ∈ text, isQuote c = false
  no_lineComment : ¬ ['/', '/'] <:+: text
  no_blockComment : ¬ ['/', '*'] <:+: text
  head : text.head? ≠ some '/'
  last : text.getLast? ≠ some '/'

instance (text : List Char) : Decidable (CodeText text) :=
  decidable_of_iff
    ((text.all fun c => !isQuote c) = true ∧ text ≠ [] ∧ ¬ ['/', '/'] <:+: text ∧
      ¬ ['/', '*'] <:+: text ∧ text.head? ≠ some '/' ∧ text.getLast? ≠ some '/')
    ⟨fun ⟨hquote, hne, hline, hblock, hhead, hlast⟩ =>
        ⟨hne, by simpa using hquote, hline, hblock, hhead, hlast⟩,
      fun ⟨hne, hquote, hline, hblock, hhead, hlast⟩ =>
        ⟨by simpa using hquote, hne, hline, hblock, hhead, hlast⟩⟩

/-- What stands in a block comment: characters other than slashes and stars, and block comments. -/
inductive CommentText : List Char → Prop where
  | nil : CommentText []
  | char {c : Char} {rest : List Char} (hslash : c ≠ '/') (hstar : c ≠ '*')
    (hrest : CommentText rest) : CommentText (c :: rest)
  | comment {inner rest : List Char} (hinner : CommentText inner) (hrest : CommentText rest) :
    CommentText ('/' :: '*' :: (inner ++ '*' :: '/' :: rest))

/-- What stands in a literal with this quote: other characters than the quote and the backslash, and
pairs of a backslash and any character. There are newlines in it only if `newlines` says so. -/
inductive LiteralText (quote : Char) (newlines : Bool) : List Char → Prop where
  | nil : LiteralText quote newlines []
  | char {c : Char} {rest : List Char} (hquote : c ≠ quote) (hescape : c ≠ '\\')
    (hline : c = '\n' → newlines = true) (hrest : LiteralText quote newlines rest) :
    LiteralText quote newlines (c :: rest)
  | escape {c : Char} {rest : List Char} (hline : c = '\n' → newlines = true)
    (hrest : LiteralText quote newlines rest) : LiteralText quote newlines ('\\' :: c :: rest)

/-- A stretch of code, a comment or a literal, with the text inside it. -/
inductive Lexeme where
  | code (text : List Char) (htext : CodeText text)
  | lineComment (text : List Char) (htext : '\n' ∉ text)
  | blockComment (text : List Char) (htext : CommentText text)
  | literal (quote : Char) (text : List Char) (hquote : isQuote quote = true)
    (htext : LiteralText quote false text)
  | tripleLiteral (quote : Char) (text : List Char) (hquote : isQuote quote = true)
    (htext : LiteralText quote true text)

/-- A part of a lexeme, and whether the mask hides it. -/
structure Stretch where
  text : List Char
  hidden : Bool

/-- The bytes that the mask has for a stretch. -/
def Stretch.maskedBytes (s : Stretch) : List UInt8 :=
  if s.hidden then (encode s.text).map hideByte else encode s.text

namespace Lexeme

/-- The stretches of a lexeme. Comments are hidden as a whole, and literals between their quotes. -/
def stretches : Lexeme → List Stretch
  | code text _ => [⟨text, false⟩]
  | lineComment text _ => [⟨'/' :: '/' :: text, true⟩]
  | blockComment text _ => [⟨'/' :: '*' :: (text ++ ['*', '/']), true⟩]
  | literal quote text _ _ => [⟨[quote], false⟩, ⟨text, true⟩, ⟨[quote], false⟩]
  | tripleLiteral quote text _ _ =>
    [⟨[quote, quote, quote], false⟩, ⟨text, true⟩, ⟨[quote, quote, quote], false⟩]

/-- The text of a lexeme. -/
def text (l : Lexeme) : List Char := l.stretches.flatMap Stretch.text

/-- The bytes that the mask has for a lexeme. -/
def maskedBytes (l : Lexeme) : List UInt8 := l.stretches.flatMap Stretch.maskedBytes

/-- The lexeme is code. -/
def isCode : Lexeme → Bool
  | code _ _ => true
  | _ => false

/-- The lexeme is a line comment. -/
def isLineComment : Lexeme → Bool
  | lineComment _ _ => true
  | _ => false

/-- The one lexeme may stand before the other: one of them is code, and a line comment ends with its
line. -/
structure Before (l next : Lexeme) : Prop where
  apart : l.isCode = true ∨ next.isCode = true
  ends : l.isLineComment = true → next.text.head? = some '\n'

instance (l next : Lexeme) : Decidable (l.Before next) :=
  decidable_of_iff
    ((l.isCode = true ∨ next.isCode = true) ∧
      (l.isLineComment = true → next.text.head? = some '\n'))
    ⟨fun h => ⟨h.1, h.2⟩, fun h => ⟨h.apart, h.ends⟩⟩

end Lexeme

/-! ## Inside a lexeme -/

variable {r r' : Region} {c d : Char} {cs : List Char}

theorem maskFrom_shown (h : r.move c cs = ⟨0, false, r'⟩) :
    maskFrom r (c :: cs) = c :: maskFrom r' cs := by
  rw [maskFrom_cons, h]
  rfl

theorem maskFrom_hidden (h : r.move c cs = ⟨0, true, r'⟩) :
    maskFrom r (c :: cs) = hide [c] ++ maskFrom r' cs := by
  rw [maskFrom_cons, h]
  rfl

theorem maskFrom_hidden_pair (h : r.move c (d :: cs) = ⟨1, true, r'⟩) :
    maskFrom r (c :: d :: cs) = hide [c, d] ++ maskFrom r' cs := by
  rw [maskFrom_cons, h]
  rfl

/-- Code is shown, whatever follows. -/
theorem maskFrom_code {text : List Char} (hquote : ∀ c ∈ text, isQuote c = false)
    (hline : ¬ ['/', '/'] <:+: text) (hblock : ¬ ['/', '*'] <:+: text)
    (hlast : text.getLast? ≠ some '/') (rest : List Char) :
    maskFrom .code (text ++ rest) = text ++ maskFrom .code rest := by
  induction text with
  | nil => rfl
  | cons c text ih =>
    have hmove : Region.code.move c (text ++ rest) = ⟨0, false, .code⟩ := by
      have hc := hquote c List.mem_cons_self
      -- A slash is not the last character of the text, and what follows it there starts no comment.
      have hnext : c = '/' → ¬ ['/'] <+: text ++ rest ∧ ¬ ['*'] <+: text ++ rest := by
        rintro rfl
        cases text with
        | nil => exact absurd rfl hlast
        | cons d text =>
          simp only [List.cons_append, List.cons_prefix_cons, List.nil_prefix, and_true]
          constructor <;> rintro rfl
          · exact hline ⟨[], text, rfl⟩
          · exact hblock ⟨[], text, rfl⟩
      rw [Region.move, if_neg fun h => (hnext h.1).1 h.2, if_neg fun h => (hnext h.1).2 h.2,
        if_neg (by simp [hc])]
    have htail : text <:+: c :: text := (List.suffix_cons c text).isInfix
    rw [List.cons_append, maskFrom_shown hmove, ih, List.cons_append]
    · exact fun d hd => hquote d (List.mem_cons_of_mem c hd)
    · exact fun h => hline (h.trans htail)
    · exact fun h => hblock (h.trans htail)
    · intro h
      cases text with
      | nil => cases h
      | cons d text => exact hlast h

theorem CodeText.maskFrom_append {text : List Char} (h : CodeText text) (rest : List Char) :
    maskFrom .code (text ++ rest) = text ++ maskFrom .code rest :=
  maskFrom_code h.unquoted h.no_lineComment h.no_blockComment h.last rest

theorem maskFrom_lineComment {text : List Char} (h : '\n' ∉ text) (rest : List Char) :
    maskFrom .lineComment (text ++ rest) = hide text ++ maskFrom .lineComment rest := by
  induction text with
  | nil => rfl
  | cons c text ih =>
    rw [List.mem_cons, not_or] at h
    have hmove : Region.lineComment.move c (text ++ rest) = ⟨0, true, .lineComment⟩ := by
      rw [Region.move, if_neg fun hc => h.1 hc.symm]
    rw [List.cons_append, maskFrom_hidden hmove, ih h.2, ← List.append_assoc, ← hide_append]
    rfl

/-- A line comment ends at a newline and at the end of the source. -/
theorem maskFrom_lineComment_end {rest : List Char} (h : ∀ c ∈ rest.head?, c = '\n') :
    maskFrom .lineComment rest = maskFrom .code rest := by
  cases rest with
  | nil => rw [maskFrom_nil, maskFrom_nil]
  | cons c rest =>
    obtain rfl : c = '\n' := h c rfl
    rw [maskFrom_lineFeed (r := .lineComment) trivial, maskFrom_lineFeed (r := .code) trivial]
    rfl

/-- What stands in a block comment is hidden, and its inner comments are passed as a whole. -/
theorem CommentText.maskFrom_append {text : List Char} (h : CommentText text) (outer : Nat)
    (rest : List Char) :
    maskFrom (.blockComment outer) (text ++ rest) =
      hide text ++ maskFrom (.blockComment outer) rest := by
  induction h generalizing outer rest with
  | nil => rfl
  | @char c text hslash hstar _ ih =>
    have hmove : (Region.blockComment outer).move c (text ++ rest) =
        ⟨0, true, .blockComment outer⟩ := by
      rw [Region.move, if_neg fun h => hslash h.1, if_neg fun h => hstar h.1]
    rw [List.cons_append, maskFrom_hidden hmove, ih, ← List.append_assoc, ← hide_append]
    rfl
  | @comment inner text _ _ ihinner ihtext =>
    have hopen : ∀ cs, (Region.blockComment outer).move '/' ('*' :: cs) =
        ⟨1, true, .blockComment (outer + 1)⟩ := by
      simp [Region.move]
    have hclose : ∀ cs, (Region.blockComment (outer + 1)).move '*' ('/' :: cs) =
        ⟨1, true, .blockComment outer⟩ := by
      simp [Region.move]
    calc maskFrom (.blockComment outer) ('/' :: '*' :: (inner ++ '*' :: '/' :: text) ++ rest)
        = hide ['/', '*'] ++
            maskFrom (.blockComment (outer + 1)) (inner ++ ('*' :: '/' :: (text ++ rest))) := by
          rw [← maskFrom_hidden_pair (hopen _)]
          simp
      _ = hide ['/', '*'] ++ (hide inner ++
            (hide ['*', '/'] ++ (hide text ++ maskFrom (.blockComment outer) rest))) := by
          rw [ihinner, maskFrom_hidden_pair (hclose _), ihtext]
      _ = hide ('/' :: '*' :: (inner ++ '*' :: '/' :: text)) ++
            maskFrom (.blockComment outer) rest := by
          simp [hide]

/-- The region inside a literal, which may go over newlines or not. -/
def literalRegion (quote : Char) (newlines : Bool) : Region :=
  if newlines then .tripleLiteral quote else .literal quote

theorem move_literal_char {quote : Char} {newlines : Bool} (hquote : c ≠ quote)
    (hescape : c ≠ '\\') (hline : c = '\n' → newlines = true) (cs : List Char) :
    (literalRegion quote newlines).move c cs = ⟨0, true, literalRegion quote newlines⟩ := by
  cases newlines with
  | false =>
    have hne : c ≠ '\n' := fun h => Bool.false_ne_true (hline h)
    simp [literalRegion, Region.move, hquote, hescape, hne]
  | true => simp [literalRegion, Region.move, hquote, hescape]

theorem move_literal_escape {quote : Char} (hquote : isQuote quote = true) (newlines : Bool)
    (cs : List Char) :
    (literalRegion quote newlines).move '\\' cs = ⟨1, true, literalRegion quote newlines⟩ := by
  have hne : '\\' ≠ quote := by
    rintro rfl
    cases hquote
  cases newlines <;> simp [literalRegion, Region.move, hne]

/-- What stands in a literal is hidden; a backslash takes the next character with it. -/
theorem LiteralText.maskFrom_append {quote : Char} {newlines : Bool} {text : List Char}
    (h : LiteralText quote newlines text) (hquote : isQuote quote = true) (rest : List Char) :
    maskFrom (literalRegion quote newlines) (text ++ rest) =
      hide text ++ maskFrom (literalRegion quote newlines) rest := by
  induction h with
  | nil => rfl
  | @char c text hne hescape hline _ ih =>
    rw [List.cons_append, maskFrom_hidden (move_literal_char hne hescape hline _), ih,
      ← List.append_assoc, ← hide_append]
    rfl
  | @escape c text hline _ ih =>
    rw [List.cons_append, List.cons_append,
      maskFrom_hidden_pair (move_literal_escape hquote newlines _), ih, ← List.append_assoc,
      ← hide_append]
    rfl

/-! ## From lexeme to lexeme -/

/-- A literal with one quote on each side. The quotes of an empty one are not taken for the start of
a triple quote, as no third one follows. -/
theorem maskFrom_literal {quote : Char} {text rest : List Char} (hquote : isQuote quote = true)
    (htext : LiteralText quote false text) (hrest : ∀ c ∈ rest.head?, isQuote c = false) :
    maskFrom .code (quote :: (text ++ quote :: rest)) =
      quote :: (hide text ++ quote :: maskFrom .code rest) := by
  have hslash : quote ≠ '/' := by
    rintro rfl
    cases hquote
  have hsingle : ¬ [quote, quote] <+: text ++ quote :: rest := by
    cases htext with
    | nil =>
      rintro ⟨more, hmore⟩
      obtain rfl : quote :: more = rest := by simpa using hmore
      rw [hrest quote rfl] at hquote
      cases hquote
    | char hne =>
      rintro ⟨more, hmore⟩
      exact hne (List.cons.inj hmore).1.symm
    | escape =>
      rintro ⟨more, hmore⟩
      obtain ⟨rfl, -⟩ := List.cons.inj hmore
      cases hquote
  have hopen : Region.code.move quote (text ++ quote :: rest) = ⟨0, false, .literal quote⟩ := by
    simp [Region.move, hslash, hquote, hsingle]
  have hclose : (Region.literal quote).move quote rest = ⟨0, false, .code⟩ := by
    simp [Region.move]
  have hinside := htext.maskFrom_append hquote (quote :: rest)
  rw [literalRegion, if_neg Bool.false_ne_true, maskFrom_shown hclose] at hinside
  rw [maskFrom_shown hopen, hinside]

theorem maskFrom_tripleLiteral {quote : Char} {text : List Char} (hquote : isQuote quote = true)
    (htext : LiteralText quote true text) (rest : List Char) :
    maskFrom .code (quote :: quote :: quote :: (text ++ quote :: quote :: quote :: rest)) =
      quote :: quote :: quote :: (hide text ++ quote :: quote :: quote :: maskFrom .code rest) := by
  have hne : quote ≠ '/' ∧ quote ≠ '\\' := by
    constructor <;> rintro rfl <;> cases hquote
  have hopen : ∀ cs, Region.code.move quote (quote :: quote :: cs) =
      ⟨2, false, .tripleLiteral quote⟩ := by
    simp [Region.move, hne, hquote]
  have hclose : (Region.tripleLiteral quote).move quote (quote :: quote :: rest) =
      ⟨2, false, .code⟩ := by
    simp [Region.move, hne]
  have hinside := htext.maskFrom_append hquote (quote :: quote :: quote :: rest)
  rw [literalRegion, if_pos rfl, maskFrom_cons _ _ (quote :: quote :: rest), hclose] at hinside
  rw [maskFrom_cons, hopen]
  simpa [Move.mask] using hinside

/-- The mask of a stretch. -/
def Stretch.masked (s : Stretch) : List Char := if s.hidden then hide s.text else s.text

theorem Stretch.encode_masked (s : Stretch) : encode s.masked = s.maskedBytes := by
  obtain ⟨text, hidden⟩ := s
  cases hidden with
  | false => rfl
  | true => exact encode_hide text

namespace Lexeme

/-- The mask of a lexeme. -/
def masked (l : Lexeme) : List Char := l.stretches.flatMap Stretch.masked

theorem encode_masked (l : Lexeme) : encode l.masked = l.maskedBytes := by
  rw [encode, masked, maskedBytes, List.flatMap_assoc]
  exact List.flatMap_congr fun s _ => s.encode_masked

/-- A lexeme is masked for itself if what follows is no part of it. -/
theorem maskFrom_append (l : Lexeme) {rest : List Char}
    (hapart : l.isCode = true ∨ ∀ c ∈ rest.head?, isQuote c = false)
    (hends : l.isLineComment = true → ∀ c ∈ rest.head?, c = '\n') :
    maskFrom .code (l.text ++ rest) = l.masked ++ maskFrom .code rest := by
  cases l with
  | code text htext => simpa [Lexeme.text, masked, stretches, Stretch.masked] using
      htext.maskFrom_append rest
  | lineComment text htext =>
    have hopen : Region.code.move '/' ('/' :: (text ++ rest)) = ⟨1, true, .lineComment⟩ := by
      simp [Region.move]
    have hmask := maskFrom_hidden_pair hopen
    rw [maskFrom_lineComment htext, maskFrom_lineComment_end (hends rfl), ← List.append_assoc,
      ← hide_append] at hmask
    simpa [Lexeme.text, masked, stretches, Stretch.masked] using hmask
  | blockComment text htext =>
    have hopen : Region.code.move '/' ('*' :: (text ++ '*' :: '/' :: rest)) =
        ⟨1, true, .blockComment 0⟩ := by
      simp [Region.move]
    have hclose : (Region.blockComment 0).move '*' ('/' :: rest) = ⟨1, true, .code⟩ := by
      simp [Region.move]
    have hmask := maskFrom_hidden_pair hopen
    rw [htext.maskFrom_append, maskFrom_hidden_pair hclose, ← List.append_assoc,
      ← List.append_assoc, ← hide_append, ← hide_append] at hmask
    simpa [Lexeme.text, masked, stretches, Stretch.masked] using hmask
  | literal quote text hquote htext =>
    have hrest := hapart.resolve_left Bool.false_ne_true
    simpa [Lexeme.text, masked, stretches, Stretch.masked] using
      maskFrom_literal hquote htext hrest
  | tripleLiteral quote text hquote htext =>
    simpa [Lexeme.text, masked, stretches, Stretch.masked] using
      maskFrom_tripleLiteral hquote htext rest

theorem text_ne_nil (l : Lexeme) : l.text ≠ [] := by
  cases l with
  | code text htext => simpa [Lexeme.text, stretches] using htext.ne_nil
  | _ => simp [Lexeme.text, stretches]

theorem head?_text_append (l : Lexeme) (rest : List Char) :
    (l.text ++ rest).head? = l.text.head? := by
  obtain ⟨c, cs, hcs⟩ := List.exists_cons_of_ne_nil l.text_ne_nil
  rw [hcs]
  rfl

theorem not_isQuote_head {l : Lexeme} (h : l.isCode = true) :
    ∀ c ∈ l.text.head?, isQuote c = false := by
  cases l with
  | code text htext =>
    intro c hc
    refine htext.unquoted c (List.mem_of_head? ?_)
    simpa [Lexeme.text, stretches] using hc
  | _ => cases h

/-- The mask of lexemes that may stand one before the other is made of their masks. -/
theorem mask_flatMap {lexemes : List Lexeme} (h : lexemes.IsChain Before) :
    mask (lexemes.flatMap Lexeme.text) = lexemes.flatMap masked := by
  induction lexemes with
  | nil => exact maskFrom_nil .code
  | cons l lexemes ih =>
    rw [List.flatMap_cons, List.flatMap_cons, ← ih h.tail]
    cases lexemes with
    | nil => exact l.maskFrom_append (by simp) (by simp)
    | cons next lexemes =>
      have hbefore : l.Before next := (List.isChain_cons_cons.mp h).1
      refine l.maskFrom_append ?_ ?_
      · rw [List.flatMap_cons, head?_text_append]
        exact hbefore.apart.imp_right not_isQuote_head
      · intro hline c hc
        rw [List.flatMap_cons, head?_text_append, hbefore.ends hline] at hc
        exact (Option.some.inj hc).symm

end Lexeme

/-- The mask of a source that is made of lexemes has the bytes of code and of the quotes of literals
as they are, and of comments and literals it has the newlines and a space for each other byte. -/
theorem mask_lexemes {lexemes : List Lexeme} (h : lexemes.IsChain Lexeme.Before) :
    encode (mask (lexemes.flatMap Lexeme.text)) = lexemes.flatMap Lexeme.maskedBytes := by
  rw [Lexeme.mask_flatMap h, encode, List.flatMap_assoc]
  exact List.flatMap_congr fun l _ => l.encode_masked

/-- A declaration with a literal, a comment, a nested comment and a literal in triple quotes. -/
def sampleLexemes : List Lexeme :=
  [.code "var a = ".toList (by decide),
    .literal '\'' ['é', '\\', '\''] (by decide)
      (.char (by decide) (by decide) (by decide) (.escape (by decide) .nil)),
    .code " / 2; ".toList (by decide),
    .lineComment " b\x7b 'c".toList (by decide),
    .code "\n".toList (by decide),
    .blockComment "d/*\n*/e".toList
      (.char (by decide) (by decide)
        (@CommentText.comment ['\n'] ['e'] (.char (by decide) (by decide) .nil)
          (.char (by decide) (by decide) .nil))),
    .code "f(".toList (by decide),
    .tripleLiteral '"' "'\n\\\"".toList (by decide)
      (.char (by decide) (by decide) (by decide)
        (.char (by decide) (by decide) (by decide) (.escape (by decide) .nil))),
    .code ");".toList (by decide)]

theorem mask_lexemes_sample :
    sampleLexemes.IsChain Lexeme.Before ∧
      sampleLexemes.flatMap Lexeme.text =
        "var a = 'é\\'' / 2; // b\x7b 'c\n/*d/*\n*/e*/f(\"\"\"'\n\\\"\"\"\");".toList ∧
      encode (mask (sampleLexemes.flatMap Lexeme.text)) =
        Text.bytes "var a = '    ' / 2;         \n     \n     f(\"\"\" \n  \"\"\");" := by
  have hchain : sampleLexemes.IsChain Lexeme.Before := by decide
  refine ⟨hchain, by decide, ?_⟩
  rw [mask_lexemes hchain]
  decide

end Source

end Recheck
