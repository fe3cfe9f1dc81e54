import Recheck.Proofs.Source.Constants

/-!
# Plain headers

A header in the plain layout has single spaces between its words, and each of its clauses is a word
of `Clause.word` with a comma-separated list of names behind it (`clauseText`). Its words joined by
spaces are the header again, so the clauses are found in the text as it was written
(`foldl_clauses`), and the list behind each is read name by name (`typeNames_list`).
-/

namespace Recheck

namespace Source

open Text (isBlank)

/-! ## Names -/

/-- The word that starts a clause. -/
def Clause.word : Clause → List Char
  | extending => "extends".toList
  | mixing => "with".toList
  | implementing => "implements".toList
  | constraining => "on".toList

/-- The words that have a meaning for the scan. -/
def vocabulary : List (List Char) :=
  keywords.flatMap (·.1) ++ ["typedef".toList] ++ modifiers ++
    [Clause.extending, .mixing, .implementing, .constraining].map Clause.word ++ reserved

/-- A letter, a digit or an underscore. -/
def isLetter (c : Char) : Bool := c.isAlphanum || c == '_'

/-- A word of letters, digits and underscores. -/
structure Letters (word : List Char) : Prop where
  ne_nil : word ≠ []
  isLetter : ∀ c ∈ word, isLetter c

/-- A name: no digit first, and no word of the vocabulary. -/
structure Name where
  text : List Char
  letters : Letters text
  start : ∀ c ∈ text.head?, c.isDigit = false
  not_mem_vocabulary : text ∉ vocabulary

/-- A name as it is reported. -/
def Name.string (name : Name) : String := String.ofList name.text

theorem letters_of_mem_vocabulary {word : List Char} (h : word ∈ vocabulary) : Letters word := by
  have hall : (vocabulary.all fun word => !word.isEmpty && word.all isLetter) = true := by
    decide
  have hword := List.all_eq_true.mp hall word h
  rw [Bool.and_eq_true, Bool.not_eq_true', List.isEmpty_eq_false_iff] at hword
  exact ⟨hword.1, List.all_eq_true.mp hword.2⟩

theorem isIdentifierChar_of_isLetter {c : Char} (hc : isLetter c) : isIdentifierChar c := by
  rw [isIdentifierChar, show (c.isAlphanum || c == '_') = true from hc]
  rfl

theorem toNat_lt_of_isAlphanum {c : Char} (hc : c.isAlphanum) : c.toNat < 0x80 := by
  unfold Char.isAlphanum Char.isAlpha Char.isUpper Char.isLower Char.isDigit at hc
  simp only [Bool.or_eq_true, Bool.and_eq_true, decide_eq_true_eq, UInt32.le_iff_toNat_le,
    ge_iff_le] at hc
  change ((65 ≤ c.toNat ∧ c.toNat ≤ 90) ∨ (97 ≤ c.toNat ∧ c.toNat ≤ 122)) ∨
    (48 ≤ c.toNat ∧ c.toNat ≤ 57) at hc
  omega

theorem isWordChar_of_isLetter {c : Char} (hc : isLetter c) : Text.isWordChar c := by
  have hascii : c.toNat < 0x80 := by
    rw [isLetter, Bool.or_eq_true, beq_iff_eq] at hc
    rcases hc with hc | rfl
    · exact toNat_lt_of_isAlphanum hc
    · decide
  rw [Text.isWordChar, if_pos hascii]
  exact hc

namespace Letters

variable {word : List Char}

theorem isIdentifierChar (h : Letters word) : ∀ c ∈ word, isIdentifierChar c :=
  fun c hc => isIdentifierChar_of_isLetter (h.isLetter c hc)

theorem isWordChar (h : Letters word) : ∀ c ∈ word, Text.isWordChar c :=
  fun c hc => isWordChar_of_isLetter (h.isLetter c hc)

theorem solid (h : Letters word) : ∀ c ∈ word, isBlank c = false :=
  fun c hc => not_isBlank_of_isIdentifierChar (h.isIdentifierChar c hc)

/-- What holds of letters holds of the start of a text that starts with a word. -/
theorem head?_append (h : Letters word) {p : Char → Prop} (hp : ∀ c, Source.isLetter c → p c)
    (rest : List Char) : ∀ c ∈ (word ++ rest).head?, p c := by
  intro c hc
  rw [List.head?_append_of_ne_nil _ h.ne_nil] at hc
  exact hp c (h.isLetter c (List.mem_of_mem_head? hc))

end Letters

namespace Name

variable (name : Name)

theorem identifier : Identifier name.text where
  ne_nil := name.letters.ne_nil
  chars := name.letters.isIdentifierChar
  start := name.start

/-- A character that is no identifier character is in no name. -/
theorem not_mem {c : Char} (hc : isIdentifierChar c = false) : c ∉ name.text :=
  fun hmem => Bool.false_ne_true (hc.symm.trans (name.letters.isIdentifierChar c hmem))

end Name

theorem Clause.word_mem (clause : Clause) : clause.word ∈ vocabulary := by
  cases clause <;> decide

theorem Clause.ofWord?_word (clause : Clause) : Clause.ofWord? clause.word = some clause := by
  cases clause <;> rfl

theorem Name.ofWord?_eq_none (name : Name) : Clause.ofWord? name.text = none := by
  have hne : ∀ clause : Clause, name.text ≠ clause.word :=
    fun clause heq => name.not_mem_vocabulary (heq ▸ clause.word_mem)
  have hextending : name.text ≠ "extends".toList := hne .extending
  have hmixing : name.text ≠ "with".toList := hne .mixing
  have himplementing : name.text ≠ "implements".toList := hne .implementing
  have hconstraining : name.text ≠ "on".toList := hne .constraining
  rw [Clause.ofWord?, if_neg hextending, if_neg hmixing, if_neg himplementing,
    if_neg hconstraining]

/-! ## Lists of names -/

/-- Names with a comma and a space between neighbours. -/
def commaList : List Name → List Char
  | [] => []
  | [name] => name.text
  | name :: next :: names => name.text ++ (", ".toList ++ commaList (next :: names))

/-- A clause, or nothing if it has no names. -/
def clauseText (clause : Clause) : List Name → List Char
  | [] => []
  | name :: names => ' ' :: (clause.word ++ ' ' :: commaList (name :: names))

theorem typeNames_append_comma (a b : List Char) :
    typeNames (a ++ ',' :: b) = typeNames a ++ typeNames b := by
  rw [typeNames, Text.splitOn_append_cons, List.filterMap_append]
  rfl

theorem leadingIdentifier?_name (name : Name) :
    leadingIdentifier? name.text = some name.text := by
  rw [leadingIdentifier?, List.takeWhile_eq_self_iff.mpr name.identifier.chars,
    identifier?_eq_some_iff]
  exact ⟨rfl, name.letters.ne_nil, name.start⟩

theorem trim_name {blanks blanks' : List Char} (name : Name) (hblanks : ∀ c ∈ blanks, isBlank c)
    (hblanks' : ∀ c ∈ blanks', isBlank c) :
    Text.trim (blanks ++ (name.text ++ blanks')) = name.text := by
  have hstart : ∀ c ∈ (name.text ++ blanks').head?, isBlank c = false :=
    name.letters.head?_append
      (fun c hc => not_isBlank_of_isIdentifierChar (isIdentifierChar_of_isLetter hc)) blanks'
  have hlast : ∀ c ∈ name.text.getLast?, isBlank c = false :=
    fun c hc => name.letters.solid c (List.mem_of_getLast? hc)
  rw [Text.trim, Text.trimLeft, dropWhile_append_stop hblanks hstart, Text.trimRight,
    Text.dropRightWhile_eq_rdropWhile, rdropWhile_append_run hblanks' hlast]

theorem typeNames_name {blanks blanks' : List Char} (name : Name)
    (hblanks : ∀ c ∈ blanks, isBlank c) (hblanks' : ∀ c ∈ blanks', isBlank c) :
    typeNames (blanks ++ (name.text ++ blanks')) = [name.string] := by
  have hcomma : ',' ∉ blanks ++ (name.text ++ blanks') := by
    simp only [List.mem_append, not_or]
    exact ⟨not_mem_of_isBlank (by decide) hblanks, name.not_mem (by decide),
      not_mem_of_isBlank (by decide) hblanks'⟩
  have hdot : afterLastDot name.text = name.text := by
    rw [afterLastDot, Text.splitOn_of_not_mem (name.not_mem (by decide))]
    rfl
  rw [typeNames, Text.splitOn_of_not_mem hcomma, List.filterMap_cons,
    trim_name name hblanks hblanks', hdot, leadingIdentifier?_name name]
  rfl

/-- The names are read of a list, blanks around it aside. -/
theorem typeNames_list {blanks blanks' : List Char} (hblanks : ∀ c ∈ blanks, isBlank c)
    (hblanks' : ∀ c ∈ blanks', isBlank c) (name : Name) (names : List Name) :
    typeNames (blanks ++ (commaList (name :: names) ++ blanks')) =
      (name :: names).map Name.string := by
  induction names generalizing name blanks with
  | nil => exact typeNames_name name hblanks hblanks'
  | cons next names ih =>
    have htext : blanks ++ (commaList (name :: next :: names) ++ blanks') =
        blanks ++ (name.text ++ []) ++
          ',' :: ([' '] ++ (commaList (next :: names) ++ blanks')) := by
      simp [commaList]
    rw [htext, typeNames_append_comma, typeNames_name name hblanks (by simp),
      ih (List.forall_mem_singleton.mpr rfl)]
    rfl

/-! ## Clauses -/

/-- The text before the first clause and the clauses. -/
def readClauses (text : List Char) : List Char × List (Clause × List Char) :=
  clausesOfRuns (runs text)

theorem exists_runs_cons (c : Char) (cs : List Char) :
    ∃ run rest, runs (c :: cs) = (c :: run) :: rest := by
  rw [runs]
  split
  · split
    · exact ⟨_, _, rfl⟩
    · exact ⟨_, _, rfl⟩
  · exact ⟨_, _, rfl⟩

/-- A stretch of characters of one kind that nothing of its kind follows is a run of its own. -/
theorem runs_append {kind : Bool} {run rest : List Char} (hne : run ≠ [])
    (hrun : ∀ c ∈ run, Text.isWordChar c = kind)
    (hrest : ∀ c ∈ rest.head?, Text.isWordChar c = !kind) :
    runs (run ++ rest) = run :: runs rest := by
  induction run with
  | nil => exact absurd rfl hne
  | cons c run ih =>
    obtain ⟨hc, hrun⟩ := List.forall_mem_cons.mp hrun
    cases run with
    | nil =>
      cases rest with
      | nil => rfl
      | cons d rest =>
        obtain ⟨run', rest', hruns⟩ := exists_runs_cons d rest
        have hd : Text.isWordChar c ≠ Text.isWordChar d := by
          rw [hc, hrest d rfl]
          cases kind <;> decide
        rw [List.singleton_append, runs, hruns]
        simp only [if_neg hd]
    | cons d run =>
      have hd : Text.isWordChar c = Text.isWordChar d := by
        rw [hc, hrun d List.mem_cons_self]
      rw [List.cons_append, runs, ih (List.cons_ne_nil _ _) hrun]
      simp only [if_pos hd]

/-- A run that starts no clause belongs to the text before the clauses. -/
theorem readClauses_append {kind : Bool} {run rest : List Char} (hne : run ≠ [])
    (hrun : ∀ c ∈ run, Text.isWordChar c = kind)
    (hrest : ∀ c ∈ rest.head?, Text.isWordChar c = !kind) (hnone : Clause.ofWord? run = none) :
    readClauses (run ++ rest) = (run ++ (readClauses rest).1, (readClauses rest).2) := by
  rw [readClauses, runs_append hne hrun hrest, clausesOfRuns]
  simp only [hnone]
  rfl

theorem readClauses_word (clause : Clause) {rest : List Char}
    (hrest : ∀ c ∈ rest.head?, Text.isWordChar c = false) :
    readClauses (clause.word ++ rest) =
      ([], (clause, (readClauses rest).1) :: (readClauses rest).2) := by
  have hword := letters_of_mem_vocabulary clause.word_mem
  rw [readClauses, runs_append hword.ne_nil hword.isWordChar hrest, clausesOfRuns]
  simp only [clause.ofWord?_word]
  rfl

theorem readClauses_space {rest : List Char} (hrest : ∀ c ∈ rest.head?, Text.isWordChar c = true) :
    readClauses (' ' :: rest) = (' ' :: (readClauses rest).1, (readClauses rest).2) := by
  have hnone : Clause.ofWord? [' '] = none := rfl
  exact readClauses_append (List.cons_ne_nil ' ' []) (List.forall_mem_singleton.mpr rfl) hrest hnone

theorem readClauses_name (name : Name) {rest : List Char}
    (hrest : ∀ c ∈ rest.head?, Text.isWordChar c = false) :
    readClauses (name.text ++ rest) =
      (name.text ++ (readClauses rest).1, (readClauses rest).2) :=
  readClauses_append name.letters.ne_nil name.letters.isWordChar hrest name.ofWord?_eq_none

theorem isWordChar_head?_commaList (name : Name) (names : List Name) (rest : List Char) :
    ∀ c ∈ (commaList (name :: names) ++ rest).head?, Text.isWordChar c = true := by
  have hstart := name.letters.head?_append (fun _ => isWordChar_of_isLetter)
  cases names with
  | nil => exact hstart rest
  | cons next names =>
    rw [commaList, List.append_assoc]
    exact hstart _

/-- No clause starts in a list of names. -/
theorem readClauses_list (name : Name) (names : List Name) {rest : List Char}
    (hrest : ∀ c ∈ rest.head?, Text.isWordChar c = false) :
    readClauses (commaList (name :: names) ++ rest) =
      (commaList (name :: names) ++ (readClauses rest).1, (readClauses rest).2) := by
  induction names generalizing name with
  | nil => exact readClauses_name name hrest
  | cons next names ih =>
    have hcomma : ∀ c ∈ ", ".toList, Text.isWordChar c = false :=
      List.forall_mem_cons.mpr ⟨rfl, List.forall_mem_singleton.mpr rfl⟩
    have hgap := readClauses_append (by decide) hcomma
      (isWordChar_head?_commaList next names rest) rfl
    have hstop : ∀ c ∈ (", ".toList ++ (commaList (next :: names) ++ rest)).head?,
        Text.isWordChar c = false := by
      rintro c ⟨⟩
      rfl
    have htext : ∀ text, commaList (name :: next :: names) ++ text =
        name.text ++ (", ".toList ++ (commaList (next :: names) ++ text)) := by
      intro text
      rw [commaList, List.append_assoc, List.append_assoc]
    rw [htext, readClauses_name name hstop, hgap, ih, htext]

/-- The texts that nothing or a space starts. -/
def AtSpace (text : List Char) : Prop := ∀ c ∈ text.head?, c = ' '

theorem AtSpace.not_isWordChar {text : List Char} (h : AtSpace text) :
    ∀ c ∈ text.head?, Text.isWordChar c = false := by
  intro c hc
  rw [h c hc]
  rfl

theorem readClauses_clause (clause : Clause) (name : Name) (names : List Name) {rest : List Char}
    (hrest : AtSpace rest) :
    readClauses (clauseText clause (name :: names) ++ rest) =
      ([' '], (clause, ' ' :: (commaList (name :: names) ++ (readClauses rest).1)) ::
        (readClauses rest).2) := by
  let list := commaList (name :: names) ++ rest
  have hlist : readClauses (' ' :: list) =
      (' ' :: (commaList (name :: names) ++ (readClauses rest).1), (readClauses rest).2) := by
    rw [readClauses_space (isWordChar_head?_commaList name names rest),
      readClauses_list name names hrest.not_isWordChar]
  have hspace : ∀ c ∈ (' ' :: list).head?, Text.isWordChar c = false := by
    rintro c ⟨⟩
    rfl
  have hword := (letters_of_mem_vocabulary clause.word_mem).head?_append
    (fun _ => isWordChar_of_isLetter) (' ' :: list)
  have htext : clauseText clause (name :: names) ++ rest = ' ' :: (clause.word ++ ' ' :: list) := by
    simp [clauseText, list]
  rw [htext, readClauses_space hword, readClauses_word clause hspace, hlist]

/-- The clauses one after another. -/
def clausesText (clauses : List (Clause × List Name)) : List Char :=
  clauses.flatMap fun clause => clauseText clause.1 clause.2

theorem atSpace_clausesText (clauses : List (Clause × List Name)) :
    AtSpace (clausesText clauses) := by
  induction clauses with
  | nil => exact nofun
  | cons clause clauses ih =>
    obtain ⟨clause, names⟩ := clause
    cases names with
    | nil => exact ih
    | cons name names =>
      rintro c ⟨⟩
      rfl

theorem typeNames_commaList (name : Name) (names : List Name) :
    typeNames (commaList (name :: names)) =
      (name :: names).map Name.string := by
  have hlist := @typeNames_list [] [] (by simp) (by simp) name names
  rwa [List.nil_append, List.append_nil] at hlist

/-- The declaration with the types that a clause names, if it names any. -/
def applyNames (d : Declaration) (clause : Clause × List Name) : Declaration :=
  if clause.2 = [] then d else applyClause d (clause.1, commaList clause.2)

/-- What is read of clauses is what was written. -/
theorem foldl_clauses (clauses : List (Clause × List Name)) (d : Declaration) :
    (∀ c ∈ (readClauses (clausesText clauses)).1, isBlank c) ∧
      (readClauses (clausesText clauses)).2.foldl applyClause d = clauses.foldl applyNames d := by
  induction clauses generalizing d with
  | nil => exact ⟨nofun, rfl⟩
  | cons clause clauses ih =>
    obtain ⟨clause, names⟩ := clause
    cases names with
    | nil => exact ih d
    | cons name names =>
      have htext : clausesText ((clause, name :: names) :: clauses) =
          clauseText clause (name :: names) ++ clausesText clauses := rfl
      have hblanks := (ih d).1
      have hnames : typeNames (' ' :: (commaList (name :: names) ++
          (readClauses (clausesText clauses)).1)) = typeNames (commaList (name :: names)) := by
        rw [typeNames_commaList]
        exact typeNames_list (List.forall_mem_singleton.mpr rfl) hblanks name names
      rw [htext, readClauses_clause clause name names (atSpace_clausesText clauses)]
      refine ⟨List.forall_mem_singleton.mpr rfl, ?_⟩
      rw [List.foldl_cons, (ih _).2, List.foldl_cons]
      congr 1
      rw [applyNames, if_neg (List.cons_ne_nil _ _), applyClause, applyClause, hnames]

/-! ## Words -/

/-- A blank separates the words of two texts. -/
theorem words_append_of_atBlank (a : List Char) {b : List Char} (hb : AtBlank b) :
    Text.words (a ++ b) = Text.words a ++ Text.words b := by
  induction a with
  | nil => rfl
  | cons c a ih =>
    have hstart : AtBlank (a ++ b) ↔ AtBlank a := by
      cases a with
      | nil => exact iff_of_true hb atBlank_nil
      | cons d a => exact atBlank_append (List.cons_ne_nil d a) b
    rw [List.cons_append]
    by_cases hc : isBlank c
    · rw [words_cons_of_isBlank hc, words_cons_of_isBlank hc, ih]
    · by_cases ha : AtBlank a
      · rw [words_cons_of_atBlank hc (hstart.mpr ha), words_cons_of_atBlank hc ha, ih,
          List.cons_append]
      · obtain ⟨word, words, hwords⟩ := List.exists_cons_of_ne_nil (words_ne_nil ha)
        rw [words_cons_of_not_atBlank hc (mt hstart.mp ha), words_cons_of_not_atBlank hc ha, ih,
          hwords]
        rfl

theorem words_word_append {word : List Char} (hne : word ≠ [])
    (hword : ∀ c ∈ word, isBlank c = false) {rest : List Char} (hrest : AtBlank rest) :
    Text.words (word ++ rest) = word :: Text.words rest := by
  rw [words_append_of_atBlank word hrest, words_of_solid hne hword, List.singleton_append]

/-- The texts that are their words with a space before each. -/
def Spaced (text : List Char) : Prop := (Text.words text).flatMap (' ' :: ·) = text

theorem Spaced.atBlank {text : List Char} (h : Spaced text) : AtBlank text := by
  rw [Spaced] at h
  rw [← h]
  cases Text.words text with
  | nil => exact atBlank_nil
  | cons word words => exact atBlank_cons.mpr rfl

theorem Spaced.append {a b : List Char} (ha : Spaced a) (hb : Spaced b) : Spaced (a ++ b) := by
  rw [Spaced, words_append_of_atBlank a hb.atBlank, List.flatMap_append, ha, hb]

theorem spaced_word {word : List Char} (hne : word ≠ []) (hword : ∀ c ∈ word, isBlank c = false) :
    Spaced (' ' :: word) := by
  rw [Spaced, words_cons_of_isBlank rfl, words_of_solid hne hword]
  simp

theorem spaced_list (name : Name) (names : List Name) :
    Spaced (' ' :: commaList (name :: names)) := by
  induction names generalizing name with
  | nil => exact spaced_word name.letters.ne_nil name.letters.solid
  | cons next names ih =>
    have hword : ∀ c ∈ name.text ++ [','], isBlank c = false :=
      List.forall_mem_append.mpr ⟨name.letters.solid, List.forall_mem_singleton.mpr rfl⟩
    have happend := (spaced_word (by simp) hword).append (ih next)
    simpa [commaList] using happend

theorem spaced_clausesText (clauses : List (Clause × List Name)) :
    Spaced (clausesText clauses) := by
  induction clauses with
  | nil => rfl
  | cons clause clauses ih =>
    obtain ⟨clause, names⟩ := clause
    cases names with
    | nil => exact ih
    | cons name names =>
      have hword := letters_of_mem_vocabulary clause.word_mem
      have hclause := (spaced_word hword.ne_nil hword.solid).append (spaced_list name names)
      exact hclause.append ih

/-- Behind an empty word, the words of such a text are joined to the text. -/
theorem Spaced.join_words {text : List Char} (h : Spaced text) :
    Text.join ' ' ([] :: Text.words text) = text := by
  rw [Spaced] at h
  cases hwords : Text.words text with
  | nil =>
    rw [hwords] at h
    exact h
  | cons word words =>
    rw [hwords] at h
    rw [Text.join_cons_cons, List.nil_append, Text.cons_join ' ' (List.cons_ne_nil _ _), h]

/-! ## Segments -/

/-- The characters of a segment in the plain layout. -/
def isSegmentChar (c : Char) : Bool :=
  isLetter c || Text.isAsciiBlankChar c || [',', '=', '(', ')'].contains c

/-- A text of such characters. -/
def Segment (text : List Char) : Prop := ∀ c ∈ text, isSegmentChar c

theorem Segment.not_mem {text : List Char} (h : Segment text) {c : Char}
    (hc : isSegmentChar c = false) : c ∉ text :=
  fun hmem => Bool.false_ne_true (hc.symm.trans (h c hmem))

theorem Segment.unmarked {text : List Char} (h : Segment text) : Unmarked text := by
  intro c hc
  cases hmark : Mark.ofChar? c with
  | none => rfl
  | some mark =>
    rw [← Mark.char_of_ofChar? hmark] at hc
    refine absurd hc (h.not_mem ?_)
    cases mark <;> decide

theorem segment_append {a b : List Char} : Segment (a ++ b) ↔ Segment a ∧ Segment b :=
  List.forall_mem_append

theorem segment_cons {c : Char} {text : List Char} :
    Segment (c :: text) ↔ isSegmentChar c ∧ Segment text :=
  List.forall_mem_cons

theorem Letters.segment {word : List Char} (h : Letters word) : Segment word := by
  intro c hc
  rw [isSegmentChar, h.isLetter c hc]
  rfl

/-- Blanks. -/
structure Gap where
  text : List Char
  blank : ∀ c ∈ text, Text.isAsciiBlankChar c

theorem Gap.segment (gap : Gap) : Segment gap.text := by
  intro c hc
  rw [isSegmentChar, gap.blank c hc, Bool.or_true]
  rfl

theorem Gap.isBlank (gap : Gap) : ∀ c ∈ gap.text, isBlank c :=
  fun c hc => Text.isBlank_of_isAsciiBlankChar (gap.blank c hc)

theorem segment_commaList (names : List Name) : Segment (commaList names) := by
  fun_induction commaList names with
  | case1 => exact nofun
  | case2 name => exact name.letters.segment
  | case3 name next names ih =>
    exact segment_append.mpr ⟨name.letters.segment, segment_append.mpr
      ⟨List.all_eq_true.mp rfl, ih⟩⟩

theorem segment_clausesText (clauses : List (Clause × List Name)) :
    Segment (clausesText clauses) := by
  induction clauses with
  | nil => exact nofun
  | cons clause clauses ih =>
    obtain ⟨clause, names⟩ := clause
    refine segment_append.mpr ⟨?_, ih⟩
    cases names with
    | nil => exact nofun
    | cons name names =>
      have hword := letters_of_mem_vocabulary clause.word_mem
      exact segment_cons.mpr ⟨rfl, segment_append.mpr ⟨hword.segment,
        segment_cons.mpr ⟨rfl, segment_commaList _⟩⟩⟩

/-! ## Headers -/

/-- What a declaration says besides its name and the members in its body. The constants of an
enumeration have blanks before them. -/
inductive Header where
  | classType (isAbstract : Bool) (supertype : Option Name) (mixins interfaces : List Name)
  | mixin (bounds interfaces : List Name)
  | enumeration (constants : List (Gap × Name))
  | extension (target : Name)

namespace Header

/-- The keyword, and what it declares. -/
def keyword : Header → List Char × DeclarationKind
  | classType .. => ("class".toList, .classType)
  | mixin .. => ("mixin".toList, .mixin)
  | enumeration _ => ("enum".toList, .enumeration)
  | extension _ => ("extension".toList, .extension)

/-- The words before the keyword. -/
def modifiers : Header → List (List Char)
  | classType true .. => ["abstract".toList]
  | _ => []

/-- The clauses, in the order in which they are written. -/
def clauses : Header → List (Clause × List Name)
  | classType _ supertype mixins interfaces =>
    [(.extending, supertype.toList), (.mixing, mixins), (.implementing, interfaces)]
  | mixin bounds interfaces => [(.constraining, bounds), (.implementing, interfaces)]
  | enumeration _ => []
  | extension target => [(.constraining, [target])]

/-- The text of a header, up to the brace. -/
def text (header : Header) (name : Name) : List Char :=
  header.modifiers.flatMap (· ++ [' ']) ++
    (header.keyword.1 ++ ' ' :: (name.text ++ (clausesText header.clauses ++ [' '])))

/-- What a header declares. -/
def declaration (header : Header) (name : Name) (file : Path) (line : Nat) : Declaration :=
  let d : Declaration :=
    { name := name.string, kind := header.keyword.2, file, line := some line }
  match header with
  | classType isAbstract supertype mixins interfaces =>
    { d with
      isAbstract
      supertype := supertype.map Name.string
      mixins := mixins.map Name.string
      interfaces := interfaces.map Name.string }
  | mixin bounds interfaces =>
    { d with
      supertype := bounds.head?.map Name.string
      interfaces := bounds.tail.map Name.string ++ interfaces.map Name.string }
  | enumeration _ => d
  | extension _ => d

theorem keyword_mem (header : Header) : header.keyword.1 ∈ vocabulary := by
  have hkeywords : ∀ word ∈ ["class", "mixin", "enum", "extension"], word.toList ∈ vocabulary := by
    decide
  cases header <;> exact hkeywords _ (by simp)

theorem modifiers_mem (header : Header) : ∀ word ∈ header.modifiers, word ∈ Source.modifiers := by
  fun_cases modifiers header with
  | case1 => exact List.forall_mem_singleton.mpr (by decide)
  | case2 => exact nofun

theorem letters_modifiers (header : Header) : ∀ word ∈ header.modifiers, Letters word := by
  intro word hword
  have hmem := header.modifiers_mem word hword
  exact letters_of_mem_vocabulary (by simp [vocabulary, hmem])

theorem segment_text (header : Header) (name : Name) : Segment (header.text name) := by
  refine segment_append.mpr ⟨fun c hc => ?_, ?_⟩
  · obtain ⟨word, hword, hc⟩ := List.mem_flatMap.mp hc
    have hsegment : Segment (word ++ [' ']) :=
      segment_append.mpr ⟨(header.letters_modifiers word hword).segment,
        List.forall_mem_singleton.mpr rfl⟩
    exact hsegment c hc
  · have hkeyword := (letters_of_mem_vocabulary header.keyword_mem).segment
    simp only [segment_append, segment_cons]
    exact ⟨hkeyword, rfl, name.letters.segment, segment_clausesText _, rfl, nofun⟩

end Header

theorem words_blanks_append {blanks : List Char} (hblanks : ∀ c ∈ blanks, isBlank c)
    (rest : List Char) : Text.words (blanks ++ rest) = Text.words rest := by
  induction blanks with
  | nil => rfl
  | cons c blanks ih =>
    obtain ⟨hc, hblanks⟩ := List.forall_mem_cons.mp hblanks
    rw [List.cons_append, words_cons_of_isBlank hc, ih hblanks]

theorem words_flatMap_append {words : List (List Char)} (h : ∀ word ∈ words, Letters word)
    (rest : List Char) :
    Text.words (words.flatMap (· ++ [' ']) ++ rest) = words ++ Text.words rest := by
  induction words with
  | nil => rfl
  | cons word words ih =>
    obtain ⟨hword, h⟩ := List.forall_mem_cons.mp h
    have htext : (word :: words).flatMap (· ++ [' ']) ++ rest =
        word ++ ' ' :: (words.flatMap (· ++ [' ']) ++ rest) := by
      simp
    rw [htext, words_word_append hword.ne_nil hword.solid (atBlank_cons.mpr rfl),
      words_cons_of_isBlank rfl, ih h, List.cons_append]

theorem wordsOf_header (gap : Gap) (header : Header) (name : Name) :
    wordsOf (gap.text ++ header.text name) =
      header.modifiers ++ header.keyword.1 :: name.text ::
        Text.words (clausesText header.clauses) := by
  have hsegment : Segment (gap.text ++ header.text name) :=
    segment_append.mpr ⟨gap.segment, header.segment_text name⟩
  have hkeyword := letters_of_mem_vocabulary header.keyword_mem
  have hclauses : AtBlank (clausesText header.clauses ++ [' ']) := by
    cases hclauses : clausesText header.clauses with
    | nil => exact atBlank_cons.mpr rfl
    | cons c text =>
      have hspaced := (spaced_clausesText header.clauses).atBlank
      rw [hclauses] at hspaced
      exact hspaced
  rw [wordsOf, withoutAnnotations_of_not_mem (hsegment.not_mem (by decide)),
    words_blanks_append gap.isBlank, Header.text,
    words_flatMap_append header.letters_modifiers,
    words_word_append hkeyword.ne_nil hkeyword.solid (atBlank_cons.mpr rfl),
    words_cons_of_isBlank rfl,
    words_word_append name.letters.ne_nil name.letters.solid hclauses,
    words_append_blanks _ (List.forall_mem_singleton.mpr rfl)]

/-! ## Headings -/

theorem isNameStart_of_isLetter {c : Char} (hc : isLetter c) (hdigit : c.isDigit = false) :
    isNameStart c := by
  rw [isLetter, Char.isAlphanum, hdigit, Bool.or_false] at hc
  rw [isNameStart, hc]
  rfl

theorem isNameChar_of_isLetter {c : Char} (hc : isLetter c) : isNameChar c := by
  rw [isNameChar, isWordChar_of_isLetter hc]
  rfl

theorem headingWith?_of_some {words more : List (List Char)}
    {keyword : List (List Char) × DeclarationKind} {name : Name}
    (h : Text.stripStart? keyword.1 words = some (name.text :: more)) :
    headingWith? words keyword = some
      { keyword := keyword.1
        kind := keyword.2
        name := name.text
        rest := Text.join ' ' ([] :: more) } := by
  have hletters := name.letters.isLetter
  have hstart := name.start
  obtain ⟨c, cs, hname⟩ := List.exists_cons_of_ne_nil name.letters.ne_nil
  rw [hname] at h hletters hstart ⊢
  have hc := isNameStart_of_isLetter (hletters c List.mem_cons_self) (hstart c rfl)
  have hcs : ∀ d ∈ cs, isNameChar d :=
    fun d hd => isNameChar_of_isLetter (hletters d (List.mem_cons_of_mem c hd))
  rw [headingWith?]
  simp only [h, hc, if_true, List.takeWhile_eq_self_iff.mpr hcs, List.dropWhile_eq_nil_iff.mpr hcs]

/-- A keyword of one word is found before a name. -/
theorem headingWith?_word (word : List Char) (kind : DeclarationKind) (name : Name)
    (more : List (List Char)) :
    headingWith? (word :: name.text :: more) ([word], kind) =
      some ⟨[word], kind, name.text, Text.join ' ' ([] :: more)⟩ :=
  headingWith?_of_some (by simp [Text.stripStart?])

theorem headingWith?_of_none {words : List (List Char)}
    {keyword : List (List Char) × DeclarationKind} (h : Text.stripStart? keyword.1 words = none) :
    headingWith? words keyword = none := by
  rw [headingWith?, h]

/-- A keyword that starts with another word is passed over. -/
theorem findSome?_of_ne {word other : List Char} (h : other ≠ word)
    {words more : List (List Char)} {kind : DeclarationKind}
    {rest : List (List (List Char) × DeclarationKind)} :
    ((other :: more, kind) :: rest).findSome? (headingWith? (word :: words)) =
      rest.findSome? (headingWith? (word :: words)) := by
  rw [List.findSome?_cons, headingWith?_of_none (by simp only [Text.stripStart?, if_neg h])]

/-- So is a keyword with another second word. -/
theorem findSome?_of_ne_second {word second other : List Char} (h : other ≠ second)
    {words : List (List Char)} {kind : DeclarationKind}
    {rest : List (List (List Char) × DeclarationKind)} :
    (([word, other], kind) :: rest).findSome? (headingWith? (word :: second :: words)) =
      rest.findSome? (headingWith? (word :: second :: words)) := by
  rw [List.findSome?_cons,
    headingWith?_of_none (by simp only [Text.stripStart?, if_true, if_neg h])]

/-- The keyword of a plain header is found. -/
theorem findSome?_headingWith? (header : Header) (name : Name) (more : List (List Char)) :
    keywords.findSome? (headingWith? (header.keyword.1 :: name.text :: more)) = some
      { keyword := [header.keyword.1]
        kind := header.keyword.2
        name := name.text
        rest := Text.join ' ' ([] :: more) } := by
  have hsecond : ∀ {word : List Char}, word ∈ vocabulary → word ≠ name.text :=
    fun hword heq => name.not_mem_vocabulary (heq ▸ hword)
  have hclass : "class".toList ≠ name.text := hsecond (by decide)
  have htype : "type".toList ≠ name.text := hsecond (by decide)
  cases header with
  | classType =>
    show keywords.findSome? (headingWith? ("class".toList :: name.text :: more)) = _
    rw [keywords, findSome?_of_ne, List.findSome?_cons, headingWith?_word]
    · rfl
    · decide
  | mixin =>
    show keywords.findSome? (headingWith? ("mixin".toList :: name.text :: more)) = _
    rw [keywords, findSome?_of_ne_second hclass, findSome?_of_ne, List.findSome?_cons,
      headingWith?_word]
    · rfl
    · decide
  | enumeration =>
    show keywords.findSome? (headingWith? ("enum".toList :: name.text :: more)) = _
    rw [keywords, findSome?_of_ne, findSome?_of_ne, findSome?_of_ne, List.findSome?_cons,
      headingWith?_word]
    · rfl
    all_goals decide
  | extension =>
    show keywords.findSome? (headingWith? ("extension".toList :: name.text :: more)) = _
    rw [keywords, findSome?_of_ne, findSome?_of_ne, findSome?_of_ne, findSome?_of_ne,
      findSome?_of_ne_second htype, List.findSome?_cons, headingWith?_word]
    · rfl
    all_goals decide

section ApplyNames

variable (d : Declaration) (names : List Name)

theorem applyNames_mixing :
    applyNames d (.mixing, names) = { d with mixins := d.mixins ++ names.map Name.string } := by
  cases names with
  | nil => simp [applyNames]
  | cons name names => simp [applyNames, applyClause, typeNames_commaList]

theorem applyNames_implementing :
    applyNames d (.implementing, names) =
      { d with interfaces := d.interfaces ++ names.map Name.string } := by
  cases names with
  | nil => simp [applyNames]
  | cons name names => simp [applyNames, applyClause, typeNames_commaList]

theorem applyNames_extending {d : Declaration} (hd : d.supertype = none) (name? : Option Name) :
    applyNames d (.extending, name?.toList) = { d with supertype := name?.map Name.string } := by
  cases name? with
  | none => simp [applyNames, ← hd]
  | some name => simp [applyNames, applyClause, typeNames_commaList]

/-- The first type that a mixin names is what it extends, the others are interfaces. -/
theorem applyNames_constraining_mixin {d : Declaration} (hkind : d.kind = .mixin)
    (hd : d.supertype = none) :
    applyNames d (.constraining, names) =
      { d with
        supertype := names.head?.map Name.string
        interfaces := d.interfaces ++ names.tail.map Name.string } := by
  cases names with
  | nil => simp [applyNames, ← hd]
  | cons name names => simp [applyNames, applyClause, typeNames_commaList, hkind]

theorem applyNames_constraining_of_ne {d : Declaration} (hkind : d.kind ≠ .mixin) :
    applyNames d (.constraining, names) = d := by
  cases names with
  | nil => rfl
  | cons name names =>
    rw [applyNames, if_neg (List.cons_ne_nil _ _), applyClause]
    dsimp only
    split
    · next hmixin _ => exact absurd hmixin hkind
    · rfl

end ApplyNames

theorem foldl_applyNames (header : Header) (name : Name) (file : Path) (line : Nat) :
    header.clauses.foldl applyNames
      { name := name.string
        kind := header.keyword.2
        file
        line := some line
        isAbstract := header.modifiers.contains "abstract".toList } =
      header.declaration name file line := by
  cases header with
  | classType isAbstract supertype mixins interfaces =>
    simp only [Header.clauses, List.foldl_cons, List.foldl_nil, applyNames_extending,
      applyNames_mixing, applyNames_implementing]
    cases isAbstract <;> rfl
  | mixin bounds interfaces =>
    simp only [Header.clauses, List.foldl_cons, List.foldl_nil, applyNames_implementing]
    rw [applyNames_constraining_mixin _ rfl rfl]
    rfl
  | enumeration => rfl
  | extension target =>
    have hkind : (Header.extension target).keyword.2 ≠ .mixin :=
      show DeclarationKind.extension ≠ .mixin by decide
    rw [Header.clauses, List.foldl_cons, List.foldl_nil, applyNames_constraining_of_ne _ hkind]
    rfl

/-- A header declares what was written, in whatever line it stands. -/
theorem declaration?_header (gap : Gap) (header : Header) (name : Name) (file : Path) (line : Nat) :
    declaration? (gap.text ++ header.text name) file line =
      some (header.declaration name file line) := by
  have hmodifiers : ∀ word ∈ header.modifiers, modifiers.contains word = true :=
    fun word hword => List.contains_iff_mem.mpr (header.modifiers_mem word hword)
  have hkeyword : ∀ word ∈ (header.keyword.1 :: name.text ::
      Text.words (clausesText header.clauses)).head?, modifiers.contains word = false := by
    rintro word ⟨⟩
    cases header <;> rfl
  have hon : ¬ ([header.keyword.1] = ["extension".toList] ∧ name.text = "on".toList) := by
    rintro ⟨-, heq⟩
    exact name.not_mem_vocabulary (heq ▸ Clause.word_mem .constraining)
  have hangles := (withoutTypeArguments_of_not_mem
    ((segment_clausesText header.clauses).not_mem (c := '<') (by decide))).1
  have hclauses : clauses (clausesText header.clauses) =
    (readClauses (clausesText header.clauses)).2 := rfl
  rw [declaration?, wordsOf_header gap, dropWhile_append_stop hmodifiers hkeyword,
    takeWhile_append_stop hmodifiers hkeyword, findSome?_headingWith?]
  simp only [if_neg hon, (spaced_clausesText header.clauses).join_words, hangles, hclauses,
    (foldl_clauses header.clauses _).2]
  exact congrArg some (foldl_applyNames header name file line)

end Source

end Recheck
