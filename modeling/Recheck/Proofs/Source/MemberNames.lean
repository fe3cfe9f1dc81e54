import Mathlib.Data.List.DropRight
import Recheck.Proofs.Content
import Recheck.Proofs.Source.Padded

/-!
# The names of members

A segment of a body names a member if the part of it before its parameters, its value or its arrow
ends in a name that is neither qualified, nor that of the declaration, nor reserved (`Names`,
`memberName?_eq_some_iff`). Annotations and type arguments do not count, and nor do blanks: only the
last word of that part matters.
-/

namespace Recheck

namespace Source

open Text (isBlank)

/-- The text ends, blanks aside, in an identifier that no dot precedes, and that is neither the
owner's name nor reserved. -/
structure EndsInName (owner : String) (text name : List Char) : Prop where
  exists_before : ∃ before blanks, text = before ++ name ++ blanks ∧ (∀ c ∈ blanks, isBlank c) ∧
    ∀ c ∈ before.getLast?, isIdentifierChar c = false ∧ c ≠ '.'
  name_ne_nil : name ≠ []
  chars : ∀ c ∈ name, isIdentifierChar c
  start : ∀ c ∈ name.head?, c.isDigit = false
  ne_owner : String.ofList name ≠ owner
  not_reserved : name ∉ reserved

theorem not_isIdentifierChar_of_isBlank {c : Char} (hc : isBlank c) :
    isIdentifierChar c = false ∧ c ≠ '.' :=
  forall_isBlank (P := fun c => isIdentifierChar c = false ∧ c ≠ '.') (by decide +kernel) hc

theorem not_isBlank_of_isIdentifierChar {c : Char} (hc : isIdentifierChar c) :
    isBlank c = false := by
  cases hblank : isBlank c with
  | false => rfl
  | true =>
    rw [(not_isIdentifierChar_of_isBlank hblank).1] at hc
    cases hc

/-! ## The end of a text -/

section

variable {α : Type} {p : α → Bool}

/-- A stretch of a class that no element of the class precedes is all that is dropped. -/
theorem rdropWhile_append_run {xs run : List α} (hrun : ∀ x ∈ run, p x)
    (hxs : ∀ x ∈ xs.getLast?, p x = false) : (xs ++ run).rdropWhile p = xs := by
  have hstay : xs.rdropWhile p = xs := by
    rw [List.rdropWhile_eq_self_iff]
    intro hne
    have := hxs (xs.getLast hne) (List.getLast?_eq_some_getLast hne)
    simp [this]
  calc (xs ++ run).rdropWhile p
      = xs.rdropWhile p := by
        rw [List.rdropWhile, List.reverse_append,
          List.dropWhile_append_of_pos fun x hx => hrun x (List.mem_reverse.mp hx)]
        rfl
    _ = xs := hstay

theorem rtakeWhile_append_run {xs run : List α} (hrun : ∀ x ∈ run, p x)
    (hxs : ∀ x ∈ xs.getLast?, p x = false) : (xs ++ run).rtakeWhile p = run := by
  have hall : (xs ++ run).rdropWhile p ++ (xs ++ run).rtakeWhile p = xs ++ run :=
    List.rdropWhile_append_rtakeWhile
  rw [rdropWhile_append_run hrun hxs] at hall
  exact List.append_cancel_left hall

theorem mem_getLast?_append {xs ys : List α} {x : α} (hx : x ∈ (xs ++ ys).getLast?) :
    x ∈ ys.getLast? ∨ x ∈ xs.getLast? := by
  rw [List.getLast?_append, Option.mem_def, Option.or_eq_some_iff] at hx
  exact hx.imp_right And.right

theorem getLast?_rdropWhile (xs : List α) : ∀ x ∈ (xs.rdropWhile p).getLast?, p x = false := by
  intro x hx
  have hne : xs.rdropWhile p ≠ [] := by
    intro hnil
    rw [hnil] at hx
    cases hx
  have hlast := List.rdropWhile_last_not p xs hne
  rw [List.getLast?_eq_some_getLast hne] at hx
  obtain rfl := Option.some.inj hx
  simpa using hlast

end

variable {owner : String} {text name : List Char}

theorem EndsInName.exists_trimRight (h : EndsInName owner text name) :
    ∃ before, Text.trimRight text = before ++ name ∧
      ∀ c ∈ before.getLast?, isIdentifierChar c = false ∧ c ≠ '.' := by
  obtain ⟨before, blanks, rfl, hblanks, hbefore⟩ := h.exists_before
  refine ⟨before, ?_, hbefore⟩
  rw [Text.trimRight, Text.dropRightWhile_eq_rdropWhile]
  refine rdropWhile_append_run hblanks fun c hc => ?_
  rw [List.getLast?_append_of_ne_nil _ h.name_ne_nil] at hc
  exact not_isBlank_of_isIdentifierChar (h.chars c (List.mem_of_getLast? hc))

/-- The name is all that can be read of an identifier at the end. -/
theorem EndsInName.eq_rtakeWhile (h : EndsInName owner text name) :
    name = (Text.trimRight text).rtakeWhile isIdentifierChar := by
  obtain ⟨before, htext, hbefore⟩ := h.exists_trimRight
  rw [htext, rtakeWhile_append_run h.chars fun c hc => (hbefore c hc).1]

theorem EndsInName.rdropWhile_last (h : EndsInName owner text name) :
    ((Text.trimRight text).rdropWhile isIdentifierChar).getLast? ≠ some '.' := by
  obtain ⟨before, htext, hbefore⟩ := h.exists_trimRight
  rw [htext, rdropWhile_append_run h.chars fun c hc => (hbefore c hc).1]
  exact fun hdot => (hbefore '.' hdot).2 rfl

theorem exists_eq_trimRight (text : List Char) :
    ∃ blanks, text = Text.trimRight text ++ blanks ∧ ∀ c ∈ blanks, isBlank c := by
  refine ⟨text.rtakeWhile isBlank, ?_, fun c => List.mem_rtakeWhile_imp⟩
  rw [Text.trimRight, Text.dropRightWhile_eq_rdropWhile]
  exact List.rdropWhile_append_rtakeWhile.symm

/-! ## The head of a segment -/

/-- Parameters start with a parenthesis, values and arrows with an equals sign. -/
def isHeadChar (c : Char) : Bool := c != '(' && c != '='

/-- The part of a text before its parameters, its value or its arrow, without type arguments. -/
def headOf (text : List Char) : List Char := (withoutTypeArguments text).takeWhile isHeadChar

/-- The segment names a member. -/
def Names (owner : String) (segment name : List Char) : Prop :=
  EndsInName owner (headOf (withoutAnnotations 0 segment)) name

theorem identifier?_eq_some_iff {run name : List Char} :
    identifier? run = some name ↔
      run = name ∧ name ≠ [] ∧ ∀ c ∈ name.head?, c.isDigit = false := by
  cases run with
  | nil =>
    simp only [identifier?, reduceCtorEq, false_iff]
    rintro ⟨rfl, hne, -⟩
    exact hne rfl
  | cons c run =>
    rw [identifier?]
    cases hc : c.isDigit with
    | true =>
      simp only [if_true, reduceCtorEq, false_iff]
      rintro ⟨rfl, -, hstart⟩
      simpa [hc] using hstart c rfl
    | false =>
      constructor
      · rintro ⟨⟩
        simpa using hc
      · rintro ⟨rfl, -⟩
        rfl

theorem memberName?_eq_some_iff_run {segment : List Char} :
    memberName? owner segment = some name ↔
      identifier? ((memberHead segment).rtakeWhile isIdentifierChar) = some name ∧
        String.ofList name ≠ owner ∧
        ((memberHead segment).rdropWhile isIdentifierChar).getLast? ≠ some '.' ∧
        name ∉ reserved := by
  -- What precedes the run is what is left when as many characters are cut off.
  have hbefore : ∀ head run : List Char, head.rtakeWhile isIdentifierChar = run →
      head.take (head.length - run.length) = head.rdropWhile isIdentifierChar := by
    rintro head _ rfl
    have hall : head.rdropWhile isIdentifierChar ++ head.rtakeWhile isIdentifierChar = head :=
      List.rdropWhile_append_rtakeWhile
    have hlength := congrArg List.length hall
    rw [List.length_append] at hlength
    have hkept : head.length - (head.rtakeWhile isIdentifierChar).length =
        (head.rdropWhile isIdentifierChar).length := by omega
    rw [hkept, ← List.prefix_iff_eq_take.mp (List.rdropWhile_prefix isIdentifierChar head)]
  have hrun : trailingIdentifier? (memberHead segment) =
    identifier? ((memberHead segment).rtakeWhile isIdentifierChar) := rfl
  rw [memberName?, hrun]
  cases hname : identifier? ((memberHead segment).rtakeWhile isIdentifierChar) with
  | none => simp
  | some found =>
    simp only [hbefore _ _ (identifier?_eq_some_iff.mp hname).1]
    rw [Option.ite_none_left_eq_some]
    constructor
    · rintro ⟨hcond, ⟨⟩⟩
      simpa [not_or, and_assoc] using hcond
    · rintro ⟨⟨⟩, howner, hdot, hreserved⟩
      simp [howner, hdot, hreserved]

/-- A segment is taken for a member exactly if its head ends in a name. -/
theorem memberName?_eq_some_iff_clean {segment : List Char} :
    memberName? owner segment = some name ↔ EndsInName owner (headOf (clean segment)) name := by
  have hhead : memberHead segment = Text.trimRight (headOf (clean segment)) := rfl
  rw [memberName?_eq_some_iff_run, hhead, identifier?_eq_some_iff]
  generalize headOf (clean segment) = text
  constructor
  · rintro ⟨⟨hrun, hne, hstart⟩, howner, hdot, hreserved⟩
    obtain ⟨blanks, heq, hblanks⟩ := exists_eq_trimRight text
    let before := (Text.trimRight text).rdropWhile isIdentifierChar
    have hbefore : ∀ c ∈ before.getLast?, isIdentifierChar c = false ∧ c ≠ '.' :=
      fun c hc => ⟨getLast?_rdropWhile _ c hc, fun h => hdot (h ▸ hc)⟩
    refine ⟨⟨before, blanks, ?_, hblanks, hbefore⟩, hne, ?_, hstart, howner, hreserved⟩
    · rw [← hrun, List.rdropWhile_append_rtakeWhile, ← heq]
    · rw [← hrun]
      exact fun c => List.mem_rtakeWhile_imp
  · intro h
    exact ⟨⟨h.eq_rtakeWhile.symm, h.name_ne_nil, h.start⟩, h.ne_owner, h.rdropWhile_last,
      h.not_reserved⟩

/-! ## Blanks -/

theorem atBlank_append {text : List Char} (h : text ≠ []) (rest : List Char) :
    AtBlank (text ++ rest) ↔ AtBlank text := by
  obtain ⟨c, text, rfl⟩ := List.exists_cons_of_ne_nil h
  rw [List.cons_append, atBlank_cons, atBlank_cons]

theorem words_of_isBlank {blanks : List Char} (h : ∀ c ∈ blanks, isBlank c) :
    Text.words blanks = [] := by
  induction blanks with
  | nil => rfl
  | cons c blanks ih =>
    rw [words_cons_of_isBlank (h c List.mem_cons_self)]
    exact ih fun d hd => h d (List.mem_cons_of_mem c hd)

theorem words_append_blanks (text : List Char) {blanks : List Char}
    (hblanks : ∀ c ∈ blanks, isBlank c) : Text.words (text ++ blanks) = Text.words text := by
  induction text with
  | nil => exact words_of_isBlank hblanks
  | cons c text ih =>
    have hstart : AtBlank (text ++ blanks) ↔ AtBlank text := by
      cases text with
      | nil =>
        refine iff_of_true (fun d hd => hblanks d (List.mem_of_head? hd)) atBlank_nil
      | cons d text => exact atBlank_append (List.cons_ne_nil d text) blanks
    rw [List.cons_append]
    by_cases hc : isBlank c
    · rw [words_cons_of_isBlank hc, words_cons_of_isBlank hc, ih]
    · by_cases htext : AtBlank text
      · rw [words_cons_of_atBlank hc (hstart.mpr htext), words_cons_of_atBlank hc htext, ih]
      · rw [words_cons_of_not_atBlank hc (htext ∘ hstart.mp), words_cons_of_not_atBlank hc htext,
          ih]

theorem words_of_solid {word : List Char} (hne : word ≠ [])
    (hword : ∀ c ∈ word, isBlank c = false) : Text.words word = [word] := by
  induction word with
  | nil => exact absurd rfl hne
  | cons c word ih =>
    have hc : ¬ isBlank c := by simp [hword c List.mem_cons_self]
    cases word with
    | nil => exact words_cons_of_atBlank hc atBlank_nil
    | cons d word =>
      have hrest := ih (List.cons_ne_nil d word) fun e he => hword e (List.mem_cons_of_mem c he)
      have hd : ¬ AtBlank (d :: word) := by simp [atBlank_cons, hword d]
      rw [words_cons_of_not_atBlank hc hd, hrest]
      rfl

theorem words_ne_nil {text : List Char} (h : ¬ AtBlank text) : Text.words text ≠ [] := by
  cases text with
  | nil => exact absurd atBlank_nil h
  | cons c text =>
    rw [atBlank_cons] at h
    by_cases htext : AtBlank text
    · simp [words_cons_of_atBlank h htext]
    · simp [words_cons_of_not_atBlank h htext]

/-- The last word of a text, which a blank precedes if anything does. -/
theorem words_append_word {text word : List Char} (hne : word ≠ [])
    (hword : ∀ c ∈ word, isBlank c = false) (htext : ∀ c ∈ text.getLast?, isBlank c) :
    Text.words (text ++ word) = Text.words text ++ [word] := by
  induction text with
  | nil => exact words_of_solid hne hword
  | cons c text ih =>
    cases text with
    | nil =>
      have hc : isBlank c := htext c rfl
      rw [List.cons_append, words_cons_of_isBlank hc, words_cons_of_isBlank hc]
      exact words_of_solid hne hword
    | cons d text =>
      have ih := ih htext
      have hstart := atBlank_append (List.cons_ne_nil d text) word
      rw [List.cons_append]
      by_cases hc : isBlank c
      · rw [words_cons_of_isBlank hc, words_cons_of_isBlank hc, ih]
      · by_cases hd : AtBlank (d :: text)
        · rw [words_cons_of_atBlank hc (hstart.mpr hd), words_cons_of_atBlank hc hd, ih]
          rfl
        · rw [words_cons_of_not_atBlank hc (hd ∘ hstart.mp), words_cons_of_not_atBlank hc hd, ih]
          obtain ⟨w, ws, hws⟩ := List.exists_cons_of_ne_nil (words_ne_nil hd)
          rw [hws]
          rfl

/-- The end of a text from its last blank on. -/
theorem exists_solid_end (text : List Char) :
    ∃ before last, text = before ++ last ∧ (∀ c ∈ before.getLast?, isBlank c) ∧
      ∀ c ∈ last, isBlank c = false := by
  let solid : Char → Bool := fun c => !isBlank c
  refine ⟨text.rdropWhile solid, text.rtakeWhile solid, List.rdropWhile_append_rtakeWhile.symm,
    fun c hc => ?_, fun c hc => ?_⟩
  · simpa [solid] using getLast?_rdropWhile _ c hc
  · simpa [solid] using List.mem_rtakeWhile_imp hc

theorem exists_lastWord {text word : List Char} (h : (Text.words text).getLast? = some word) :
    ∃ before blanks, text = before ++ word ++ blanks ∧ (∀ c ∈ blanks, isBlank c) ∧
      ∀ c ∈ before.getLast?, isBlank c := by
  obtain ⟨blanks, htext, hblanks⟩ := exists_eq_trimRight text
  obtain ⟨before, last, htrim, hbefore, hlast⟩ := exists_solid_end (Text.trimRight text)
  rw [htrim] at htext
  have hne : last ≠ [] := by
    rintro rfl
    -- A trimmed text does not end in a blank, so there is nothing before the blanks.
    rw [List.append_nil] at htrim htext
    have hnil : before = [] := by
      rw [← List.getLast?_eq_none_iff, Option.eq_none_iff_forall_not_mem]
      intro c hc
      have hblank := hbefore c hc
      rw [← htrim, Text.trimRight, Text.dropRightWhile_eq_rdropWhile] at hc
      rw [getLast?_rdropWhile _ c hc] at hblank
      cases hblank
    rw [htext, hnil, List.nil_append, words_of_isBlank hblanks] at h
    cases h
  have hwords : Text.words text = Text.words before ++ [last] := by
    rw [htext, words_append_blanks _ hblanks, words_append_word hne hlast hbefore]
  rw [hwords, List.getLast?_concat] at h
  obtain rfl := Option.some.inj h
  exact ⟨before, blanks, htext, hblanks, hbefore⟩

/-- Only the last word of a text matters for the name that it ends in. -/
theorem endsInName_iff_lastWord :
    EndsInName owner text name ↔
      ∃ word ∈ (Text.words text).getLast?, EndsInName owner word name := by
  constructor
  · intro h
    obtain ⟨before, blanks, rfl, hblanks, hbefore⟩ := h.exists_before
    obtain ⟨start, last, rfl, hstart, hlast⟩ := exists_solid_end before
    have hword : ∀ c ∈ last ++ name, isBlank c = false := by
      intro c hc
      rcases List.mem_append.mp hc with hc | hc
      · exact hlast c hc
      · exact not_isBlank_of_isIdentifierChar (h.chars c hc)
    have hne : last ++ name ≠ [] := List.append_ne_nil_of_right_ne_nil last h.name_ne_nil
    refine ⟨last ++ name, ?_, ⟨last, [], by simp, by simp, fun c hc => hbefore c ?_⟩, h.name_ne_nil,
      h.chars, h.start, h.ne_owner, h.not_reserved⟩
    · rw [words_append_blanks _ hblanks, List.append_assoc, words_append_word hne hword hstart]
      exact List.getLast?_concat
    · rw [List.getLast?_append, Option.mem_def.mp hc]
      rfl
  · rintro ⟨word, hlast, h⟩
    obtain ⟨before, blanks, rfl, hblanks, hbefore⟩ := exists_lastWord hlast
    obtain ⟨start, blanks', rfl, hblanks', hstart⟩ := h.exists_before
    refine ⟨⟨before ++ start, blanks' ++ blanks, by simp, ?_, ?_⟩, h.name_ne_nil, h.chars, h.start,
      h.ne_owner, h.not_reserved⟩
    · intro c hc
      exact (List.mem_append.mp hc).elim (hblanks' c) (hblanks c)
    · intro c hc
      rcases mem_getLast?_append hc with hc | hc
      · exact hstart c hc
      · exact not_isIdentifierChar_of_isBlank (hbefore c hc)

theorem endsInName_congr {a b : List Char} (h : Text.words a = Text.words b) :
    EndsInName owner a name ↔ EndsInName owner b name := by
  rw [endsInName_iff_lastWord, h, ← endsInName_iff_lastWord]

/-! ## Type arguments -/

/-- The number of open angle brackets after a character. -/
def anglesAfter (depth : Nat) (c : Char) : Nat :=
  if c = '<' then depth + 1 else if c = '>' then depth - 1 else depth

theorem outsideAngles_cons (depth : Nat) (c : Char) (cs : List Char) :
    outsideAngles depth (c :: cs) =
      (if depth = 0 ∧ c ≠ '<' then [c] else []) ++ outsideAngles (anglesAfter depth c) cs := by
  by_cases hopen : c = '<'
  · simp [outsideAngles, anglesAfter, hopen]
  · cases depth with
    | zero => by_cases hclose : c = '>' <;> simp [outsideAngles, anglesAfter, hopen, hclose]
    | succ depth => by_cases hclose : c = '>' <;> simp [outsideAngles, anglesAfter, hopen, hclose]

theorem outsideAngles_append (depth : Nat) (a b : List Char) :
    outsideAngles depth (a ++ b) =
      outsideAngles depth a ++ outsideAngles (a.foldl anglesAfter depth) b := by
  induction a generalizing depth with
  | nil => rfl
  | cons c a ih =>
    rw [List.cons_append, outsideAngles_cons, outsideAngles_cons, ih, List.append_assoc]
    rfl

theorem outsideAngles_cons_of_isBlank {c : Char} (hc : isBlank c) (depth : Nat) (cs : List Char) :
    outsideAngles depth (c :: cs) =
      (if depth = 0 then [c] else []) ++ outsideAngles depth cs := by
  have hne : c ≠ '<' ∧ c ≠ '>' :=
    forall_isBlank (P := fun c => c ≠ '<' ∧ c ≠ '>') (by decide +kernel) hc
  simp [outsideAngles_cons, anglesAfter, hne]

theorem Padded.outsideAngles {a b : List Char} (h : Padded a b) (depth : Nat) :
    Padded (outsideAngles depth a) (outsideAngles depth b) := by
  induction h generalizing depth with
  | nil => exact .nil
  | char c h ih =>
    rw [outsideAngles_cons, outsideAngles_cons]
    exact (ih _).append_left _
  | blank hc hd h ih =>
    rw [outsideAngles_cons_of_isBlank hc, outsideAngles_cons_of_isBlank hd]
    split
    · exact (ih depth).blank hc hd
    · exact ih depth
  | @extra c a b hc hb h ih =>
    rw [outsideAngles_cons_of_isBlank hc]
    split
    · next hdepth =>
      refine (ih depth).extra hc ?_
      subst hdepth
      cases b with
      | nil => exact atBlank_nil
      | cons d b =>
        have hd : isBlank d := atBlank_cons.mp hb
        rw [outsideAngles_cons_of_isBlank hd]
        exact atBlank_cons.mpr hd
    · exact ih depth

theorem padded_space {blanks a b : List Char} (hne : blanks ≠ [])
    (hblanks : ∀ c ∈ blanks, isBlank c) (h : Padded a b) : Padded (blanks ++ a) (' ' :: b) := by
  have hspace : isBlank ' ' := rfl
  induction blanks with
  | nil => exact absurd rfl hne
  | cons c blanks ih =>
    have hc : isBlank c := hblanks c List.mem_cons_self
    cases blanks with
    | nil => exact h.blank hc hspace
    | cons d blanks =>
      have hrest := ih (List.cons_ne_nil d blanks) fun e he => hblanks e (List.mem_cons_of_mem c he)
      exact hrest.extra hc (atBlank_cons.mpr hspace)

theorem padded_nil {blanks : List Char} (hblanks : ∀ c ∈ blanks, isBlank c) : Padded blanks [] := by
  induction blanks with
  | nil => exact .nil
  | cons c blanks ih =>
    have hrest := ih fun d hd => hblanks d (List.mem_cons_of_mem c hd)
    exact hrest.extra (hblanks c List.mem_cons_self) atBlank_nil

theorem isBlank_of_words_eq_nil {text : List Char} (h : Text.words text = []) :
    ∀ c ∈ text, isBlank c := by
  induction text with
  | nil => simp
  | cons c text ih =>
    have hc : isBlank c := by
      by_contra hc
      exact words_ne_nil (by rwa [atBlank_cons]) h
    rw [words_cons_of_isBlank hc] at h
    exact List.forall_mem_cons.mpr ⟨hc, ih h⟩

theorem trimLeft_of_not_atBlank {text : List Char} (h : ¬ AtBlank text) :
    Text.trimLeft text = text := by
  cases text with
  | nil => rfl
  | cons c text => exact List.dropWhile_cons_of_neg (h ∘ atBlank_cons.mpr)

/-- A text is its words with more blanks between them and at its end. -/
theorem padded_join_words (text : List Char) :
    Padded (Text.trimLeft text) (Text.join ' ' (Text.words text)) := by
  induction text with
  | nil => exact .nil
  | cons c text ih =>
    by_cases hc : isBlank c
    · rw [Text.trimLeft, List.dropWhile_cons_of_pos hc, words_cons_of_isBlank hc]
      exact ih
    · rw [Text.trimLeft, List.dropWhile_cons_of_neg hc]
      by_cases htext : AtBlank text
      · rw [words_cons_of_atBlank hc htext]
        cases hwords : Text.words text with
        | nil => exact (padded_nil (isBlank_of_words_eq_nil hwords)).char c
        | cons word words =>
          rw [hwords] at ih
          have hblanks : text.takeWhile isBlank ≠ [] := by
            cases text with
            | nil => cases hwords
            | cons d text =>
              rw [List.takeWhile_cons_of_pos (atBlank_cons.mp htext)]
              exact List.cons_ne_nil _ _
          have hspace := padded_space hblanks (fun d => List.mem_takeWhile_imp) ih
          rw [Text.trimLeft, List.takeWhile_append_dropWhile] at hspace
          exact hspace.char c
      · obtain ⟨word, words, hwords⟩ := List.exists_cons_of_ne_nil (words_ne_nil htext)
        rw [words_cons_of_not_atBlank hc htext, hwords]
        rw [trimLeft_of_not_atBlank htext, hwords] at ih
        cases words with
        | nil => exact ih.char c
        | cons => exact ih.char c

theorem isHeadChar_of_isBlank {c : Char} (hc : isBlank c) : isHeadChar c :=
  forall_isBlank (P := fun c => isHeadChar c) (by decide +kernel) hc

theorem headOf_cons_of_isBlank {c : Char} (hc : isBlank c) (text : List Char) :
    headOf (c :: text) = c :: headOf text := by
  rw [headOf, withoutTypeArguments, outsideAngles_cons_of_isBlank hc, if_pos rfl,
    List.singleton_append, List.takeWhile_cons_of_pos (isHeadChar_of_isBlank hc)]
  rfl

theorem words_headOf_trimLeft (text : List Char) :
    Text.words (headOf (Text.trimLeft text)) = Text.words (headOf text) := by
  induction text with
  | nil => rfl
  | cons c text ih =>
    rw [Text.trimLeft]
    by_cases hc : isBlank c
    · rw [List.dropWhile_cons_of_pos hc, headOf_cons_of_isBlank hc, words_cons_of_isBlank hc]
      exact ih
    · rw [List.dropWhile_cons_of_neg hc]

theorem words_headOf_clean (segment : List Char) :
    Text.words (headOf (clean segment)) = Text.words (headOf (withoutAnnotations 0 segment)) := by
  have hpadded := (padded_join_words (withoutAnnotations 0 segment)).outsideAngles 0
  have hwords := (hpadded.takeWhile (steady_of_true fun _ => isHeadChar_of_isBlank)).words_eq
  rw [← words_headOf_trimLeft (withoutAnnotations 0 segment)]
  exact hwords.symm

/-- A segment is taken for a member exactly if it names one. -/
theorem memberName?_eq_some_iff {segment : List Char} :
    memberName? owner segment = some name ↔ Names owner segment name := by
  rw [memberName?_eq_some_iff_clean, Names, endsInName_congr (words_headOf_clean segment)]

end Source

end Recheck
