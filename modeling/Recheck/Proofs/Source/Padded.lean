import Mathlib.Data.List.Forall2
import Recheck.Proofs.Content
import Recheck.Source.Scan

/-!
# Reading up to blanks

A stretch of masked source is read word by word, so it does not matter which blanks stand between
two words or how many. `Padded a b` says that `a` is `b` but for the blanks: a blank of `b` may be
another one in `a`, and `a` may have more of them where `b` has one already or is at its end. The
readers of a stretch find the same in both (`Padded.sameReading`), and cutting them at the marks
gives the same number of segments, padded in turn (`Padded.segments`).
-/

namespace Recheck

namespace Source

open Text (isBlank)

/-! ## Blanks -/

/-- The code points of `Text.isBlank`. -/
def blankCodes : List Nat :=
  [0x09, 0x0A, 0x0B, 0x0C, 0x0D, 0x20, 0x85, 0xA0, 0x1680, 0x2000, 0x2001, 0x2002, 0x2003, 0x2004,
    0x2005, 0x2006, 0x2007, 0x2008, 0x2009, 0x200A, 0x2028, 0x2029, 0x202F, 0x205F, 0x3000]

theorem mem_blankCodes {c : Char} (h : isBlank c) : c.toNat ∈ blankCodes := by
  simp only [isBlank, Bool.or_eq_true, Bool.and_eq_true, decide_eq_true_eq, beq_iff_eq] at h
  simp only [blankCodes, List.mem_cons, List.not_mem_nil]
  omega

/-- What holds of the character of each code point of a blank holds of all blanks. -/
theorem forall_isBlank {P : Char → Prop} (h : ∀ n ∈ blankCodes, P (Char.ofNat n)) {c : Char}
    (hc : isBlank c) : P c := by
  have hP := h c.toNat (mem_blankCodes hc)
  rwa [Char.ofNat_toNat] at hP

theorem not_isAnnotationChar_of_isBlank {c : Char} (hc : isBlank c) :
    isAnnotationChar c = false :=
  forall_isBlank (P := fun c => isAnnotationChar c = false) (by decide +kernel) hc

/-- Nothing stands at the head of the text but a blank. -/
def AtBlank (cs : List Char) : Prop := ∀ c ∈ cs.head?, isBlank c

theorem atBlank_nil : AtBlank [] := by simp [AtBlank]

theorem atBlank_cons {c : Char} {cs : List Char} : AtBlank (c :: cs) ↔ isBlank c := by
  simp [AtBlank]

theorem AtBlank.takeWhile {cs : List Char} (h : AtBlank cs) (p : Char → Bool) :
    AtBlank (cs.takeWhile p) := by
  cases cs with
  | nil => exact h
  | cons c cs =>
    by_cases hc : p c
    · simpa [List.takeWhile_cons, hc, atBlank_cons] using h
    · simpa [List.takeWhile_cons, hc] using atBlank_nil

/-- A class of characters that has all blanks or none. -/
def Steady (p : Char → Bool) : Prop := ∀ c d, isBlank c → isBlank d → p c = p d

theorem steady_of_false {p : Char → Bool} (h : ∀ c, isBlank c → p c = false) : Steady p :=
  fun c d hc hd => (h c hc).trans (h d hd).symm

theorem steady_of_true {p : Char → Bool} (h : ∀ c, isBlank c → p c = true) : Steady p :=
  fun c d hc hd => (h c hc).trans (h d hd).symm

/-- All blanks are other characters than one that is no blank. -/
theorem steady_ne {d : Char} (hd : ¬ isBlank d) : Steady fun c => decide (c ≠ d) :=
  steady_of_true fun _ hc => decide_eq_true fun h => hd (h ▸ hc)

/-! ## Words -/

theorem words_cons (c : Char) (cs : List Char) :
    Text.words (c :: cs) =
      if isBlank c then Text.words cs
      else
        match cs with
        | [] => [[c]]
        | d :: _ =>
          if isBlank d then [c] :: Text.words cs
          else
            match Text.words cs with
            | [] => [[c]]
            | w :: ws => (c :: w) :: ws := rfl

theorem words_cons_of_isBlank {c : Char} (hc : isBlank c) (cs : List Char) :
    Text.words (c :: cs) = Text.words cs := by
  rw [words_cons, if_pos hc]

theorem words_cons_of_atBlank {c : Char} {cs : List Char} (hc : ¬ isBlank c) (h : AtBlank cs) :
    Text.words (c :: cs) = [c] :: Text.words cs := by
  rw [words_cons, if_neg hc]
  cases cs with
  | nil => rfl
  | cons d cs => exact if_pos (atBlank_cons.mp h)

theorem words_cons_of_not_atBlank {c : Char} {cs : List Char} (hc : ¬ isBlank c)
    (h : ¬ AtBlank cs) :
    Text.words (c :: cs) = (c :: (Text.words cs).headD []) :: (Text.words cs).tail := by
  rw [words_cons, if_neg hc]
  cases cs with
  | nil => exact absurd atBlank_nil h
  | cons d cs =>
    rw [atBlank_cons] at h
    simp only [if_neg h]
    cases Text.words (d :: cs) <;> rfl

/-! ## Annotations -/

/-- What follows the parenthesized arguments at the head of a text, the text itself if there are
none. -/
def afterArguments (cs : List Char) : List Char :=
  match cs.dropWhile isBlank with
  | '(' :: rest =>
    match rest.dropWhile (· ≠ ')') with
    | _ :: after => after
    | [] => cs
  | _ => cs

theorem afterArguments_of_not_open {cs : List Char}
    (h : ∀ rest, cs.dropWhile isBlank ≠ '(' :: rest) : afterArguments cs = cs := by
  rw [afterArguments]
  split
  · next rest hrest => exact absurd hrest (h rest)
  · rfl

theorem argumentsLength_of_not_open {cs : List Char}
    (h : ∀ rest, cs.dropWhile isBlank ≠ '(' :: rest) : argumentsLength cs = 0 := by
  rw [argumentsLength, Text.drop_length_takeWhile]
  dsimp only
  split
  · next rest hrest => exact absurd hrest (h rest)
  · rfl

theorem drop_argumentsLength (cs : List Char) :
    cs.drop (argumentsLength cs) = afterArguments cs := by
  by_cases hopen : ∃ rest, cs.dropWhile isBlank = '(' :: rest
  · obtain ⟨rest, hrest⟩ := hopen
    have hlength := congrArg List.length
      (List.takeWhile_append_dropWhile (p := fun c => decide (c ≠ ')')) (l := rest))
    rw [List.length_append] at hlength
    simp only [argumentsLength, afterArguments, Text.drop_length_takeWhile, hrest]
    cases hafter : rest.dropWhile fun c => decide (c ≠ ')') with
    | nil =>
      rw [hafter, List.length_nil] at hlength
      rw [if_neg (by omega), List.drop_zero]
    | cons c after =>
      rw [hafter, List.length_cons] at hlength
      rw [if_pos (by omega), Nat.add_assoc, ← List.drop_drop, Text.drop_length_takeWhile, hrest,
        List.drop_succ_cons, ← List.drop_drop, Text.drop_length_takeWhile, hafter,
        List.drop_succ_cons, List.drop_zero]
  · rw [not_exists] at hopen
    rw [argumentsLength_of_not_open hopen, afterArguments_of_not_open hopen, List.drop_zero]

theorem annotationLength_eq_zero_iff (cs : List Char) :
    annotationLength cs = 0 ↔ cs.takeWhile isAnnotationChar = [] := by
  rw [annotationLength, ← List.length_eq_zero_iff]
  split <;> omega

theorem drop_annotationLength {cs : List Char} (h : cs.takeWhile isAnnotationChar ≠ []) :
    cs.drop (annotationLength cs) = afterArguments (cs.dropWhile isAnnotationChar) := by
  rw [annotationLength, if_neg (by simpa using h), ← List.drop_drop, Text.drop_length_takeWhile,
    drop_argumentsLength]

theorem withoutAnnotations_eq_drop (skip : Nat) (cs : List Char) :
    withoutAnnotations skip cs = withoutAnnotations 0 (cs.drop skip) := by
  induction skip generalizing cs with
  | zero => rfl
  | succ skip ih =>
    cases cs with
    | nil => rfl
    | cons c cs => exact ih cs

theorem withoutAnnotations_cons (c : Char) (cs : List Char) :
    withoutAnnotations 0 (c :: cs) =
      if c = '@' ∧ annotationLength cs ≠ 0 then
        ' ' :: withoutAnnotations 0 (cs.drop (annotationLength cs))
      else c :: withoutAnnotations 0 cs := by
  rw [withoutAnnotations, withoutAnnotations_eq_drop]
  by_cases hc : c = '@'
  · by_cases hlength : annotationLength cs = 0 <;> simp [hc, hlength]
  · simp [hc]

theorem withoutAnnotations_cons_of_isBlank {c : Char} (hc : isBlank c) (cs : List Char) :
    withoutAnnotations 0 (c :: cs) = c :: withoutAnnotations 0 cs := by
  rw [withoutAnnotations_cons, if_neg]
  rintro ⟨rfl, -⟩
  exact absurd hc (by decide)

theorem AtBlank.withoutAnnotations {cs : List Char} (h : AtBlank cs) :
    AtBlank (withoutAnnotations 0 cs) := by
  cases cs with
  | nil => exact h
  | cons c cs =>
    rw [atBlank_cons] at h
    rwa [withoutAnnotations_cons_of_isBlank h, atBlank_cons]

/-! ## Pieces -/

theorem splitOn_cons_of_ne {sep c : Char} (hc : c ≠ sep) {cs piece : List Char}
    {pieces : List (List Char)} (h : Text.splitOn sep cs = piece :: pieces) :
    Text.splitOn sep (c :: cs) = (c :: piece) :: pieces := by
  simp only [Text.splitOn, if_neg hc, h]

theorem atBlank_of_splitOn {sep : Char} (hsep : ¬ isBlank sep) {cs piece : List Char}
    {pieces : List (List Char)} (hcs : AtBlank cs) (h : Text.splitOn sep cs = piece :: pieces) :
    AtBlank piece := by
  cases cs with
  | nil =>
    obtain ⟨rfl, -⟩ := List.cons.inj h
    exact atBlank_nil
  | cons c cs =>
    have hc : c ≠ sep := by
      rintro rfl
      exact hsep (atBlank_cons.mp hcs)
    obtain ⟨first, rest, hfirst⟩ := List.exists_cons_of_ne_nil (Text.splitOn_ne_nil sep cs)
    rw [splitOn_cons_of_ne hc hfirst] at h
    obtain ⟨rfl, -⟩ := List.cons.inj h
    exact hcs

theorem exists_pieces {R : List Char → List Char → Prop} {sep : Char} {a b : List Char}
    (h : List.Forall₂ R (Text.splitOn sep a) (Text.splitOn sep b)) :
    ∃ p ps q qs, R p q ∧ List.Forall₂ R ps qs ∧
      Text.splitOn sep a = p :: ps ∧ Text.splitOn sep b = q :: qs := by
  obtain ⟨p, ps, hp⟩ := List.exists_cons_of_ne_nil (Text.splitOn_ne_nil sep a)
  obtain ⟨q, qs, hq⟩ := List.exists_cons_of_ne_nil (Text.splitOn_ne_nil sep b)
  rw [hp, hq, List.forall₂_cons] at h
  exact ⟨p, ps, q, qs, h.1, h.2, hp, hq⟩

theorem filterMap_eq_of_forall₂ {α β : Type} {R : α → α → Prop} {f : α → Option β}
    (hf : ∀ x y, R x y → f x = f y) {xs ys : List α} (h : List.Forall₂ R xs ys) :
    xs.filterMap f = ys.filterMap f := by
  induction h with
  | nil => rfl
  | cons hxy _ ih => rw [List.filterMap_cons, List.filterMap_cons, hf _ _ hxy, ih]

/-! ## Padding -/

/-- `a` is `b` with other blanks, and more of them beside the blanks of `b` and at its end. -/
inductive Padded : List Char → List Char → Prop
  | nil : Padded [] []
  | char (c : Char) {a b : List Char} : Padded a b → Padded (c :: a) (c :: b)
  | blank {c d : Char} {a b : List Char} : isBlank c → isBlank d → Padded a b →
      Padded (c :: a) (d :: b)
  | extra {c : Char} {a b : List Char} : isBlank c → AtBlank b → Padded a b → Padded (c :: a) b

namespace Padded

variable {a b : List Char} {c : Char}

theorem refl (cs : List Char) : Padded cs cs := by
  induction cs with
  | nil => exact .nil
  | cons c cs ih => exact .char c ih

theorem append_left (cs : List Char) (h : Padded a b) : Padded (cs ++ a) (cs ++ b) := by
  induction cs with
  | nil => exact h
  | cons c cs ih => exact .char c ih

theorem atBlank_iff (h : Padded a b) : AtBlank a ↔ AtBlank b := by
  cases h with
  | nil => rfl
  | char c h => rw [atBlank_cons, atBlank_cons]
  | blank hc hd h => simp [atBlank_cons, hc, hd]
  | extra hc hb h => simp [atBlank_cons, hc, hb]

/-- A text that starts with no blank has the same head as the padded one. -/
theorem exists_cons_right (hc : ¬ isBlank c) (h : Padded (c :: a) b) :
    ∃ b', b = c :: b' ∧ Padded a b' := by
  cases h with
  | char _ h => exact ⟨_, rfl, h⟩
  | blank hc' => exact absurd hc' hc
  | extra hc' => exact absurd hc' hc

theorem exists_cons_left (hc : ¬ isBlank c) (h : Padded a (c :: b)) :
    ∃ a', a = c :: a' ∧ Padded a' b := by
  cases h with
  | char _ h => exact ⟨_, rfl, h⟩
  | blank _ hc' => exact absurd hc' hc
  | extra _ hb => exact absurd (atBlank_cons.mp hb) hc

theorem takeWhile {p : Char → Bool} (hp : Steady p) (h : Padded a b) :
    Padded (a.takeWhile p) (b.takeWhile p) := by
  induction h with
  | nil => exact .nil
  | char c h ih =>
    by_cases hc : p c
    · simpa [List.takeWhile_cons, hc] using ih.char c
    · simpa [List.takeWhile_cons, hc] using nil
  | @blank c d a b hc hd h ih =>
    have hpd : p c = p d := hp c d hc hd
    by_cases hpc : p c
    · simpa [List.takeWhile_cons, hpc, ← hpd] using ih.blank hc hd
    · simpa [List.takeWhile_cons, hpc, ← hpd] using nil
  | @extra c a b hc hb h ih =>
    by_cases hpc : p c
    · simpa [List.takeWhile_cons, hpc] using ih.extra hc (hb.takeWhile p)
    · cases b with
      | nil => simpa [List.takeWhile_cons, hpc] using nil
      | cons d b =>
        have hpd : p c = p d := hp c d hc (atBlank_cons.mp hb)
        simpa [List.takeWhile_cons, hpc, ← hpd] using nil

theorem dropWhile {p : Char → Bool} (hp : Steady p) (h : Padded a b) :
    Padded (a.dropWhile p) (b.dropWhile p) := by
  induction h with
  | nil => exact .nil
  | char c h ih =>
    by_cases hc : p c
    · simpa [List.dropWhile_cons, hc] using ih
    · simpa [List.dropWhile_cons, hc] using h.char c
  | @blank c d a b hc hd h ih =>
    have hpd : p c = p d := hp c d hc hd
    by_cases hpc : p c
    · simpa [List.dropWhile_cons, hpc, ← hpd] using ih
    · simpa [List.dropWhile_cons, hpc, ← hpd] using h.blank hc hd
  | @extra c a b hc hb h ih =>
    by_cases hpc : p c
    · simpa [List.dropWhile_cons, hpc] using ih
    · cases b with
      | nil => simpa [List.dropWhile_cons, hpc] using h.extra hc hb
      | cons d b =>
        have hpd : p c = p d := hp c d hc (atBlank_cons.mp hb)
        simpa [List.dropWhile_cons, hpc, ← hpd] using h.extra hc hb

/-- A class without blanks is found at the head of both texts or of neither. -/
theorem takeWhile_eq_nil_iff {p : Char → Bool} (hp : ∀ c, isBlank c → p c = false)
    (h : Padded a b) : a.takeWhile p = [] ↔ b.takeWhile p = [] := by
  cases h with
  | nil => rfl
  | char c h => by_cases hc : p c <;> simp [hc]
  | blank hc hd h => simp [hp _ hc, hp _ hd]
  | @extra c a b hc hb h =>
    cases b with
    | nil => simp [hp _ hc]
    | cons d b => simp [hp _ hc, hp _ (atBlank_cons.mp hb)]

/-! ## The readers -/

theorem words_eq (h : Padded a b) : Text.words a = Text.words b := by
  induction h with
  | nil => rfl
  | @char c a b h ih =>
    by_cases hc : isBlank c
    · rw [words_cons_of_isBlank hc, words_cons_of_isBlank hc, ih]
    · by_cases hb : AtBlank b
      · rw [words_cons_of_atBlank hc (h.atBlank_iff.mpr hb), words_cons_of_atBlank hc hb, ih]
      · rw [words_cons_of_not_atBlank hc (hb ∘ h.atBlank_iff.mp),
          words_cons_of_not_atBlank hc hb, ih]
  | blank hc hd h ih => rw [words_cons_of_isBlank hc, words_cons_of_isBlank hd, ih]
  | extra hc hb h ih => rw [words_cons_of_isBlank hc, ih]

theorem afterArguments (h : Padded a b) :
    Padded (Source.afterArguments a) (Source.afterArguments b) := by
  have hblanks := h.dropWhile (steady_of_true fun c hc => hc)
  by_cases hopen : ∃ rest, a.dropWhile isBlank = '(' :: rest
  · obtain ⟨rest, hrest⟩ := hopen
    rw [hrest] at hblanks
    obtain ⟨rest', hrest', hinner⟩ := hblanks.exists_cons_right (by decide)
    have hclose := hinner.dropWhile (steady_ne (d := ')') (by decide))
    simp only [Source.afterArguments, hrest, hrest']
    cases hafter : rest.dropWhile fun c => decide (c ≠ ')') with
    | nil =>
      rw [hafter] at hclose
      generalize (rest'.dropWhile fun c => decide (c ≠ ')')) = after' at hclose ⊢
      cases hclose
      exact h
    | cons c after =>
      have hc := List.head?_dropWhile_not (fun c => decide (c ≠ ')')) rest
      rw [hafter] at hc hclose
      obtain rfl : c = ')' := by simpa using hc
      obtain ⟨after', hafter', htail⟩ := hclose.exists_cons_right (by decide)
      simpa only [hafter'] using htail
  · rw [not_exists] at hopen
    have hopen' : ∀ rest, b.dropWhile isBlank ≠ '(' :: rest := by
      intro rest' hrest'
      rw [hrest'] at hblanks
      obtain ⟨rest, hrest, -⟩ := hblanks.exists_cons_left (by decide)
      exact hopen rest hrest
    rw [afterArguments_of_not_open hopen, afterArguments_of_not_open hopen']
    exact h

/-- An annotation stands at the head of both texts or of neither, and what follows it is padded. -/
theorem annotation (h : Padded a b) :
    (annotationLength a = 0 ↔ annotationLength b = 0) ∧
      Padded (a.drop (annotationLength a)) (b.drop (annotationLength b)) := by
  have hname := h.takeWhile_eq_nil_iff fun c => not_isAnnotationChar_of_isBlank
  rw [annotationLength_eq_zero_iff, annotationLength_eq_zero_iff]
  refine ⟨hname, ?_⟩
  by_cases hb : b.takeWhile isAnnotationChar = []
  · rw [(annotationLength_eq_zero_iff a).mpr (hname.mpr hb),
      (annotationLength_eq_zero_iff b).mpr hb]
    exact h
  · have hrest := h.dropWhile (steady_of_false fun c => not_isAnnotationChar_of_isBlank)
    rw [drop_annotationLength (hb ∘ hname.mp), drop_annotationLength hb]
    exact hrest.afterArguments

theorem withoutAnnotations (h : Padded a b) :
    Padded (withoutAnnotations 0 a) (withoutAnnotations 0 b) := by
  -- An annotation is passed as a whole, so the induction is on the length.
  induction hn : a.length using Nat.strongRecOn generalizing a b with
  | ind n ih =>
    cases h with
    | nil => exact .nil
    | @char c a b h =>
      rw [withoutAnnotations_cons, withoutAnnotations_cons]
      obtain ⟨hzero, hdrop⟩ := h.annotation
      by_cases hc : c = '@' ∧ annotationLength a ≠ 0
      · rw [if_pos hc, if_pos (hzero.not.mp hc.2 |> And.intro hc.1)]
        refine (ih _ ?_ hdrop rfl).char ' '
        rw [← hn, List.length_drop, List.length_cons]
        omega
      · rw [if_neg hc, if_neg fun hc' => hc ⟨hc'.1, hzero.not.mpr hc'.2⟩]
        exact (ih a.length (by simp [← hn]) h rfl).char c
    | @blank c d a b hc hd h =>
      rw [withoutAnnotations_cons_of_isBlank hc, withoutAnnotations_cons_of_isBlank hd]
      exact (ih a.length (by simp [← hn]) h rfl).blank hc hd
    | @extra c a b hc hb h =>
      rw [withoutAnnotations_cons_of_isBlank hc]
      exact (ih a.length (by simp [← hn]) h rfl).extra hc hb.withoutAnnotations

theorem wordsOf_eq (h : Padded a b) : wordsOf a = wordsOf b := h.withoutAnnotations.words_eq

theorem splitOn {sep : Char} (hsep : ¬ isBlank sep) (h : Padded a b) :
    List.Forall₂ Padded (Text.splitOn sep a) (Text.splitOn sep b) := by
  have hne : ∀ {c}, isBlank c → c ≠ sep := fun hc heq => hsep (heq ▸ hc)
  induction h with
  | nil => exact .cons .nil .nil
  | @char c a b h ih =>
    by_cases hc : c = sep
    · simpa only [Text.splitOn, if_pos hc] using ih.cons nil
    · obtain ⟨p, ps, q, qs, hpq, hrest, ha, hb⟩ := exists_pieces ih
      rw [splitOn_cons_of_ne hc ha, splitOn_cons_of_ne hc hb]
      exact .cons (hpq.char c) hrest
  | @blank c d a b hc hd h ih =>
    obtain ⟨p, ps, q, qs, hpq, hrest, ha, hb⟩ := exists_pieces ih
    rw [splitOn_cons_of_ne (hne hc) ha, splitOn_cons_of_ne (hne hd) hb]
    exact .cons (hpq.blank hc hd) hrest
  | @extra c a b hc hb h ih =>
    obtain ⟨p, ps, q, qs, hpq, hrest, ha, hb'⟩ := exists_pieces ih
    rw [splitOn_cons_of_ne (hne hc) ha, hb']
    exact .cons (hpq.extra hc (atBlank_of_splitOn hsep hb hb')) hrest

theorem constants_eq (h : Padded a b) : constants a = constants b := by
  have hcomma : ¬ isBlank ',' := by decide
  have hparen : ¬ isBlank '(' := by decide
  refine filterMap_eq_of_forall₂ (fun p q hpq => ?_) (h.splitOn hcomma)
  rw [clean, clean, (hpq.takeWhile (steady_ne hparen)).wordsOf_eq]

end Padded

/-! ## Segments -/

/-- What is read of two stretches of source is the same. -/
structure SameReading (a b : List Char) : Prop where
  words : wordsOf a = wordsOf b
  constants : constants a = constants b

theorem Padded.sameReading {a b : List Char} (h : Padded a b) : SameReading a b :=
  ⟨h.wordsOf_eq, h.constants_eq⟩

theorem wordsOf_cons_of_isBlank {c : Char} (hc : isBlank c) (cs : List Char) :
    wordsOf (c :: cs) = wordsOf cs := by
  rw [wordsOf, withoutAnnotations_cons_of_isBlank hc, words_cons_of_isBlank hc, wordsOf]

theorem sameReading_cons {c : Char} (hc : isBlank c) (cs : List Char) :
    SameReading (c :: cs) cs := by
  refine ⟨wordsOf_cons_of_isBlank hc cs, ?_⟩
  have hcomma : c ≠ ',' := by
    rintro rfl
    exact absurd hc (by decide)
  have hparen : c ≠ '(' := by
    rintro rfl
    exact absurd hc (by decide)
  obtain ⟨piece, pieces, hpieces⟩ := List.exists_cons_of_ne_nil (Text.splitOn_ne_nil ',' cs)
  rw [Source.constants, Source.constants, splitOn_cons_of_ne hcomma hpieces, hpieces,
    List.filterMap_cons, List.filterMap_cons, List.takeWhile_cons_of_pos (by simpa using hparen),
    clean, wordsOf_cons_of_isBlank hc, ← clean]

/-- The marked segments of a text and the text after the last mark. -/
abbrev Cuts := List (List Char × Mark) × List Char

/-- The stretch before the first mark. -/
def Cuts.first : Cuts → List Char
  | ((segment, _) :: _, _) => segment
  | ([], tail) => tail

/-- The character put before the first mark. -/
def Cuts.prepend (c : Char) : Cuts → Cuts
  | ((segment, mark) :: rest, tail) => ((c :: segment, mark) :: rest, tail)
  | ([], tail) => ([], c :: tail)

theorem segments_cons_of_mark {c : Char} {mark : Mark} (hc : Mark.ofChar? c = some mark)
    (cs : List Char) :
    segments (c :: cs) = (([], mark) :: (segments cs).1, (segments cs).2) := by
  rw [segments, hc]

theorem segments_cons_of_none {c : Char} (hc : Mark.ofChar? c = none) (cs : List Char) :
    segments (c :: cs) = Cuts.prepend c (segments cs) := by
  rw [segments, hc]
  rcases segments cs with ⟨⟨_, _⟩ | _, _⟩ <;> rfl

/-- The marks are no blanks. -/
theorem ofChar?_of_isBlank {c : Char} (hc : isBlank c) : Mark.ofChar? c = none :=
  forall_isBlank (P := fun c => Mark.ofChar? c = none) (by decide) hc

theorem AtBlank.first_segments {cs : List Char} (h : AtBlank cs) :
    AtBlank (Cuts.first (segments cs)) := by
  cases cs with
  | nil => exact h
  | cons c cs =>
    rw [segments_cons_of_none (ofChar?_of_isBlank (atBlank_cons.mp h))]
    rcases segments cs with ⟨⟨_, _⟩ | _, _⟩ <;> exact h

/-- The same marks, and padded stretches between them. -/
structure Cuts.Padded (x y : Cuts) : Prop where
  segments : List.Forall₂ (fun p q => Source.Padded p.1 q.1 ∧ p.2 = q.2) x.1 y.1
  tail : Source.Padded x.2 y.2

theorem Cuts.Padded.prepend {x y : Cuts} {c d : Char} (h : Cuts.Padded x y)
    (hstep : ∀ {a b}, Source.Padded a b → Source.Padded (c :: a) (d :: b)) :
    Cuts.Padded (Cuts.prepend c x) (Cuts.prepend d y) := by
  obtain ⟨xs, t⟩ := x
  obtain ⟨ys, u⟩ := y
  obtain ⟨hsegments, htail⟩ := h
  cases hsegments with
  | nil => exact ⟨.nil, hstep htail⟩
  | cons hfirst hrest => exact ⟨.cons ⟨hstep hfirst.1, hfirst.2⟩ hrest, htail⟩

theorem Cuts.Padded.extra {x y : Cuts} {c : Char} (h : Cuts.Padded x y) (hc : isBlank c)
    (hy : AtBlank (Cuts.first y)) : Cuts.Padded (Cuts.prepend c x) y := by
  obtain ⟨xs, t⟩ := x
  obtain ⟨ys, u⟩ := y
  obtain ⟨hsegments, htail⟩ := h
  cases hsegments with
  | nil => exact ⟨.nil, htail.extra hc hy⟩
  | cons hfirst hrest => exact ⟨.cons ⟨hfirst.1.extra hc hy, hfirst.2⟩ hrest, htail⟩

theorem Padded.segments {a b : List Char} (h : Padded a b) :
    Cuts.Padded (segments a) (segments b) := by
  induction h with
  | nil => exact ⟨.nil, .nil⟩
  | @char c a b h ih =>
    cases hc : Mark.ofChar? c with
    | none =>
      rw [segments_cons_of_none hc, segments_cons_of_none hc]
      exact ih.prepend (.char c)
    | some mark =>
      rw [segments_cons_of_mark hc, segments_cons_of_mark hc]
      exact ⟨.cons ⟨.nil, rfl⟩ ih.segments, ih.tail⟩
  | blank hc hd h ih =>
    rw [segments_cons_of_none (ofChar?_of_isBlank hc),
      segments_cons_of_none (ofChar?_of_isBlank hd)]
    exact ih.prepend (.blank hc hd)
  | extra hc hb h ih =>
    rw [segments_cons_of_none (ofChar?_of_isBlank hc)]
    exact ih.extra hc hb.first_segments

/-- Two texts are cut at the same marks into segments of which the same is read. -/
def CutAlike (a b : List Char) : Prop :=
  List.Forall₂ (fun p q => SameReading p.1 q.1 ∧ p.2 = q.2) (segments a).1 (segments b).1

theorem Padded.cutAlike {a b : List Char} (h : Padded a b) : CutAlike a b :=
  h.segments.segments.imp fun _ _ hpq => ⟨hpq.1.sameReading, hpq.2⟩

/-- A blank at the start changes nothing of what is read. -/
theorem cutAlike_cons {c : Char} (hc : isBlank c) (cs : List Char) : CutAlike (c :: cs) cs := by
  rw [CutAlike, segments_cons_of_none (ofChar?_of_isBlank hc)]
  rcases segments cs with ⟨_ | ⟨⟨segment, mark⟩, rest⟩, tail⟩
  · exact .nil
  · exact .cons ⟨sameReading_cons hc segment, rfl⟩
      (List.forall₂_same.mpr fun piece _ => ⟨⟨rfl, rfl⟩, rfl⟩)

end Source

end Recheck
