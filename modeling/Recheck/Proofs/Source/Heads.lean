import Recheck.Proofs.Source.MemberNames

/-!
# Reading heads

What is read of a text that starts with annotations and goes on with a text without parentheses and
equals signs: of the annotations only blanks are left, and the text is left without its type
arguments (`exists_headOf`).
-/

namespace Recheck

namespace Source

open Text (isBlank)

/-! ## Texts within a head -/

variable {a b : List Char}

theorem withoutAnnotations_append (ha : '@' ∉ a) (b : List Char) :
    withoutAnnotations 0 (a ++ b) = a ++ withoutAnnotations 0 b := by
  induction a with
  | nil => rfl
  | cons c a ih =>
    rw [List.mem_cons, not_or] at ha
    rw [List.cons_append, withoutAnnotations_cons, if_neg fun h => ha.1 h.1.symm, ih ha.2]
    rfl

theorem withoutAnnotations_of_not_mem (ha : '@' ∉ a) : withoutAnnotations 0 a = a := by
  have happend := withoutAnnotations_append ha []
  rwa [List.append_nil, withoutAnnotations, List.append_nil] at happend

theorem withoutAnnotations_parenthesis (rest : List Char) :
    withoutAnnotations 0 ('(' :: rest) = '(' :: withoutAnnotations 0 rest :=
  withoutAnnotations_append (a := ['(']) (by decide) rest

theorem withoutTypeArguments_of_not_mem (ha : '<' ∉ a) :
    withoutTypeArguments a = a ∧ a.foldl anglesAfter 0 = 0 := by
  induction a with
  | nil => exact ⟨rfl, rfl⟩
  | cons c a ih =>
    rw [List.mem_cons, not_or] at ha
    have hc : c ≠ '<' := fun h => ha.1 h.symm
    have hafter : anglesAfter 0 c = 0 := by simp [anglesAfter, hc]
    obtain ⟨htext, hdepth⟩ := ih ha.2
    rw [withoutTypeArguments, outsideAngles_cons, if_pos ⟨rfl, hc⟩, hafter, List.foldl_cons, hafter]
    exact ⟨congrArg (c :: ·) htext, hdepth⟩

/-- What a class excludes ends the stretch of the class. -/
theorem takeWhile_append_cons {α : Type} {p : α → Bool} {x : α} (hx : p x = false)
    (xs ys : List α) : (xs ++ x :: ys).takeWhile p = xs.takeWhile p := by
  induction xs with
  | nil => simp [hx]
  | cons y xs ih =>
    by_cases hy : p y
    · simp [hy, ih]
    · simp [hy]

/-- A text with closed angle brackets and no end of a head outside them is part of the head. -/
theorem headOf_append (hclosed : a.foldl anglesAfter 0 = 0)
    (ha : ∀ c ∈ withoutTypeArguments a, isHeadChar c) (b : List Char) :
    headOf (a ++ b) = withoutTypeArguments a ++ headOf b := by
  rw [headOf, withoutTypeArguments, outsideAngles_append, hclosed]
  exact List.takeWhile_append_of_pos ha

/-- The text can stand in a head: it has no annotations, its angle brackets are closed, and outside
them there are no parentheses and equals signs. -/
structure InHead (text : List Char) : Prop where
  plain : '@' ∉ text
  closed : text.foldl anglesAfter 0 = 0
  head : ∀ c ∈ withoutTypeArguments text, isHeadChar c

theorem withoutTypeArguments_append (ha : InHead a) (b : List Char) :
    withoutTypeArguments (a ++ b) = withoutTypeArguments a ++ withoutTypeArguments b := by
  rw [withoutTypeArguments, outsideAngles_append, ha.closed]
  rfl

theorem InHead.append (ha : InHead a) (hb : InHead b) : InHead (a ++ b) where
  plain := by simp [ha.plain, hb.plain]
  closed := by rw [List.foldl_append, ha.closed, hb.closed]
  head := by
    intro c hc
    rw [withoutTypeArguments_append ha, List.mem_append] at hc
    exact hc.elim (ha.head c) (hb.head c)

/-- Characters that neither start an annotation or type arguments nor end a head. -/
def isPlainChar (c : Char) : Bool := isHeadChar c && c != '@' && c != '<'

theorem isPlainChar_of_isBlank {c : Char} (hc : isBlank c) : isPlainChar c :=
  forall_isBlank (P := fun c => isPlainChar c) (by decide +kernel) hc

theorem isPlainChar_of_isIdentifierChar {c : Char} (hc : isIdentifierChar c) : isPlainChar c := by
  have hne : ∀ d : Char, isIdentifierChar d = false → c ≠ d := by
    rintro d hd rfl
    rw [hd] at hc
    cases hc
  simp [isPlainChar, isHeadChar, hne '(' rfl, hne '=' rfl, hne '@' rfl, hne '<' rfl]

theorem inHead_of_plain (ha : ∀ c ∈ a, isPlainChar c) :
    InHead a ∧ withoutTypeArguments a = a := by
  have hnot : ∀ d : Char, isPlainChar d = false → d ∉ a := by
    intro d hd hmem
    have hplain := ha d hmem
    rw [hd] at hplain
    cases hplain
  obtain ⟨htext, hclosed⟩ := withoutTypeArguments_of_not_mem (hnot '<' rfl)
  refine ⟨⟨hnot '@' rfl, hclosed, fun c hc => ?_⟩, htext⟩
  rw [htext] at hc
  have hplain := ha c hc
  simp only [isPlainChar, Bool.and_eq_true] at hplain
  exact hplain.1.1

theorem withoutAnnotations_blanks {blanks : List Char} (hblanks : ∀ c ∈ blanks, isBlank c)
    (b : List Char) : withoutAnnotations 0 (blanks ++ b) = blanks ++ withoutAnnotations 0 b :=
  withoutAnnotations_append (fun h => absurd (hblanks _ h) (by decide)) b

theorem wordsOf_of_isBlank {blanks : List Char} (h : ∀ c ∈ blanks, isBlank c) :
    wordsOf blanks = [] := by
  have hplain : '@' ∉ blanks := fun hmem => absurd (h _ hmem) (by decide)
  rw [wordsOf, withoutAnnotations_of_not_mem hplain, words_of_isBlank h]

theorem headOf_blanks {blanks : List Char} (hblanks : ∀ c ∈ blanks, isBlank c) (b : List Char) :
    headOf (blanks ++ b) = blanks ++ headOf b := by
  obtain ⟨hin, hself⟩ := inHead_of_plain fun c hc => isPlainChar_of_isBlank (hblanks c hc)
  rw [headOf_append hin.closed hin.head, hself]

theorem headOf_parenthesis (rest : List Char) :
    headOf (withoutAnnotations 0 ('(' :: rest)) = [] := by
  rw [withoutAnnotations_parenthesis]
  rfl

/-! ## Annotations -/

theorem dropWhile_append_stop {α : Type} {p : α → Bool} {xs ys : List α} (hxs : ∀ x ∈ xs, p x)
    (hys : ∀ y ∈ ys.head?, p y = false) : (xs ++ ys).dropWhile p = ys := by
  rw [List.dropWhile_append_of_pos hxs]
  cases ys with
  | nil => rfl
  | cons y ys => exact List.dropWhile_cons_of_neg (by simp [hys y rfl])

theorem takeWhile_append_stop {α : Type} {p : α → Bool} {xs ys : List α} (hxs : ∀ x ∈ xs, p x)
    (hys : ∀ y ∈ ys.head?, p y = false) : (xs ++ ys).takeWhile p = xs := by
  rw [List.takeWhile_append_of_pos hxs]
  cases ys with
  | nil => exact List.append_nil xs
  | cons y ys => rw [List.takeWhile_cons_of_neg (by simp [hys y rfl]), List.append_nil]

/-- Nothing, or arguments of an annotation. They end with the first closing parenthesis. -/
inductive Arguments : List Char → Prop where
  | none : Arguments []
  | some {blanks inner : List Char} (hblanks : ∀ c ∈ blanks, isBlank c) (hinner : ')' ∉ inner) :
    Arguments (blanks ++ '(' :: (inner ++ [')']))

/-- Blanks and annotations, with something behind each annotation. -/
inductive Lead : List Char → Prop where
  | nil : Lead []
  | blank {c : Char} {rest : List Char} (hc : isBlank c) (hrest : Lead rest) : Lead (c :: rest)
  | metadata {name arguments rest : List Char} (hne : name ≠ [])
    (hname : ∀ c ∈ name, isAnnotationChar c) (harguments : Arguments arguments)
    (hapart : rest ≠ []) (hrest : Lead rest) : Lead ('@' :: (name ++ (arguments ++ rest)))

/-- The text does not go on with arguments. -/
def NoArguments (text : List Char) : Prop := ∀ rest, text.dropWhile isBlank ≠ '(' :: rest

theorem Lead.noArguments {lead text : List Char} (h : Lead lead) (htext : NoArguments text) :
    NoArguments (lead ++ text) := by
  induction h with
  | nil => exact htext
  | blank hc _ ih =>
    intro rest
    rw [List.cons_append, List.dropWhile_cons_of_pos hc]
    exact ih rest
  | metadata =>
    intro rest h
    rw [List.cons_append, List.dropWhile_cons_of_neg (by decide)] at h
    cases h

/-- The name of an annotation ends where arguments or a further lead start. -/
theorem Arguments.stops {arguments rest : List Char} (h : Arguments arguments) (hrest : Lead rest)
    (hne : rest ≠ []) (text : List Char) :
    ∀ c ∈ (arguments ++ (rest ++ text)).head?, isAnnotationChar c = false := by
  intro c hc
  cases h with
  | none =>
    cases hrest with
    | nil => exact absurd rfl hne
    | blank hblank =>
      obtain rfl := Option.some.inj hc
      exact not_isAnnotationChar_of_isBlank hblank
    | metadata =>
      obtain rfl := Option.some.inj hc
      decide
  | @some blanks inner hblanks =>
    cases blanks with
    | nil =>
      obtain rfl := Option.some.inj hc
      decide
    | cons d blanks =>
      obtain rfl := Option.some.inj hc
      exact not_isAnnotationChar_of_isBlank (hblanks d List.mem_cons_self)

theorem Arguments.afterArguments_append {arguments text : List Char} (h : Arguments arguments)
    (htext : NoArguments text) : afterArguments (arguments ++ text) = text := by
  cases h with
  | none => exact afterArguments_of_not_open htext
  | @some blanks inner hblanks hinner =>
    have hopen : (blanks ++ '(' :: (inner ++ [')']) ++ text).dropWhile isBlank =
        '(' :: (inner ++ ')' :: text) := by
      rw [List.append_assoc, dropWhile_append_stop hblanks]
      · simp
      · rintro c ⟨⟩
        rfl
    have hclose : (inner ++ ')' :: text).dropWhile (fun c => decide (c ≠ ')')) = ')' :: text := by
      refine dropWhile_append_stop (fun c hc => ?_) ?_
      · simpa using fun h : c = ')' => hinner (h ▸ hc)
      · rintro c ⟨⟩
        rfl
    simp only [afterArguments, hopen, hclose]

/-- A lead leaves blanks. -/
theorem Lead.exists_blanks {lead text : List Char} (h : Lead lead) (htext : NoArguments text) :
    ∃ blanks, (∀ c ∈ blanks, isBlank c) ∧
      withoutAnnotations 0 (lead ++ text) = blanks ++ withoutAnnotations 0 text := by
  induction h with
  | nil => exact ⟨[], by simp, rfl⟩
  | @blank c rest hc _ ih =>
    obtain ⟨blanks, hblanks, heq⟩ := ih
    refine ⟨c :: blanks, List.forall_mem_cons.mpr ⟨hc, hblanks⟩, ?_⟩
    rw [List.cons_append, withoutAnnotations_cons_of_isBlank hc, heq]
    rfl
  | @metadata name arguments rest hne hname harguments hapart hrest ih =>
    obtain ⟨blanks, hblanks, heq⟩ := ih
    refine ⟨' ' :: blanks, List.forall_mem_cons.mpr ⟨rfl, hblanks⟩, ?_⟩
    have hfound : (name ++ (arguments ++ (rest ++ text))).takeWhile isAnnotationChar ≠ [] := by
      rw [List.takeWhile_append_of_pos hname]
      exact List.append_ne_nil_of_left_ne_nil hne _
    have hdrop := drop_annotationLength hfound
    rw [dropWhile_append_stop hname (harguments.stops hrest hapart text),
      harguments.afterArguments_append (hrest.noArguments htext)] at hdrop
    have hlength := mt (annotationLength_eq_zero_iff _).mp hfound
    rw [List.cons_append, List.append_assoc, List.append_assoc, withoutAnnotations_cons,
      if_pos ⟨rfl, hlength⟩, hdrop, heq]
    rfl

theorem noArguments_append (ha : '(' ∉ withoutTypeArguments a)
    (hsolid : ∃ c ∈ a, isBlank c = false) (b : List Char) : NoArguments (a ++ b) := by
  intro rest
  induction a with
  | nil =>
    obtain ⟨c, hc, -⟩ := hsolid
    cases hc
  | cons c a ih =>
    rw [List.cons_append]
    by_cases hc : isBlank c
    · rw [withoutTypeArguments, outsideAngles_cons_of_isBlank hc, if_pos rfl, List.mem_append,
        not_or] at ha
      rw [List.dropWhile_cons_of_pos hc]
      refine ih ha.2 ?_
      simpa [hc] using hsolid
    · rw [List.dropWhile_cons_of_neg hc]
      rintro ⟨⟩
      exact ha List.mem_cons_self

/-- The head of a segment that starts with a lead and a text that can stand in a head. -/
theorem exists_headOf (ha : InHead a) (hsolid : ∃ c ∈ a, isBlank c = false) {lead : List Char}
    (hlead : Lead lead) (b : List Char) :
    ∃ blanks, (∀ c ∈ blanks, isBlank c) ∧
      headOf (withoutAnnotations 0 (lead ++ (a ++ b))) =
        blanks ++ withoutTypeArguments a ++ headOf (withoutAnnotations 0 b) := by
  obtain ⟨blanks, hblanks, heq⟩ :=
    hlead.exists_blanks (noArguments_append (fun h => absurd (ha.head _ h) (by decide)) hsolid b)
  refine ⟨blanks, hblanks, ?_⟩
  rw [heq, withoutAnnotations_append ha.plain, headOf_blanks hblanks,
    headOf_append ha.closed ha.head, List.append_assoc]

/-! ## Names at the end -/

variable {owner : String} {name : List Char}

/-- What a text ends in, blanks aside, decides whether it ends in a name. -/
theorem EndsInName.of_append {text blanks : List Char}
    (h : EndsInName owner (text ++ blanks) name) (htext : ∀ c ∈ text.getLast?, isBlank c = false)
    (hblanks : ∀ c ∈ blanks, isBlank c) :
    name = text.rtakeWhile isIdentifierChar ∧
      (text.rdropWhile isIdentifierChar).getLast? ≠ some '.' := by
  have htrim : Text.trimRight (text ++ blanks) = text := by
    rw [Text.trimRight, Text.dropRightWhile_eq_rdropWhile, rdropWhile_append_run hblanks htext]
  have hname := h.eq_rtakeWhile
  have hlast := h.rdropWhile_last
  rw [htrim] at hname hlast
  exact ⟨hname, hlast⟩

/-- The text does not start within a word. -/
def StartsApart (text : List Char) : Prop := ∀ c ∈ text.head?, isIdentifierChar c = false

instance (text : List Char) : Decidable (StartsApart text) :=
  decidable_of_iff ((text.head?.all fun c => !isIdentifierChar c) = true)
    (by cases text <;> simp [StartsApart])

/-- A name at the end of a text is at the end of any last part of it that is not blank and does not
start within a word. -/
theorem EndsInName.of_append_right {before text : List Char}
    (h : EndsInName owner (before ++ text) name) (hapart : StartsApart text)
    (hsolid : ∃ c ∈ text, isBlank c = false) : EndsInName owner text name := by
  obtain ⟨start, blanks, heq, hblanks, hstart⟩ := h.exists_before
  rw [List.append_assoc, List.append_eq_append_iff] at heq
  rcases heq with ⟨start', rfl, rfl⟩ | ⟨rest, rfl, heq⟩
  · refine ⟨⟨start', blanks, by simp, hblanks, fun c hc => hstart c ?_⟩, h.name_ne_nil, h.chars,
      h.start, h.ne_owner, h.not_reserved⟩
    rw [List.getLast?_append, Option.mem_def.mp hc]
    rfl
  · -- The name would start before the text, so the text would start within it or be blank.
    exfalso
    obtain ⟨c, hmem, hc⟩ := hsolid
    have hnot : ∀ d ∈ blanks, c ≠ d := by
      rintro d hd rfl
      rw [hblanks c hd] at hc
      cases hc
    rcases List.append_eq_append_iff.mp heq with ⟨more, -, rfl⟩ | ⟨more, rfl, rfl⟩
    · exact hnot c (List.mem_append_right more hmem) rfl
    · cases more with
      | nil => exact hnot c hmem rfl
      | cons e more =>
        have he := h.chars e (List.mem_append_right rest List.mem_cons_self)
        rw [hapart e rfl] at he
        cases he

end Source

end Recheck
