import Mathlib.Data.List.Infix
import Recheck.Proofs.Content.Tidied
import Recheck.Source.Directives

/-!
# References of a tidied source

The references of a source are those of its tidied form (`PlainDirectives.references_trimmed`), if
no directive follows a carriage return that ends a line by itself, which starts a line only once it
is tidied, and if the references have no blanks that tidying drops. The reader passes a directive as
a whole, so the two texts are compared at the places that it comes to (`referencesFrom_tidied`).
-/

namespace Recheck

namespace Source

open Content (Tidied unpadded loneReturn)
open Text (isBlank isAsciiBlankChar isBlank_of_isAsciiBlankChar)

/-! ## One directive -/

/-- A character inside of a reference. -/
def isReferenceChar (c : Char) : Bool := !isReferenceQuote c

theorem isReferenceChar_of_isAsciiBlankChar {c : Char} (h : isAsciiBlankChar c) :
    isReferenceChar c :=
  Text.isAsciiBlankChar_cases h rfl rfl rfl rfl rfl

theorem not_isBlank_of_quote {c : Char} (h : isReferenceChar c = false) : ¬ isBlank c := by
  simp only [isReferenceChar, isReferenceQuote, Bool.not_eq_false', Bool.or_eq_true,
    beq_iff_eq] at h
  rcases h with rfl | rfl <;> decide

/-- The reference in quotes at the head of a text, and the text after it. -/
def quoted? : List Char → Option (List Char × List Char)
  | [] => none
  | q :: rest =>
    if isReferenceQuote q then
      match rest.dropWhile isReferenceChar with
      | [] => none
      | _ :: after =>
        let reference := rest.takeWhile isReferenceChar
        if reference = [] then none else some (reference, after)
    else none

theorem quotedReference?_cons (c : Char) (cs : List Char) :
    quotedReference? (c :: cs) = if isBlank c then quoted? (Text.trimLeft (c :: cs)) else none := by
  rw [quotedReference?]
  split
  · next hc =>
    rw [Text.trimLeft, Text.trimLeft, List.dropWhile_cons_of_pos hc]
    cases cs.dropWhile isBlank with
    | nil => rfl
    | cons q rest =>
      have hchar : (fun c => !isReferenceQuote c) = isReferenceChar := rfl
      simp only [quoted?, hchar, Text.drop_length_takeWhile]
      cases rest.dropWhile isReferenceChar with
      | nil => rfl
      | cons d after => cases rest.takeWhile isReferenceChar <;> rfl
  · rfl

/-- What is found in a text, with the text after it, is found in its tidied form too. -/
def FoundTidied : Option (List Char × List Char) → Option (List Char × List Char) → Prop
  | none, found => found = none
  | some (reference, rest), found =>
    unpadded reference → ∃ rest', found = some (reference, rest') ∧ Tidied rest rest'

theorem quoted?_tidied {cs ds : List Char} (h : Tidied cs ds) :
    FoundTidied (quoted? cs) (quoted? ds) := by
  have hnone : ∀ {c}, isAsciiBlankChar c → ∀ cs, quoted? (c :: cs) = none := by
    intro c hc cs
    have hquote := isReferenceChar_of_isAsciiBlankChar hc
    rw [isReferenceChar, Bool.not_eq_true'] at hquote
    rw [quoted?, if_neg (by simp [hquote])]
  cases h with
  | nil => rfl
  | turn => rw [hnone rfl, hnone rfl]; rfl
  | trail hc => rw [hnone hc]; rfl
  | pad hc => rw [hnone (Tidied.isAsciiBlankChar_of_pad hc), hnone rfl]; rfl
  | @keep q cs ds hq h =>
    by_cases hquote : isReferenceQuote q
    · have hblank := fun c => isReferenceChar_of_isAsciiBlankChar (c := c)
      have hrest := h.dropWhile hblank
      have happend := List.takeWhile_append_dropWhile (p := isReferenceChar) (l := cs)
      rw [quoted?, quoted?, if_pos hquote, if_pos hquote]
      cases hafter : cs.dropWhile isReferenceChar with
      | nil =>
        rw [hafter] at hrest
        generalize ds.dropWhile isReferenceChar = after at hrest ⊢
        cases hrest
        rfl
      | cons q' after =>
        have hq' := List.head?_dropWhile_not isReferenceChar cs
        rw [hafter] at hrest hq'
        have hsolid : ¬ isAsciiBlankChar q' := fun hc => by simp [hblank q' hc] at hq'
        obtain ⟨after', hafter', htidied⟩ := hrest.exists_cons hsolid
        rw [hafter']
        cases hreference : cs.takeWhile isReferenceChar with
        | nil =>
          rw [hreference, hafter, List.nil_append] at happend
          rw [← happend] at h
          obtain ⟨ds', rfl, -⟩ := h.exists_cons hsolid
          rw [List.takeWhile_cons_of_neg (by simpa using hq')]
          rfl
        | cons c reference =>
          intro hunpadded
          have heq := h.takeWhile_eq hblank (hreference ▸ hunpadded) (by simp [hafter])
          rw [heq, hreference]
          exact ⟨after', rfl, htidied⟩
    · rw [quoted?, quoted?, if_neg hquote, if_neg hquote]
      rfl

theorem quotedReference?_tidied {cs ds : List Char} (h : Tidied cs ds) :
    FoundTidied (quotedReference? cs) (quotedReference? ds) := by
  have hquoted := quoted?_tidied (h.dropWhile fun _ => isBlank_of_isAsciiBlankChar)
  cases h with
  | nil => rfl
  | @keep c cs ds hc h =>
    rw [quotedReference?_cons, quotedReference?_cons]
    split
    · exact hquoted
    · rfl
  | turn hcs h =>
    rw [quotedReference?_cons, quotedReference?_cons]
    exact hquoted
  | @trail c cs hc h =>
    rw [quotedReference?_cons, if_pos (isBlank_of_isAsciiBlankChar hc)]
    exact hquoted
  | @pad c cs ds hc h =>
    have hblank := isBlank_of_isAsciiBlankChar (Tidied.isAsciiBlankChar_of_pad hc)
    rw [quotedReference?_cons, quotedReference?_cons, if_pos hblank]
    exact hquoted

theorem findSome?_tidied {α : Type} {f g : α → Option (List Char × List Char)} {xs : List α}
    (h : ∀ x ∈ xs, FoundTidied (f x) (g x)) : FoundTidied (xs.findSome? f) (xs.findSome? g) := by
  induction xs with
  | nil => rfl
  | cons x xs ih =>
    have hx := h x List.mem_cons_self
    rw [List.findSome?_cons, List.findSome?_cons]
    cases hf : f x with
    | none =>
      rw [hf] at hx
      have hg : g x = none := hx
      rw [hg]
      exact ih fun y hy => h y (List.mem_cons_of_mem x hy)
    | some found =>
      obtain ⟨reference, rest⟩ := found
      rw [hf] at hx
      intro hunpadded
      obtain ⟨rest', hg, htidied⟩ := hx hunpadded
      rw [hg]
      exact ⟨rest', rfl, htidied⟩

theorem stripStart?_eq_some_iff {w cs rest : List Char} :
    Text.stripStart? w cs = some rest ↔ cs = w ++ rest := by
  induction w generalizing cs with
  | nil => simp [Text.stripStart?]
  | cons c w ih =>
    cases cs with
    | nil => simp [Text.stripStart?]
    | cons d cs =>
      by_cases h : c = d
      · simp [Text.stripStart?, h, ih]
      · simp [Text.stripStart?, h, Ne.symm h]

theorem stripStart?_eq_none {w cs : List Char} (h : ¬ w <+: cs) : Text.stripStart? w cs = none :=
  Option.eq_none_iff_forall_ne_some.mpr fun rest hrest =>
    h ⟨rest, (stripStart?_eq_some_iff.mp hrest).symm⟩

theorem directive?_tidied {cs ds : List Char} (h : Tidied cs ds) :
    FoundTidied (directive? cs) (directive? ds) := by
  have hsolid : ∀ w ∈ directiveWords, w.all fun c => !isAsciiBlankChar c := by decide
  refine findSome?_tidied fun w hw => ?_
  rcases h.word (Tidied.solid_of_all (hsolid w hw)) with ⟨cs', ds', rfl, rfl, h'⟩ | ⟨hcs, hds⟩
  · rw [stripStart?_eq_some_iff.mpr rfl, stripStart?_eq_some_iff.mpr rfl]
    exact quotedReference?_tidied h'
  · rw [stripStart?_eq_none hcs, stripStart?_eq_none hds]
    rfl

/-! ## The text after a directive -/

theorem quoted?_suffix {cs reference rest : List Char} (h : quoted? cs = some (reference, rest)) :
    ∃ q, ¬ isBlank q ∧ q :: rest <:+ cs := by
  cases cs with
  | nil => cases h
  | cons q cs =>
    rw [quoted?] at h
    split at h
    · split at h
      · cases h
      · next c after hafter =>
        dsimp only at h
        split at h
        · cases h
        · obtain ⟨-, rfl⟩ := Prod.mk.inj (Option.some.inj h)
          have hc := List.head?_dropWhile_not isReferenceChar cs
          rw [hafter] at hc
          have hsuffix : c :: after <:+ cs := hafter ▸ List.dropWhile_suffix isReferenceChar
          exact ⟨c, not_isBlank_of_quote (by simpa using hc), hsuffix.trans (List.suffix_cons q cs)⟩
    · cases h

/-- A directive ends with a character that is no blank, beyond its first one. -/
theorem directive?_suffix {c : Char} {cs reference rest : List Char}
    (h : directive? (c :: cs) = some (reference, rest)) :
    ∃ q, ¬ isBlank q ∧ q :: rest <:+ cs := by
  obtain ⟨w, hw, hfound⟩ := List.exists_of_findSome?_eq_some h
  obtain ⟨after, hstrip, hquoted⟩ := Option.bind_eq_some_iff.mp hfound
  have hword : w ≠ [] := by
    rintro rfl
    exact absurd hw (by decide)
  obtain ⟨d, w', rfl⟩ := List.exists_cons_of_ne_nil hword
  obtain ⟨rfl, rfl⟩ := List.cons.inj (stripStart?_eq_some_iff.mp hstrip)
  cases after with
  | nil => cases hquoted
  | cons b after =>
    rw [quotedReference?_cons] at hquoted
    split at hquoted
    · obtain ⟨q, hq, hsuffix⟩ := quoted?_suffix hquoted
      exact ⟨q, hq, (hsuffix.trans (List.dropWhile_suffix isBlank)).trans (List.suffix_append w' _)⟩
    · cases hquoted

/-! ## All directives -/

theorem referencesFrom_eq_drop (skip : Nat) (cs : List Char) :
    referencesFrom skip false cs = referencesFrom 0 false (cs.drop skip) := by
  induction skip generalizing cs with
  | zero => rfl
  | succ skip ih =>
    cases cs with
    | nil => rfl
    | cons c cs => exact ih cs

theorem referencesFrom_of_some {c : Char} {cs reference rest : List Char}
    (h : directive? (c :: cs) = some (reference, rest)) :
    referencesFrom 0 true (c :: cs) = reference :: referencesFrom 0 false rest := by
  obtain ⟨q, -, hsuffix⟩ := directive?_suffix h
  have hrest := List.suffix_iff_eq_drop.mp ((List.suffix_cons q rest).trans hsuffix)
  rw [referencesFrom, if_pos rfl, h]
  dsimp only
  rw [referencesFrom_eq_drop, ← hrest]

theorem referencesFrom_of_none {fresh : Bool} {c : Char} {cs : List Char}
    (h : fresh → directive? (c :: cs) = none) :
    referencesFrom 0 fresh (c :: cs) = referencesFrom 0 (c == '\n' || (fresh && isBlank c)) cs := by
  rw [referencesFrom]
  cases fresh with
  | false => rfl
  | true => rw [if_pos rfl, h rfl]

theorem directive?_of_isBlank {c : Char} (hc : isBlank c) (cs : List Char) :
    directive? (c :: cs) = none := by
  have hwords : ∀ w ∈ directiveWords, w.head?.any fun d => !isBlank d := by decide
  refine List.findSome?_eq_none_iff.mpr fun w hw => ?_
  have hhead := hwords w hw
  rw [stripStart?_eq_none, Option.bind_none]
  rintro ⟨rest, hrest⟩
  cases w with
  | nil => cases hhead
  | cons d w =>
    obtain rfl : d = c := (List.cons.inj hrest).1
    simp [hc] at hhead

theorem referencesFrom_of_isBlank {c : Char} (hc : isBlank c) (fresh : Bool) (cs : List Char) :
    referencesFrom 0 fresh (c :: cs) = referencesFrom 0 (c == '\n' || fresh) cs := by
  rw [referencesFrom_of_none fun _ => directive?_of_isBlank hc cs, hc, Bool.and_true]

/-- No line is fresh after a character that is no blank. -/
theorem not_fresh_of_not_isBlank {c : Char} (hc : ¬ isBlank c) (fresh : Bool) :
    (c == '\n' || (fresh && isBlank c)) = false := by
  have hfeed : c ≠ '\n' := by
    rintro rfl
    exact hc rfl
  simp [hc, hfeed]

theorem referencesFrom_of_not_isBlank {fresh : Bool} {c : Char} {cs : List Char}
    (hc : ¬ isBlank c) (h : fresh → directive? (c :: cs) = none) :
    referencesFrom 0 fresh (c :: cs) = referencesFrom 0 false cs := by
  rw [referencesFrom_of_none h, not_fresh_of_not_isBlank hc]

theorem trimLeft_of_isBlank {c : Char} (hc : isBlank c) (cs : List Char) :
    Text.trimLeft (c :: cs) = Text.trimLeft cs :=
  List.dropWhile_cons_of_pos hc

/-! ## Carriage returns -/

/-- No directive follows a carriage return that ends a line by itself, unless that line has only
blanks in it. Only blanks stand before the text in its line if it is `fresh`. -/
def returnsApart : (fresh : Bool) → List Char → Bool
  | _, [] => true
  | fresh, c :: cs =>
    (fresh || !loneReturn (c :: cs) || (directive? (Text.trimLeft cs)).isNone) &&
      returnsApart (c == '\n' || (fresh && isBlank c)) cs

theorem returnsApart_cons {fresh : Bool} {c : Char} {cs : List Char}
    (h : returnsApart fresh (c :: cs)) :
    returnsApart (c == '\n' || (fresh && isBlank c)) cs := by
  rw [returnsApart, Bool.and_eq_true] at h
  exact h.2

theorem returnsApart_of_isBlank {fresh : Bool} {c : Char} {cs : List Char} (hc : isBlank c)
    (h : returnsApart fresh (c :: cs)) : returnsApart (c == '\n' || fresh) cs := by
  have hrest := returnsApart_cons h
  rwa [hc, Bool.and_true] at hrest

theorem returnsApart_of_not_isBlank {fresh : Bool} {c : Char} {cs : List Char} (hc : ¬ isBlank c)
    (h : returnsApart fresh (c :: cs)) : returnsApart false cs := by
  have hrest := returnsApart_cons h
  rwa [not_fresh_of_not_isBlank hc] at hrest

theorem returnsApart_of_suffix {fresh : Bool} {q : Char} {cs rest : List Char} (hq : ¬ isBlank q)
    (h : returnsApart fresh cs) (hrest : q :: rest <:+ cs) : returnsApart false rest := by
  induction cs generalizing fresh with
  | nil => cases List.suffix_nil.mp hrest
  | cons c cs ih =>
    rcases List.suffix_cons_iff.mp hrest with heq | hrest
    · obtain ⟨rfl, rfl⟩ := List.cons.inj heq
      exact returnsApart_of_not_isBlank hq h
    · exact ih (returnsApart_cons h) hrest

theorem directive?_of_returnsApart {cs : List Char} (hcs : cs.head? ≠ some '\n')
    (h : returnsApart false ('\r' :: cs)) : directive? (Text.trimLeft cs) = none := by
  have hlone : loneReturn ('\r' :: cs) := by simpa [loneReturn] using hcs
  rw [returnsApart, Bool.and_eq_true, hlone] at h
  simpa using h.1

/-! ## The references of both texts -/

/-- The references of a text and of its tidied form agree. The start of a line may be known of the
tidied form only, if no directive follows. -/
theorem referencesFrom_tidied {fresh fresh' : Bool} {cs ds : List Char} (h : Tidied cs ds)
    (hfresh : fresh = fresh' ∨ fresh' = true ∧ directive? (Text.trimLeft cs) = none)
    (hplain : ∀ reference ∈ referencesFrom 0 fresh cs, unpadded reference)
    (hapart : returnsApart fresh cs) :
    referencesFrom 0 fresh cs = referencesFrom 0 fresh' ds := by
  -- A directive is passed as a whole, so the induction is on the length.
  induction hn : cs.length using Nat.strongRecOn generalizing cs ds fresh fresh' with
  | ind n ih =>
    cases h with
    | nil => rfl
    | @trail c cs hc h =>
      have hblank := isBlank_of_isAsciiBlankChar hc
      have hrest := returnsApart_of_isBlank hblank hapart
      rw [referencesFrom_of_isBlank hblank] at hplain ⊢
      change _ = referencesFrom 0 (c == '\n' || fresh) []
      exact ih cs.length (by simp [← hn]) h (.inl rfl) hplain hrest rfl
    | @pad c cs ds hc h =>
      have hblank := isBlank_of_isAsciiBlankChar (Tidied.isAsciiBlankChar_of_pad hc)
      have hfeed := beq_eq_false_iff_ne.mpr (Tidied.ne_lineFeed_of_pad hc)
      have hrest := returnsApart_of_isBlank hblank hapart
      rw [hfeed, Bool.false_or] at hrest
      rw [referencesFrom_of_isBlank hblank, hfeed, Bool.false_or] at hplain ⊢
      rw [trimLeft_of_isBlank hblank] at hfresh
      exact ih cs.length (by simp [← hn]) h hfresh hplain hrest rfl
    | @turn cs ds hcs h =>
      have hreturn : isBlank '\r' := rfl
      have hrest := returnsApart_of_isBlank hreturn hapart
      rw [referencesFrom_of_isBlank hreturn] at hplain
      rw [referencesFrom_of_isBlank hreturn, referencesFrom_of_isBlank (c := '\n') rfl]
      refine ih cs.length (by simp [← hn]) h ?_ hplain hrest rfl
      cases fresh with
      | true => exact .inl rfl
      | false => exact .inr ⟨rfl, directive?_of_returnsApart hcs hapart⟩
    | @keep c cs ds hc h =>
      by_cases hblank : isBlank c
      · have hrest := returnsApart_of_isBlank hblank hapart
        rw [referencesFrom_of_isBlank hblank] at hplain
        rw [referencesFrom_of_isBlank hblank, referencesFrom_of_isBlank hblank]
        rw [trimLeft_of_isBlank hblank] at hfresh
        refine ih cs.length (by simp [← hn]) h ?_ hplain hrest rfl
        rcases hfresh with rfl | ⟨rfl, hnone⟩
        · exact .inl rfl
        · exact .inr ⟨Bool.or_true _, hnone⟩
      · have htrim : Text.trimLeft (c :: cs) = c :: cs := List.dropWhile_cons_of_neg hblank
        have hrest := returnsApart_of_not_isBlank hblank hapart
        have hfound := directive?_tidied (h.keep hc)
        cases hdirective : directive? (c :: cs) with
        | none =>
          rw [hdirective] at hfound
          rw [referencesFrom_of_not_isBlank hblank fun _ => hdirective] at hplain ⊢
          rw [referencesFrom_of_not_isBlank hblank fun _ => hfound]
          exact ih cs.length (by simp [← hn]) h (.inl rfl) hplain hrest rfl
        | some found =>
          obtain ⟨reference, rest⟩ := found
          obtain rfl : fresh = fresh' := by
            refine hfresh.resolve_right fun hnone => ?_
            rw [htrim, hdirective] at hnone
            cases hnone.2
          cases fresh with
          | false =>
            rw [referencesFrom_of_not_isBlank hblank (by simp)] at hplain ⊢
            rw [referencesFrom_of_not_isBlank hblank (by simp)]
            exact ih cs.length (by simp [← hn]) h (.inl rfl) hplain hrest rfl
          | true =>
            rw [referencesFrom_of_some hdirective] at hplain ⊢
            rw [hdirective] at hfound
            obtain ⟨rest', hdirective', hafter⟩ := hfound (hplain reference List.mem_cons_self)
            obtain ⟨q, hq, hsuffix⟩ := directive?_suffix hdirective
            have hlength : rest.length < n := by
              have hle := hsuffix.length_le
              rw [List.length_cons] at hle
              rw [← hn, List.length_cons]
              omega
            rw [referencesFrom_of_some hdirective', ih rest.length hlength hafter (.inl rfl)
              (fun r hr => hplain r (List.mem_cons_of_mem _ hr))
              (returnsApart_of_suffix hq hrest hsuffix) rfl]

theorem references_dropWhile (cs : List Char) :
    references (cs.dropWhile isAsciiBlankChar) = references cs := by
  induction cs with
  | nil => rfl
  | cons c cs ih =>
    by_cases hc : isAsciiBlankChar c
    · rw [List.dropWhile_cons_of_pos hc, ih, references, references,
        referencesFrom_of_isBlank (isBlank_of_isAsciiBlankChar hc), Bool.or_true]
    · rw [List.dropWhile_cons_of_neg hc]

/-- The directives of a source are found however its lines end. -/
structure PlainDirectives (cs : List Char) : Prop where
  references : ∀ reference ∈ references cs, unpadded reference
  returns : returnsApart true cs

instance (cs : List Char) : Decidable (PlainDirectives cs) :=
  decidable_of_iff
    ((∀ reference ∈ Source.references cs, unpadded reference) ∧ returnsApart true cs)
    ⟨fun h => ⟨h.1, h.2⟩, fun h => ⟨h.1, h.2⟩⟩

theorem PlainDirectives.references_trimmed {cs : List Char} (h : PlainDirectives cs) :
    Source.references cs = Source.references (Content.trimmed cs) := by
  rw [Content.trimmed, references_dropWhile]
  exact referencesFrom_tidied (Content.tidied_tidy cs) (.inl rfl) h.references h.returns

end Source

end Recheck
