import Mathlib.Data.List.TakeWhile
import Recheck.Proofs.Content.Encoding

/-!
# A text beside its tidied form

`Tidied cs ds` follows the text `cs` and its tidied form `ds` side by side: a character is kept, a
carriage return that ends a line by itself turns into a line feed, and blanks are dropped where a
line or the text is over. What a reader looks for with words that have no blanks it finds in both or
in neither (`Tidied.word`).
-/

namespace Recheck

namespace Content

open Text (isAsciiBlankChar)

/-- A blank that ends no line. -/
def isPad (c : Char) : Bool := c == ' ' || c == '\t' || c == '\x0c'

/-- A carriage return that ends a line by itself stands at the head of the text. -/
def loneReturn : List Char → Bool
  | '\r' :: cs => cs.head? != some '\n'
  | _ => false

/-- `ds` is `cs` tidied. -/
inductive Tidied : List Char → List Char → Prop
  | nil : Tidied [] []
  | keep {c : Char} {cs ds : List Char} : c ≠ '\r' → Tidied cs ds → Tidied (c :: cs) (c :: ds)
  | turn {cs ds : List Char} : cs.head? ≠ some '\n' → Tidied cs ds →
      Tidied ('\r' :: cs) ('\n' :: ds)
  | trail {c : Char} {cs : List Char} : isAsciiBlankChar c → Tidied cs [] → Tidied (c :: cs) []
  | pad {c : Char} {cs ds : List Char} : isPad c ∨ c = '\r' ∧ cs.head? = some '\n' →
      Tidied cs ('\n' :: ds) → Tidied (c :: cs) ('\n' :: ds)

theorem isAsciiBlankChar_iff (c : Char) :
    isAsciiBlankChar c ↔ isPad c ∨ c = '\n' ∨ c = '\r' := by
  simp only [isAsciiBlankChar, isPad, Bool.or_eq_true, beq_iff_eq]
  grind

theorem tidy_cons (c : Char) (cs : List Char) :
    Symbols.chars.tidy (c :: cs) =
      let rest := Symbols.chars.tidy cs
      if c = '\r' ∧ cs.head? = some '\n' then rest
      else if c = '\n' ∨ c = '\r' then if rest = [] then [] else '\n' :: rest
      else if isAsciiBlankChar c ∧ (rest = [] ∨ rest.head? = some '\n') then rest
      else c :: rest := rfl

theorem head?_tidy_of_lineFeed (cs : List Char) :
    Symbols.chars.tidy ('\n' :: cs) = [] ∨ (Symbols.chars.tidy ('\n' :: cs)).head? = some '\n' := by
  by_cases h : Symbols.chars.tidy cs = [] <;> simp [tidy_cons, h]

/-- A blank is dropped where a line is over. -/
theorem tidied_of_lineOver {c : Char} {cs ds : List Char}
    (hc : isPad c ∨ c = '\r' ∧ cs.head? = some '\n') (hds : ds = [] ∨ ds.head? = some '\n')
    (h : Tidied cs ds) : Tidied (c :: cs) ds := by
  cases ds with
  | nil => exact .trail ((isAsciiBlankChar_iff c).mpr (hc.imp_right fun h => .inr h.1)) h
  | cons d ds =>
    obtain rfl : d = '\n' := by simpa using hds
    exact .pad hc h

theorem tidied_tidy (cs : List Char) : Tidied cs (Symbols.chars.tidy cs) := by
  induction cs with
  | nil => exact .nil
  | cons c cs ih =>
    rw [tidy_cons]
    dsimp only
    split
    · next hreturn =>
      obtain ⟨cs', rfl⟩ := List.head?_eq_some_iff.mp hreturn.2
      exact tidied_of_lineOver (.inr hreturn) (head?_tidy_of_lineFeed cs') ih
    · next hlone =>
      split
      · next hend =>
        split
        · next hnil => exact .trail ((isAsciiBlankChar_iff c).mpr (.inr hend)) (hnil ▸ ih)
        · rcases hend with rfl | rfl
          · exact .keep (by decide) ih
          · exact .turn (fun h => hlone ⟨rfl, h⟩) ih
      · next hplain =>
        rw [not_or] at hplain
        split
        · next hover =>
          have hpad := ((isAsciiBlankChar_iff c).mp hover.1).resolve_right (not_or.mpr hplain)
          exact tidied_of_lineOver (.inl hpad) hover.2 ih
        · exact .keep hplain.2 ih

namespace Tidied

variable {c : Char} {cs ds : List Char}

theorem isAsciiBlankChar_of_pad (h : isPad c ∨ c = '\r' ∧ cs.head? = some '\n') :
    isAsciiBlankChar c :=
  (isAsciiBlankChar_iff c).mpr (h.imp_right fun h => .inr h.1)

theorem ne_lineFeed_of_pad (h : isPad c ∨ c = '\r' ∧ cs.head? = some '\n') : c ≠ '\n' := by
  rintro rfl
  exact absurd h (by simp [isPad])

theorem solid_of_all {w : List Char} (h : w.all fun c => !isAsciiBlankChar c) :
    ∀ c ∈ w, ¬ isAsciiBlankChar c := by
  intro c hc
  simpa using List.all_eq_true.mp h c hc

/-- A word without blanks stands at the head of both texts or of neither. -/
theorem word {w : List Char} (hw : ∀ c ∈ w, ¬ isAsciiBlankChar c) (h : Tidied cs ds) :
    (∃ cs' ds', cs = w ++ cs' ∧ ds = w ++ ds' ∧ Tidied cs' ds') ∨ ¬ w <+: cs ∧ ¬ w <+: ds := by
  induction w generalizing cs ds with
  | nil => exact .inl ⟨cs, ds, rfl, rfl, h⟩
  | cons c w ih =>
    have hne : ∀ {d}, isAsciiBlankChar d → c ≠ d :=
      fun hd heq => hw c List.mem_cons_self (heq ▸ hd)
    have hfeed : c ≠ '\n' := hne rfl
    cases h with
    | nil => exact .inr (by simp)
    | @keep d cs ds hd h =>
      by_cases heq : c = d
      · subst heq
        rcases ih (fun d hd => hw d (List.mem_cons_of_mem c hd)) h with
          ⟨cs', ds', rfl, rfl, h'⟩ | ⟨hcs, hds⟩
        · exact .inl ⟨cs', ds', rfl, rfl, h'⟩
        · exact .inr (by simpa [List.cons_prefix_cons] using ⟨hcs, hds⟩)
      · exact .inr (by simp [List.cons_prefix_cons, heq])
    | turn hcs h =>
      have hreturn : c ≠ '\r' := hne rfl
      exact .inr (by simp [List.cons_prefix_cons, hreturn, hfeed])
    | trail hd h => exact .inr (by simp [List.cons_prefix_cons, hne hd])
    | pad hd h =>
      exact .inr (by simp [List.cons_prefix_cons, hne (isAsciiBlankChar_of_pad hd), hfeed])

theorem prefix_iff {w : List Char} (hw : ∀ c ∈ w, ¬ isAsciiBlankChar c) (h : Tidied cs ds) :
    w <+: cs ↔ w <+: ds := by
  rcases h.word hw with ⟨cs', ds', rfl, rfl, -⟩ | ⟨hcs, hds⟩
  · exact iff_of_true (List.prefix_append w cs') (List.prefix_append w ds')
  · exact iff_of_false hcs hds

theorem drop_word {w : List Char} (hw : ∀ c ∈ w, ¬ isAsciiBlankChar c) (h : Tidied cs ds)
    (hcs : w <+: cs) :
    cs.take w.length = ds.take w.length ∧ Tidied (cs.drop w.length) (ds.drop w.length) := by
  obtain ⟨cs', ds', rfl, rfl, h'⟩ := (h.word hw).resolve_right fun hno => hno.1 hcs
  rw [List.take_left, List.take_left, List.drop_left, List.drop_left]
  exact ⟨rfl, h'⟩

theorem exists_cons (hc : ¬ isAsciiBlankChar c) (h : Tidied (c :: cs) ds) :
    ∃ ds', ds = c :: ds' ∧ Tidied cs ds' := by
  cases h with
  | keep _ h => exact ⟨_, rfl, h⟩
  | turn => exact absurd rfl hc
  | trail hc' => exact absurd hc' hc
  | pad hc' => exact absurd (isAsciiBlankChar_of_pad hc') hc

/-- Skipping a class of characters that has all blanks leaves a text and its tidied form. -/
theorem dropWhile {p : Char → Bool} (hp : ∀ c, isAsciiBlankChar c → p c) (h : Tidied cs ds) :
    Tidied (cs.dropWhile p) (ds.dropWhile p) := by
  induction h with
  | nil => exact .nil
  | @keep c cs ds hc h ih =>
    by_cases hpc : p c
    · rwa [List.dropWhile_cons_of_pos hpc, List.dropWhile_cons_of_pos hpc]
    · rw [List.dropWhile_cons_of_neg hpc, List.dropWhile_cons_of_neg hpc]
      exact .keep hc h
  | turn hcs h ih =>
    rwa [List.dropWhile_cons_of_pos (hp _ rfl), List.dropWhile_cons_of_pos (hp _ rfl)]
  | trail hc h ih => rwa [List.dropWhile_cons_of_pos (hp _ hc)]
  | pad hc h ih => rwa [List.dropWhile_cons_of_pos (hp _ (isAsciiBlankChar_of_pad hc))]

theorem isAsciiBlankChar_of_nil (h : Tidied cs []) : ∀ c ∈ cs, isAsciiBlankChar c := by
  generalize hds : [] = ds at h
  induction h with
  | nil => simp
  | trail hc h ih => simpa [hc] using ih hds
  | keep | turn | pad => cases hds

end Tidied

/-- Tidying leaves the text alone: it has no carriage returns, and no blanks before line feeds. -/
def unpadded : List Char → Bool
  | [] => true
  | c :: cs => c != '\r' && !(isPad c && cs.head? == some '\n') && unpadded cs

/-- An unpadded stretch up to a character that is no blank is the same once tidied. -/
theorem Tidied.takeWhile_eq {p : Char → Bool} (hp : ∀ c, isAsciiBlankChar c → p c)
    {cs ds : List Char} (h : Tidied cs ds) (hcs : unpadded (cs.takeWhile p))
    (hend : cs.dropWhile p ≠ []) : ds.takeWhile p = cs.takeWhile p := by
  induction h with
  | nil => rfl
  | @keep c cs ds hc h ih =>
    by_cases hpc : p c
    · rw [List.takeWhile_cons_of_pos hpc] at hcs ⊢
      rw [List.dropWhile_cons_of_pos hpc] at hend
      rw [unpadded, Bool.and_eq_true] at hcs
      rw [List.takeWhile_cons_of_pos hpc, ih hcs.2 hend]
    · rw [List.takeWhile_cons_of_neg hpc, List.takeWhile_cons_of_neg hpc]
  | turn _ h ih =>
    have hreturn : p '\r' := hp '\r' rfl
    simp [List.takeWhile_cons_of_pos hreturn, unpadded] at hcs
  | @trail c cs hc h ih =>
    rw [List.dropWhile_cons_of_pos (hp c hc)] at hend
    have hall := h.isAsciiBlankChar_of_nil
    exact absurd (List.dropWhile_eq_nil_iff.mpr fun d hd => hp d (hall d hd)) hend
  | @pad c cs ds hc h ih =>
    have hpc : p c := hp c (isAsciiBlankChar_of_pad hc)
    have hfeed : p '\n' := hp '\n' rfl
    rw [List.takeWhile_cons_of_pos hpc, unpadded, Bool.and_eq_true] at hcs
    rw [List.dropWhile_cons_of_pos hpc] at hend
    -- The rest of the stretch would start with the line feed that `c` pads.
    have hrest := ih hcs.2 hend
    rw [List.takeWhile_cons_of_pos hfeed] at hrest
    rw [← hrest] at hcs
    rcases hc with hpad | ⟨rfl, -⟩
    · simp [hpad] at hcs
    · simp at hcs

end Content

end Recheck
