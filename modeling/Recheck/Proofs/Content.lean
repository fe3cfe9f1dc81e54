import Mathlib.Data.List.DropRight
import Recheck.Content

/-!
# The normal form in one pass

`Content.normalize` cuts a content into lines, trims them and joins them again. `Symbols.tidy` does
this in one pass from the right, but for the blanks at the start: at each symbol, what follows is
tidied already, and whether a line is over shows in its head. The two agree (`normalize_eq`).

The pass is stated for any kind of symbol, as the contents of text files are also read as lists of
characters.
-/

namespace Recheck

namespace Text

variable {α : Type} (p : α → Bool)

theorem dropRightWhile_cons (x : α) (xs : List α) :
    dropRightWhile p (x :: xs) =
      if dropRightWhile p xs = [] ∧ p x then [] else x :: dropRightWhile p xs := by
  simp [dropRightWhile]

theorem dropRightWhile_dropWhile (xs : List α) :
    dropRightWhile p (xs.dropWhile p) = (dropRightWhile p xs).dropWhile p := by
  induction xs with
  | nil => rfl
  | cons x xs ih =>
    by_cases hx : p x
    · rw [List.dropWhile_cons_of_pos hx, ih, dropRightWhile_cons]
      by_cases hrest : dropRightWhile p xs = [] <;> simp [hrest, hx]
    · rw [List.dropWhile_cons_of_neg hx, dropRightWhile_cons, if_neg (by simp [hx]),
        List.dropWhile_cons_of_neg hx]

theorem dropRightWhile_append (xs ys : List α) :
    dropRightWhile p (xs ++ ys) =
      if dropRightWhile p ys = [] then dropRightWhile p xs else xs ++ dropRightWhile p ys := by
  induction xs with
  | nil =>
    split
    · next h => rw [List.nil_append, h, dropRightWhile, List.foldr_nil]
    · rfl
  | cons x xs ih =>
    rw [List.cons_append, dropRightWhile_cons, ih]
    by_cases h : dropRightWhile p ys = []
    · simp [h, dropRightWhile_cons]
    · simp [h]

theorem mem_of_mem_dropRightWhile {x : α} {xs : List α} (h : x ∈ dropRightWhile p xs) :
    x ∈ xs := by
  induction xs with
  | nil => exact h
  | cons y ys ih =>
    rw [dropRightWhile_cons] at h
    split at h
    · cases h
    · exact List.mem_cons.mpr ((List.mem_cons.mp h).imp_right ih)

@[simp] theorem dropRightWhile_idem (xs : List α) :
    dropRightWhile p (dropRightWhile p xs) = dropRightWhile p xs := by
  induction xs with
  | nil => rfl
  | cons x xs ih =>
    rw [dropRightWhile_cons]
    split
    · rfl
    · next h => rw [dropRightWhile_cons, ih, if_neg h]

theorem dropRightWhile_eq_rdropWhile (xs : List α) : dropRightWhile p xs = xs.rdropWhile p := by
  induction xs using List.reverseRecOn with
  | nil => rfl
  | append_singleton xs x ih =>
    rw [dropRightWhile_append, List.rdropWhile_concat, ih]
    by_cases hx : p x <;> simp [dropRightWhile, hx]

theorem drop_length_takeWhile (xs : List α) : xs.drop (xs.takeWhile p).length = xs.dropWhile p := by
  calc xs.drop (xs.takeWhile p).length
      = (xs.takeWhile p ++ xs.dropWhile p).drop (xs.takeWhile p).length := by
        rw [List.takeWhile_append_dropWhile]
    _ = xs.dropWhile p := List.drop_left

theorem join_cons_cons (sep : α) (piece next : List α) (pieces : List (List α)) :
    join sep (piece :: next :: pieces) = piece ++ sep :: join sep (next :: pieces) := by
  simp [join, List.intercalate]

end Text

namespace Content

/-! ## The pass -/

/-- The symbols that a normal form distinguishes; the line ends are blanks. -/
structure Symbols (α : Type) where
  lineFeed : α
  carriageReturn : α
  isBlank : α → Bool
  ne : lineFeed ≠ carriageReturn
  isBlank_lineFeed : isBlank lineFeed = true
  isBlank_carriageReturn : isBlank carriageReturn = true

/-- The list with a line feed at the end of each line, without blanks at the ends of the lines and
of the whole. -/
def Symbols.tidy {α : Type} [DecidableEq α] (σ : Symbols α) : List α → List α
  | [] => []
  | c :: cs =>
    let rest := σ.tidy cs
    if c = σ.carriageReturn ∧ cs.head? = some σ.lineFeed then rest
    else if c = σ.lineFeed ∨ c = σ.carriageReturn then
      if rest = [] then [] else σ.lineFeed :: rest
    else if σ.isBlank c ∧ (rest = [] ∨ rest.head? = some σ.lineFeed) then rest
    else c :: rest

namespace Symbols

variable {α : Type} [DecidableEq α] (σ : Symbols α)

theorem tidy_lineEnd_cons {c : α} {cs : List α} (hc : c = σ.lineFeed ∨ c = σ.carriageReturn)
    (h : ¬ (c = σ.carriageReturn ∧ cs.head? = some σ.lineFeed)) :
    σ.tidy (c :: cs) = if σ.tidy cs = [] then [] else σ.lineFeed :: σ.tidy cs := by
  rw [tidy]
  exact (if_neg h).trans (if_pos hc)

theorem tidy_plain_cons {c : α} (hc : ¬ (c = σ.lineFeed ∨ c = σ.carriageReturn)) (cs : List α) :
    σ.tidy (c :: cs) =
      if σ.isBlank c ∧ (σ.tidy cs = [] ∨ (σ.tidy cs).head? = some σ.lineFeed) then σ.tidy cs
      else c :: σ.tidy cs := by
  rw [tidy]
  exact (if_neg fun h => hc (.inr h.1)).trans (if_neg hc)

theorem tidy_solid_append {cs : List α} (h : ∀ c ∈ cs, σ.isBlank c = false) (rest : List α) :
    σ.tidy (cs ++ rest) = cs ++ σ.tidy rest := by
  induction cs with
  | nil => rfl
  | cons c cs ih =>
    have hsolid : σ.isBlank c = false := h c List.mem_cons_self
    have hc : ¬ (c = σ.lineFeed ∨ c = σ.carriageReturn) := by
      rintro (rfl | rfl)
      · simp [σ.isBlank_lineFeed] at hsolid
      · simp [σ.isBlank_carriageReturn] at hsolid
    rw [List.cons_append, σ.tidy_plain_cons hc, if_neg (by simp [hsolid]),
      ih fun d hd => h d (List.mem_cons_of_mem c hd), List.cons_append]

end Symbols

/-- The symbols of a content. -/
def Symbols.bytes : Symbols UInt8 :=
  ⟨Content.lineFeed, Content.carriageReturn, Text.isAsciiBlank, by decide, by decide, by decide⟩

/-! ## Lines -/

theorem lines_ne_nil (bs : List UInt8) : lines bs ≠ [] := by
  fun_cases lines bs <;> simp_all

theorem lineFeed_notMem_line {bs line : List UInt8} (h : line ∈ lines bs) : lineFeed ∉ line := by
  fun_induction lines bs generalizing line with
  | case1 => simp_all
  | case2 b hb => simp_all
  | _ => grind

theorem trimEnd_lineFeed_cons (bs : List UInt8) :
    trimEnd (lineFeed :: bs) = if trimEnd bs = [] then [] else lineFeed :: trimEnd bs := by
  have hblank : Text.isAsciiBlank lineFeed = true := rfl
  rw [trimEnd, Text.dropRightWhile_cons]
  by_cases h : trimEnd bs = []
  · rw [if_pos ⟨h, hblank⟩, if_pos h]
  · rw [if_neg (h ·.1), if_neg h]
    rfl

/-- The lines after the first add to the trimmed first line, whichever that is, nothing or a text
that starts with a line feed. -/
theorem exists_trimEnd_join (rest : List (List UInt8)) :
    ∃ tail : List UInt8, (tail = [] ∨ tail.head? = some lineFeed) ∧
      ∀ line, trimEnd (Text.join lineFeed ((line :: rest).map trimEnd)) = trimEnd line ++ tail := by
  cases rest with
  | nil => exact ⟨[], .inl rfl, fun line => by simp [Text.join, trimEnd]⟩
  | cons next rest =>
    refine ⟨trimEnd (lineFeed :: Text.join lineFeed ((next :: rest).map trimEnd)), ?_,
      fun line => ?_⟩
    · rw [trimEnd_lineFeed_cons]
      split
      · exact .inl rfl
      · exact .inr rfl
    · rw [List.map_cons, List.map_cons, Text.join_cons_cons, ← List.map_cons]
      generalize lineFeed :: Text.join lineFeed ((next :: rest).map trimEnd) = after
      simp only [trimEnd, Text.dropRightWhile_append, Text.dropRightWhile_idem]
      split
      · next h => rw [h, List.append_nil]
      · rfl

/-! ## Agreement -/

theorem trimEnd_join_nil_cons {lines : List (List UInt8)} (h : lines ≠ []) :
    trimEnd (Text.join lineFeed (([] :: lines).map trimEnd)) =
      if trimEnd (Text.join lineFeed (lines.map trimEnd)) = [] then []
      else lineFeed :: trimEnd (Text.join lineFeed (lines.map trimEnd)) := by
  obtain ⟨line, rest, rfl⟩ := List.exists_cons_of_ne_nil h
  rw [List.map_cons, List.map_cons, Text.join_cons_cons, ← List.map_cons]
  exact trimEnd_lineFeed_cons _

/-- Whether a line is over shows in the head of what follows, as no line has a line feed in it. -/
theorem trimEnd_cons_append (b : UInt8) {line tail : List UInt8} (hline : lineFeed ∉ line)
    (htail : tail = [] ∨ tail.head? = some lineFeed) :
    trimEnd (b :: line) ++ tail =
      if Text.isAsciiBlank b ∧
          (trimEnd line ++ tail = [] ∨ (trimEnd line ++ tail).head? = some lineFeed) then
        trimEnd line ++ tail
      else b :: (trimEnd line ++ tail) := by
  have hcons : trimEnd (b :: line) =
      if trimEnd line = [] ∧ Text.isAsciiBlank b then [] else b :: trimEnd line :=
    Text.dropRightWhile_cons ..
  cases htrim : trimEnd line with
  | nil =>
    rw [hcons, htrim, List.nil_append]
    by_cases hb : Text.isAsciiBlank b
    · rw [if_pos ⟨rfl, hb⟩, if_pos ⟨hb, htail⟩, List.nil_append]
    · rw [if_neg (hb ·.2), if_neg (hb ·.1), List.cons_append, List.nil_append]
  | cons c cs =>
    have hc : c ≠ lineFeed := by
      rintro rfl
      exact hline (Text.mem_of_mem_dropRightWhile _ (htrim ▸ List.mem_cons_self))
    rw [hcons, htrim, if_neg (by simp), if_neg (by simp [hc]), List.cons_append]

theorem trimEnd_join_lines (bs : List UInt8) :
    trimEnd (Text.join lineFeed ((lines bs).map trimEnd)) = Symbols.bytes.tidy bs := by
  fun_induction lines bs with
  | case1 => rfl
  | case2 b hb =>
    rw [Symbols.bytes.tidy_lineEnd_cons hb (by simp), trimEnd_join_nil_cons (by simp)]
    rfl
  | case3 b hb =>
    rw [Symbols.bytes.tidy_plain_cons hb]
    by_cases hblank : Text.isAsciiBlank b <;>
      simp [Text.join, trimEnd, Text.dropRightWhile, Symbols.tidy, Symbols.bytes, hblank]
  | case4 b c bs hb ih =>
    obtain ⟨rfl, rfl⟩ := hb
    rw [trimEnd_join_nil_cons (lines_ne_nil bs), ih, Symbols.tidy]
    exact (Symbols.bytes.tidy_lineEnd_cons (.inl rfl) fun h => Symbols.bytes.ne h.1).symm
  | case5 b c bs hb hb' ih =>
    have hnext : ¬ (b = carriageReturn ∧ (c :: bs).head? = some lineFeed) := by simpa using hb
    rw [trimEnd_join_nil_cons (lines_ne_nil _), ih, Symbols.bytes.tidy_lineEnd_cons hb' hnext]
    rfl
  | case6 b c bs hb hb' hnil ih => exact absurd hnil (lines_ne_nil _)
  | case7 b c bs hb hb' line rest hlines ih =>
    obtain ⟨tail, htail, hjoin⟩ := exists_trimEnd_join rest
    rw [hlines, hjoin] at ih
    have hline : lineFeed ∉ line := lineFeed_notMem_line (hlines ▸ List.mem_cons_self)
    rw [hjoin, Symbols.bytes.tidy_plain_cons hb', ← ih]
    exact trimEnd_cons_append b hline htail

/-- The normal form is the content tidied, without the blanks at its start. -/
theorem normalize_eq (bs : List UInt8) :
    normalize bs = (Symbols.bytes.tidy bs).dropWhile Text.isAsciiBlank := by
  rw [normalize, trim, trimEnd, Text.dropRightWhile_dropWhile, ← trimEnd, trimEnd_join_lines]

end Content

end Recheck
