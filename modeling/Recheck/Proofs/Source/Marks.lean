import Mathlib.Data.List.Infix
import Recheck.Proofs.Source.Braces
import Recheck.Proofs.Source.Masking

/-!
# Cutting a source at a mark

Whatever follows a mark in a source, the part up to it is masked and cut as if it stood alone:
`mask_append` and `segments_append`. The masker looks ahead by at most two characters, and only for
slashes, stars and quotes, so it does not look past a mark; and it writes a mark only where it
passes code (`move_of_endsAtMark`), so behind the mark it starts anew.
-/

namespace Recheck

namespace Source

/-! ## Texts that end at a mark -/

/-- The last character of the text is a mark. -/
def EndsAtMark (text : List Char) : Prop := (text.getLast?.bind Mark.ofChar?).isSome = true

instance (text : List Char) : Decidable (EndsAtMark text) :=
  inferInstanceAs (Decidable (_ = true))

theorem EndsAtMark.exists_eq {text : List Char} (h : EndsAtMark text) :
    ∃ init c mark, text = init ++ [c] ∧ Mark.ofChar? c = some mark := by
  obtain ⟨mark, hlast⟩ := Option.isSome_iff_exists.mp h
  obtain ⟨c, hc, hmark⟩ := Option.bind_eq_some_iff.mp hlast
  obtain ⟨init, rfl⟩ := List.getLast?_eq_some_iff.mp hc
  exact ⟨init, c, mark, rfl, hmark⟩

theorem endsAtMark_append {a b : List Char} (hb : b ≠ []) :
    EndsAtMark (a ++ b) ↔ EndsAtMark b := by
  rw [EndsAtMark, EndsAtMark, List.getLast?_append_of_ne_nil a hb]

/-! ## The mask of a text that ends at a mark -/

theorem not_isQuote_of_mark {c : Char} {mark : Mark} (h : Mark.ofChar? c = some mark) :
    isQuote c = false ∧ c ≠ '/' := by
  rw [← Mark.char_of_ofChar? h]
  cases mark <;> decide

theorem blank_ne_nil (c : Char) : blank c ≠ [] := by
  have hsize := c.utf8Size_pos
  rw [blank]
  split
  · simp
  · simp only [ne_eq, List.replicate_eq_nil_iff]
    omega

theorem maskFrom_ne_nil (r : Region) {text : List Char} (h : text ≠ []) : maskFrom r text ≠ [] := by
  cases text with
  | nil => exact absurd rfl h
  | cons c cs =>
    rw [maskFrom_cons, Move.mask]
    split <;> simp [blank_ne_nil]

/-- Spaces do not end at a mark. -/
theorem not_endsAtMark_flatMap_blank (cs : List Char) : ¬ EndsAtMark (cs.flatMap blank) := by
  intro h
  obtain ⟨init, c, mark, heq, hmark⟩ := h.exists_eq
  have hc : c ∈ cs.flatMap blank := by rw [heq]; simp
  obtain ⟨d, -, hd⟩ := List.mem_flatMap.mp hc
  have hblank : c = '\n' ∨ c = ' ' := by
    rw [blank] at hd
    split at hd
    · exact .inl (List.mem_singleton.mp hd)
    · exact .inr (List.eq_of_mem_replicate hd)
  rcases hblank with rfl | rfl <;> cases hmark

theorem move_append {c : Char} {cs : List Char} (r : Region) (b : List Char)
    (h : 2 ≤ cs.length) : r.move c (cs ++ b) = r.move c cs := by
  have hone : ∀ d : Char, [d] <+: cs ++ b ↔ [d] <+: cs := fun d =>
    List.isPrefix_append_of_length (by simp only [List.length_singleton]; omega)
  have htwo : ∀ d : Char, [d, d] <+: cs ++ b ↔ [d, d] <+: cs := fun _ =>
    List.isPrefix_append_of_length h
  cases r <;> simp only [Region.move, hone, htwo]

/-- A mark is written only where the masker passes it as code. -/
theorem move_of_endsAtMark {r : Region} {c : Char} (h : EndsAtMark (maskFrom r [c])) :
    (Mark.ofChar? c).isSome = true ∧ ∀ cs, r.move c cs = ⟨0, false, .code⟩ := by
  rw [maskFrom_cons, Move.mask, List.take_nil, List.drop_nil, maskFrom_nil, List.append_nil] at h
  cases hhidden : (r.move c []).hidden with
  | true =>
    rw [hhidden, if_pos rfl] at h
    exact absurd h (not_endsAtMark_flatMap_blank [c])
  | false =>
    rw [hhidden, if_neg Bool.false_ne_true] at h
    obtain ⟨mark, hmark⟩ : ∃ mark, Mark.ofChar? c = some mark := Option.isSome_iff_exists.mp h
    obtain ⟨hquote, hslash⟩ := not_isQuote_of_mark hmark
    refine ⟨h, fun cs => ?_⟩
    cases r with
    | code => simp [Region.move, hquote, hslash]
    | lineComment => cases hhidden
    | blockComment outer => simp [Region.move] at hhidden
    | literal q =>
      rw [Region.move] at hhidden
      split at hhidden
      · next hc => rw [Region.move, if_pos hc]
      · split at hhidden <;> cases hhidden
    | tripleLiteral q =>
      rw [Region.move] at hhidden
      split at hhidden <;> simp at hhidden

/-- What a move writes as it is, is one character or the three quotes at an end of a literal. -/
theorem shown_cases {r : Region} {c : Char} {cs : List Char} (h : (r.move c cs).hidden = false) :
    (r.move c cs).more = 0 ∨
      (r.move c cs).more = 2 ∧ 2 ≤ cs.length ∧
        ((r.move c cs).region = .code ∨ isQuote c = true ∧ [c, c] <+: cs) := by
  have hlength : ∀ q, [q, q] <+: cs → 2 ≤ cs.length := fun q hq => hq.length_le
  revert h
  fun_cases Region.move r c cs with
  | case3 _ _ _ _ hq hquotes =>
    exact fun _ => .inr ⟨rfl, hlength _ hquotes, .inr ⟨hq, hquotes⟩⟩
  | case14 q _ _ _ hquotes => exact fun _ => .inr ⟨rfl, hlength _ hquotes.2, .inl rfl⟩
  | _ => simp

/-- If the last move writes a mark, it ends in code. -/
theorem region_of_endsAtMark {r : Region} {c : Char} {cs : List Char}
    (h : EndsAtMark (maskFrom r (c :: cs))) (hlast : cs.drop (r.move c cs).more = []) :
    (r.move c cs).region = .code ∧ (r.move c cs).more ≤ cs.length := by
  rw [maskFrom_cons, Move.mask, hlast, maskFrom_nil, List.append_nil] at h
  cases hhidden : (r.move c cs).hidden with
  | true =>
    rw [hhidden, if_pos rfl] at h
    exact absurd h (not_endsAtMark_flatMap_blank _)
  | false =>
    rw [hhidden, if_neg Bool.false_ne_true] at h
    rcases shown_cases hhidden with hmore | ⟨hmore, hlength, hregion | ⟨hquote, hquotes⟩⟩
    · rw [hmore, List.drop_zero] at hlast
      subst hlast
      have hmask : EndsAtMark (maskFrom r [c]) := by
        rw [maskFrom_cons, Move.mask, hhidden]
        simpa [maskFrom_nil] using h
      rw [(move_of_endsAtMark hmask).2]
      exact ⟨rfl, Nat.le_refl 0⟩
    · exact ⟨hregion, by omega⟩
    · -- Three quotes are no mark.
      obtain ⟨rest, rfl⟩ := hquotes
      rw [hmore] at h
      obtain ⟨mark, hmark⟩ : ∃ mark, Mark.ofChar? c = some mark := Option.isSome_iff_exists.mp h
      rw [(not_isQuote_of_mark hmark).1] at hquote
      cases hquote

/-- Fewer than three characters cannot end a literal in triple quotes, so none of them is shown. -/
theorem not_endsAtMark_tripleLiteral (q : Char) (text : List Char) (h : text.length < 3) :
    ¬ EndsAtMark (maskFrom (.tripleLiteral q) text) := by
  induction hn : text.length using Nat.strongRecOn generalizing text with
  | ind n ih =>
    cases text with
    | nil => simp [maskFrom_nil, EndsAtMark]
    | cons c cs =>
      have hquotes : ¬ [q, q] <+: cs := fun hq => by
        have hlength := hq.length_le
        simp only [List.length_cons, List.length_nil] at h hlength
        omega
      have hmove : (Region.tripleLiteral q).move c cs =
          ⟨if c = '\\' then 1 else 0, true, .tripleLiteral q⟩ := by
        rw [Region.move]
        split_ifs <;> simp_all
      rw [maskFrom_cons, hmove, Move.mask, if_pos rfl]
      by_cases hlast : cs.drop (if c = '\\' then 1 else 0) = []
      · rw [hlast, maskFrom_nil, List.append_nil]
        exact not_endsAtMark_flatMap_blank _
      · rw [endsAtMark_append (maskFrom_ne_nil _ hlast)]
        refine ih _ ?_ _ ?_ rfl
        · rw [← hn, List.length_drop, List.length_cons]
          omega
        · rw [List.length_drop]
          rw [List.length_cons] at h
          omega

/-- Before a mark the masker does not look past it. -/
theorem move_append_of_endsAtMark {r : Region} {c : Char} {cs : List Char}
    (h : EndsAtMark (maskFrom r (c :: cs))) (b : List Char) :
    r.move c (cs ++ b) = r.move c cs := by
  rcases cs with _ | ⟨d, _ | ⟨e, cs⟩⟩
  · obtain ⟨-, hmove⟩ := move_of_endsAtMark h
    rw [hmove, hmove]
  · have hone : ∀ x : Char, [x] <+: d :: b ↔ [x] <+: [d] := fun x => by
      simp [List.cons_prefix_cons]
    -- Only three quotes can make a difference, and of them the second is no mark.
    cases r with
    | code =>
      by_cases hquotes : isQuote c = true ∧ d = c
      · obtain ⟨hquote, rfl⟩ := hquotes
        have hslash : d ≠ '/' := by
          rintro rfl
          cases hquote
        have hfirst : Region.code.move d [d] = ⟨0, false, .literal d⟩ := by
          simp [Region.move, hquote, hslash]
        rw [maskFrom_cons, hfirst, Move.mask] at h
        have hrest := (endsAtMark_append (maskFrom_ne_nil _ (by simp))).mp h
        obtain ⟨mark, hmark⟩ := Option.isSome_iff_exists.mp (move_of_endsAtMark hrest).1
        rw [(not_isQuote_of_mark hmark).1] at hquote
        cases hquote
      · have htwo : isQuote c = true → ¬ [c, c] <+: d :: b ∧ ¬ [c, c] <+: [d] := fun hc => by
          simp only [List.cons_prefix_cons]
          exact ⟨fun h => hquotes ⟨hc, h.1.symm⟩, fun h => hquotes ⟨hc, h.1.symm⟩⟩
        simp only [Region.move, List.cons_append, List.nil_append, hone]
        split_ifs <;> simp_all
    | lineComment => rfl
    | blockComment outer => simp only [Region.move, List.cons_append, List.nil_append, hone]
    | literal q => rfl
    | tripleLiteral q =>
      exact absurd h (not_endsAtMark_tripleLiteral q [c, d] (by simp))
  · exact move_append r b (by simp)

/-- A text that ends at a mark is masked for itself. -/
theorem maskFrom_append {r : Region} {a : List Char} (h : EndsAtMark (maskFrom r a))
    (b : List Char) : maskFrom r (a ++ b) = maskFrom r a ++ maskFrom .code b := by
  induction hn : a.length using Nat.strongRecOn generalizing r a with
  | ind n ih =>
    cases a with
    | nil => simp [maskFrom_nil, EndsAtMark] at h
    | cons c cs =>
      have hmove := move_append_of_endsAtMark h b
      by_cases hlast : cs.drop (r.move c cs).more = []
      · obtain ⟨hregion, hmore⟩ := region_of_endsAtMark h hlast
        rw [List.cons_append, maskFrom_cons, maskFrom_cons, hmove, Move.mask, Move.mask,
          List.take_append_of_le_length hmore, List.drop_append_of_le_length hmore, hlast, hregion,
          maskFrom_nil, List.nil_append, List.append_nil]
      · have hmore : (r.move c cs).more ≤ cs.length := by
          simp only [List.drop_eq_nil_iff] at hlast
          omega
        have hrest : EndsAtMark (maskFrom (r.move c cs).region (cs.drop (r.move c cs).more)) := by
          rw [maskFrom_cons, Move.mask] at h
          exact (endsAtMark_append (maskFrom_ne_nil _ hlast)).mp h
        have hlength : (cs.drop (r.move c cs).more).length < n := by
          rw [← hn, List.length_drop, List.length_cons]
          omega
        rw [List.cons_append, maskFrom_cons, maskFrom_cons, hmove, Move.mask, Move.mask,
          List.take_append_of_le_length hmore, List.drop_append_of_le_length hmore,
          ih _ hlength hrest rfl, List.append_assoc]

theorem mask_append {a : List Char} (h : EndsAtMark (mask a)) (b : List Char) :
    mask (a ++ b) = mask a ++ mask b :=
  maskFrom_append h b

/-! ## The segments of a text that ends at a mark -/

theorem segments_append_mark {c : Char} {mark : Mark} (hc : Mark.ofChar? c = some mark)
    (a b : List Char) :
    segments (a ++ c :: b) =
      ((segments a).1 ++ ((segments a).2, mark) :: (segments b).1, (segments b).2) := by
  induction a with
  | nil => rw [List.nil_append, segments_cons_of_mark hc]; rfl
  | cons d a ih =>
    cases hd : Mark.ofChar? d with
    | some mark' =>
      rw [List.cons_append, segments_cons_of_mark hd, segments_cons_of_mark hd, ih]
      rfl
    | none =>
      rw [List.cons_append, segments_cons_of_none hd, segments_cons_of_none hd, ih]
      rcases segments a with ⟨_ | ⟨piece, pieces⟩, tail⟩ <;> rfl

/-- A text that ends at a mark is cut for itself. -/
theorem segments_append {a : List Char} (h : EndsAtMark a) (b : List Char) :
    segments (a ++ b) = ((segments a).1 ++ (segments b).1, (segments b).2) := by
  obtain ⟨init, c, mark, rfl, hc⟩ := h.exists_eq
  rw [List.append_assoc, List.singleton_append, segments_append_mark hc, segments_append_mark hc]
  simp [segments]

/-- No character of the text is a mark. -/
def Unmarked (text : List Char) : Prop := ∀ c ∈ text, Mark.ofChar? c = none

instance (text : List Char) : Decidable (Unmarked text) :=
  decidable_of_iff ((text.all fun c => (Mark.ofChar? c).isNone) = true) (by simp [Unmarked])

theorem segments_of_unmarked {text : List Char} (h : Unmarked text) :
    segments text = ([], text) := by
  induction text with
  | nil => rfl
  | cons c text ih =>
    rw [segments_cons_of_none (h c List.mem_cons_self),
      ih fun d hd => h d (List.mem_cons_of_mem c hd)]
    rfl

end Source

end Recheck
