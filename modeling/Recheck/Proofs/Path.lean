import Mathlib.Data.List.Pairwise
import Recheck.Path

/-!
# Paths up to spelling

`Path.Same` is an equivalence, and the operations on lists of paths respect it:

* `memSame_iff`, `memSame_insert`, `memSame_foldl_insert`: what a list spells after insertions;
* `eq_of_same`: in a list without two spellings of one path, `Same` is equality;
* `pairwise_distinct`: `Path.distinct` gives such a list.
-/

namespace Recheck

/-- A further element is listed unless an earlier one stands for it. -/
theorem eraseDupsBy_concat {α : Type} (r : α → α → Bool) (xs : List α) (x : α) :
    (xs ++ [x]).eraseDupsBy r =
      if (xs.eraseDupsBy r).any (r x) then xs.eraseDupsBy r else xs.eraseDupsBy r ++ [x] := by
  -- The first element is taken out of the others, so the induction is on the length.
  induction hn : xs.length using Nat.strongRecOn generalizing xs with
  | ind n ih =>
    cases xs with
    | nil => simp [List.eraseDupsBy_cons]
    | cons y ys =>
      have hless : (ys.filter fun z => decide (r z y = false)).length < n := by
        rw [← hn, List.length_cons]
        exact Nat.lt_succ_of_le (List.length_filter_le ..)
      rw [List.cons_append, List.eraseDupsBy_cons, List.eraseDupsBy_cons, List.filter_append,
        List.any_cons]
      cases hxy : r x y with
      | true => simp [hxy]
      | false =>
        have hone : [x].filter (fun z => decide (r z y = false)) = [x] := by simp [hxy]
        rw [hone, ih _ hless _ rfl, Bool.false_or]
        split <;> rfl

namespace Path

theorem Same.refl (p : Path) : Same p p := rfl

theorem Same.symm {p q : Path} (h : Same p q) : Same q p := Eq.symm h

theorem Same.trans {p q r : Path} (h : Same p q) (h' : Same q r) : Same p r := Eq.trans h h'

/-! ## Membership up to spelling -/

theorem memSame_iff {p : Path} {ps : List Path} : memSame p ps = true ↔ ∃ q ∈ ps, Same q p := by
  simp only [memSame, List.any_eq_true, decide_eq_true_eq]
  rfl

theorem memSame_of_mem {p : Path} {ps : List Path} (h : p ∈ ps) : memSame p ps = true :=
  memSame_iff.mpr ⟨p, h, Same.refl p⟩

theorem memSame_congr {p q : Path} (ps : List Path) (h : Same p q) :
    memSame p ps = memSame q ps := by
  simp only [memSame]
  rw [show p.components = q.components from h]

theorem memSame_of_same {p q : Path} {ps : List Path} (h : Same p q) (hq : memSame q ps = true) :
    memSame p ps = true :=
  (memSame_congr ps h).trans hq

@[simp] theorem not_memSame_nil (p : Path) : memSame p [] = false := rfl

theorem memSame_cons {p q : Path} {ps : List Path} :
    memSame p (q :: ps) = true ↔ Same q p ∨ memSame p ps = true := by
  simp only [memSame_iff, List.mem_cons, exists_eq_or_imp]

theorem memSame_append {p : Path} {ps qs : List Path} :
    memSame p (ps ++ qs) = true ↔ memSame p ps = true ∨ memSame p qs = true := by
  simp only [memSame_iff, List.mem_append, or_and_right, exists_or]

theorem find?_spec {p q : Path} {ps : List Path} (h : find? p ps = some q) : q ∈ ps ∧ Same q p := by
  have hs := List.find?_some h
  exact ⟨List.mem_of_find?_eq_some h, of_decide_eq_true hs⟩

theorem find?_isSome {p : Path} {ps : List Path} : (find? p ps).isSome = memSame p ps := by
  rw [Bool.eq_iff_iff, find?, List.find?_isSome, memSame, List.any_eq_true]

/-! ## Insertion -/

theorem memSame_insert {p q : Path} {ps : List Path} :
    memSame q (insert ps p) = true ↔ memSame q ps = true ∨ Same p q := by
  rw [insert]
  split
  · next h => exact ⟨.inl, fun h' => h'.elim id fun hs => memSame_of_same hs.symm h⟩
  · rw [memSame_append, memSame_cons]
    simp

theorem mem_of_mem_insert {p q : Path} {ps : List Path} (h : q ∈ insert ps p) : q ∈ ps ∨ q = p := by
  rw [insert] at h
  split at h
  · exact .inl h
  · simpa using h

theorem memSame_foldl_insert {q : Path} {ps qs : List Path} :
    memSame q (qs.foldl insert ps) = true ↔ memSame q ps = true ∨ memSame q qs = true := by
  induction qs generalizing ps with
  | nil => simp
  | cons p qs ih => rw [List.foldl_cons, ih, memSame_insert, memSame_cons, or_assoc]

theorem mem_of_mem_foldl_insert {q : Path} {ps qs : List Path} (h : q ∈ qs.foldl insert ps) :
    q ∈ ps ∨ q ∈ qs := by
  induction qs generalizing ps with
  | nil => exact .inl h
  | cons p qs ih =>
    rcases ih h with h | h
    · refine (mem_of_mem_insert h).imp_right fun h => ?_
      rw [h]
      exact List.mem_cons_self ..
    · exact .inr (List.mem_cons_of_mem _ h)

/-! ## Lists without two spellings of one path -/

theorem eq_of_same {ps : List Path} (hd : ps.Pairwise fun p q => ¬ Same p q) {p q : Path}
    (hp : p ∈ ps) (hq : q ∈ ps) (h : Same p q) : p = q := by
  by_contra hne
  have : Std.Symm fun p q : Path => ¬ Same p q := ⟨fun _ _ hn hs => hn hs.symm⟩
  exact hd.forall hp hq hne h

/-- In a list without two spellings of one path, a member is spelled only by itself. -/
theorem mem_iff_memSame {ps qs : List Path} (hd : ps.Pairwise fun p q => ¬ Same p q) {p : Path}
    (hp : p ∈ ps) (hqs : qs ⊆ ps) : memSame p qs = true ↔ p ∈ qs := by
  refine ⟨fun h => ?_, memSame_of_mem⟩
  obtain ⟨q, hq, hs⟩ := memSame_iff.mp h
  rwa [← eq_of_same hd (hqs hq) hp hs]

theorem pairwise_insert {ps : List Path} (hd : ps.Pairwise fun p q => ¬ Same p q) (p : Path) :
    (insert ps p).Pairwise fun p q => ¬ Same p q := by
  rw [insert]
  split
  · exact hd
  · next h =>
    refine List.pairwise_append.mpr ⟨hd, List.pairwise_singleton _ _, fun q hq r hr hs => h ?_⟩
    rw [List.mem_singleton.mp hr] at hs
    exact memSame_iff.mpr ⟨q, hq, hs⟩

theorem pairwise_foldl_insert {ps : List Path} (hd : ps.Pairwise fun p q => ¬ Same p q)
    (qs : List Path) : (qs.foldl insert ps).Pairwise fun p q => ¬ Same p q := by
  induction qs generalizing ps with
  | nil => exact hd
  | cons q qs ih => exact ih (pairwise_insert hd q)

theorem pairwise_distinct (ps : List Path) : (distinct ps).Pairwise fun p q => ¬ Same p q :=
  pairwise_foldl_insert .nil ps

theorem foldl_insert_eq_append {ps qs : List Path}
    (hd : (ps ++ qs).Pairwise fun p q => ¬ Same p q) : qs.foldl insert ps = ps ++ qs := by
  induction qs generalizing ps with
  | nil => exact (List.append_nil ps).symm
  | cons q qs ih =>
    have hnew : memSame q ps = false := Bool.eq_false_iff.mpr fun hq => by
      obtain ⟨p, hp, hs⟩ := memSame_iff.mp hq
      exact (List.pairwise_append.mp hd).2.2 p hp q List.mem_cons_self hs
    rw [List.foldl_cons, insert, hnew, if_neg Bool.false_ne_true, ih (by simpa using hd),
      List.append_assoc, List.singleton_append]

/-- A list without two spellings of one path stays as it is. -/
theorem distinct_eq_self {ps : List Path} (hd : ps.Pairwise fun p q => ¬ Same p q) :
    distinct ps = ps :=
  foldl_insert_eq_append hd

theorem mem_of_mem_distinct {p : Path} {ps : List Path} (h : p ∈ distinct ps) : p ∈ ps := by
  simpa using mem_of_mem_foldl_insert h

/-! ## Sorting -/

@[simp] theorem mem_sort {p : Path} {ps : List Path} : p ∈ sort ps ↔ p ∈ ps := mem_sortBy

end Path

end Recheck
