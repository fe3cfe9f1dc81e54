import Recheck.Path

/-!
# The order of paths

`Path.le` compares paths component by component. It is total and transitive (`Path.le_total`,
`Path.le_trans`). Sorting by such an order gives an ordered list (`pairwise_sortBy`), and elements
can be left out before or after it (`filter_sortBy`).
-/

namespace Recheck

/-! ## Components -/

namespace Component

theorem le_total (a b : Component) : le a b = true ∨ le b a = true := by
  cases a <;> cases b <;> simp [le, rank, Text.le_total]

theorem le_antisymm {a b : Component} (h : le a b = true) (h' : le b a = true) : a = b := by
  cases a <;> cases b <;> simp_all [le, rank]
  case name.name => exact Text.le_antisymm h h'

theorem le_trans {a b c : Component} (h : le a b = true) (h' : le b c = true) : le a c = true := by
  cases a <;> cases b <;> cases c <;> simp_all [le, rank]
  case name.name.name => exact Text.le_trans h h'

theorem listLe_total : ∀ as bs : List Component, listLe as bs = true ∨ listLe bs as = true
  | [], _ => .inl rfl
  | _ :: _, [] => .inr rfl
  | a :: as, b :: bs => by
    rw [listLe, listLe]
    by_cases hab : a = b
    · subst hab
      simpa using listLe_total as bs
    · rw [if_neg hab, if_neg (Ne.symm hab)]
      exact le_total a b

theorem listLe_trans : ∀ {as bs cs : List Component},
    listLe as bs = true → listLe bs cs = true → listLe as cs = true
  | [], _, _, _, _ => rfl
  | _ :: _, [], _, h, _ => by simp [listLe] at h
  | _ :: _, _ :: _, [], _, h => by simp [listLe] at h
  | a :: as, b :: bs, c :: cs, h, h' => by
    rw [listLe] at h h' ⊢
    by_cases hab : a = b
    · subst hab
      simp only [if_true] at h
      by_cases hac : a = c
      · subst hac
        simp only [if_true] at h' ⊢
        exact listLe_trans h h'
      · simpa [hac] using h'
    · rw [if_neg hab] at h
      by_cases hbc : b = c
      · subst hbc
        simpa [hab] using h
      · rw [if_neg hbc] at h'
        have hac : a ≠ c := by
          rintro rfl
          exact hab (le_antisymm h h')
        rw [if_neg hac]
        exact le_trans h h'

theorem listLe_antisymm : ∀ {as bs : List Component},
    listLe as bs = true → listLe bs as = true → as = bs
  | [], [], _, _ => rfl
  | [], _ :: _, _, h => by simp [listLe] at h
  | _ :: _, [], h, _ => by simp [listLe] at h
  | a :: as, b :: bs, h, h' => by
    rw [listLe] at h h'
    by_cases hab : a = b
    · subst hab
      simp only [if_true] at h h'
      rw [listLe_antisymm h h']
    · rw [if_neg hab] at h
      rw [if_neg (Ne.symm hab)] at h'
      exact absurd (le_antisymm h h') hab

end Component

/-! ## Paths -/

namespace Path

theorem le_total (p q : Path) : le p q = true ∨ le q p = true := Component.listLe_total _ _

theorem le_trans {p q r : Path} (h : le p q = true) (h' : le q r = true) : le p r = true :=
  Component.listLe_trans h h'

/-- Only spellings of one path may stand either way. -/
theorem le_antisymm {p q : Path} (h : le p q = true) (h' : le q p = true) : Same p q :=
  Component.listLe_antisymm h h'

end Path

/-! ## Sorting -/

section Sorting

variable {α : Type} {le : α → α → Bool}

theorem insertBy_of_forall_le {x : α} {ys : List α} (h : ∀ y ∈ ys, le x y = true) :
    insertBy le x ys = x :: ys := by
  cases ys with
  | nil => rfl
  | cons y ys => rw [insertBy, if_pos (h y List.mem_cons_self)]

variable (htrans : ∀ a b c, le a b = true → le b c = true → le a c = true)
include htrans

/-- An element is inserted into an ordered list as into any part of it. -/
theorem filter_insertBy (keep : α → Bool) (x : α) {ys : List α}
    (h : ys.Pairwise fun a b => le a b = true) :
    (insertBy le x ys).filter keep =
      if keep x then insertBy le x (ys.filter keep) else ys.filter keep := by
  induction ys with
  | nil => simp [insertBy, List.filter_cons]
  | cons y ys ih =>
    obtain ⟨hy, hys⟩ := List.pairwise_cons.mp h
    rw [insertBy]
    split
    · next hxy =>
      -- All that remains of the list comes after `x`.
      have hle : ∀ z ∈ (y :: ys).filter keep, le x z = true := by
        intro z hz
        rcases List.mem_cons.mp (List.mem_filter.mp hz).1 with rfl | hz
        · exact hxy
        · exact htrans x y z hxy (hy z hz)
      rw [insertBy_of_forall_le hle, List.filter_cons]
    · next hxy =>
      rw [List.filter_cons, List.filter_cons, ih hys]
      by_cases hky : keep y = true
      · by_cases hkx : keep x = true
        · simp only [hky, hkx, if_true]
          rw [insertBy, if_neg hxy]
        · simp [hky, hkx]
      · simp [hky]

variable (htotal : ∀ a b, le a b = true ∨ le b a = true)
include htotal

theorem pairwise_insertBy (x : α) {ys : List α} (h : ys.Pairwise fun a b => le a b = true) :
    (insertBy le x ys).Pairwise fun a b => le a b = true := by
  induction ys with
  | nil => exact List.pairwise_singleton _ _
  | cons y ys ih =>
    obtain ⟨hy, hys⟩ := List.pairwise_cons.mp h
    rw [insertBy]
    split
    · next hxy =>
      refine List.pairwise_cons.mpr ⟨fun z hz => ?_, h⟩
      rcases List.mem_cons.mp hz with rfl | hz
      · exact hxy
      · exact htrans x y z hxy (hy z hz)
    · next hxy =>
      refine List.pairwise_cons.mpr ⟨fun z hz => ?_, ih hys⟩
      rcases List.mem_cons.mp ((insertBy_perm le x ys).mem_iff.mp hz) with rfl | hz
      · exact (htotal y z).resolve_right hxy
      · exact hy z hz

theorem pairwise_sortBy (xs : List α) : (sortBy le xs).Pairwise fun a b => le a b = true := by
  induction xs with
  | nil => exact .nil
  | cons x xs ih => exact pairwise_insertBy htrans htotal x ih

/-- Elements can be left out before or after sorting. -/
theorem filter_sortBy (keep : α → Bool) (xs : List α) :
    (sortBy le xs).filter keep = sortBy le (xs.filter keep) := by
  induction xs with
  | nil => rfl
  | cons x xs ih =>
    have hsorted := pairwise_sortBy htrans htotal xs
    rw [sortBy, List.foldr_cons, ← sortBy, filter_insertBy htrans keep x hsorted, ih,
      List.filter_cons]
    split <;> rfl

end Sorting

theorem Path.pairwise_sort (ps : List Path) :
    (Path.sort ps).Pairwise fun p q => Path.le p q = true :=
  pairwise_sortBy (fun p q r => @Path.le_trans p q r) Path.le_total ps

/-- Elements can be left out before or after sorting by paths. -/
theorem filter_sortBy_path {α : Type} (path : α → Path) (keep : α → Bool) (xs : List α) :
    (sortBy (fun a b => Path.le (path a) (path b)) xs).filter keep =
      sortBy (fun a b => Path.le (path a) (path b)) (xs.filter keep) := by
  have htotal : ∀ a b, Path.le (path a) (path b) = true ∨ Path.le (path b) (path a) = true :=
    fun a b => Path.le_total (path a) (path b)
  exact filter_sortBy (fun a b c => @Path.le_trans (path a) (path b) (path c)) htotal keep xs

end Recheck
