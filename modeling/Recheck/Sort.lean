/-!
# Sorting

`sortBy le` puts a list in the order `le` and keeps the order of elements that may stand either way.
Elements are inserted from the end of the list on, so a list that is almost in order, as listings of
files are, takes little more than one comparison for each element.
-/

namespace Recheck

variable {α : Type}

/-- The list with `x` in front of the first element that it may precede. -/
def insertBy (le : α → α → Bool) (x : α) : List α → List α
  | [] => [x]
  | y :: ys => if le x y then x :: y :: ys else y :: insertBy le x ys

/-- The list in the order `le`. -/
def sortBy (le : α → α → Bool) (xs : List α) : List α := xs.foldr (insertBy le) []

theorem insertBy_perm (le : α → α → Bool) (x : α) (ys : List α) :
    (insertBy le x ys).Perm (x :: ys) := by
  induction ys with
  | nil => exact .refl _
  | cons y ys ih =>
    rw [insertBy]
    split
    · exact .refl _
    · exact (ih.cons y).trans (.swap x y ys)

theorem sortBy_perm (le : α → α → Bool) (xs : List α) : (sortBy le xs).Perm xs := by
  induction xs with
  | nil => exact .refl _
  | cons x xs ih => exact (insertBy_perm le x (sortBy le xs)).trans (ih.cons x)

@[simp] theorem mem_sortBy {le : α → α → Bool} {xs : List α} {x : α} : x ∈ sortBy le xs ↔ x ∈ xs :=
  (sortBy_perm le xs).mem_iff

end Recheck
