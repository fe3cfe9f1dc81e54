/-!
# Line numbers

Positions in a text are byte offsets. A line index knows where each line starts, and so the line in
which a position lies. Lines count from one. The starts ascend, and so the line of a position is
found by halving.
-/

namespace Recheck

/-- The index between `lo` and `hi` at which `p` stops holding, if it holds up to some index and
fails from there on. The range is halved until it is empty. -/
def bisect (p : Nat → Bool) (lo hi : Nat) : Nat :=
  if lo < hi then
    if p (lo + (hi - lo) / 2) then bisect p (lo + (hi - lo) / 2 + 1) hi
    else bisect p lo (lo + (hi - lo) / 2)
  else lo
termination_by hi - lo

/-- The number of elements with `q` in an array where they come before the others. -/
def partitionPoint {α : Type} (q : α → Bool) (xs : Array α) : Nat :=
  bisect (fun i => xs[i]?.any q) 0 xs.size

namespace LineIndex

/-- The offsets just after the newlines of a text that starts at `offset`. -/
def startsAfter (offset : Nat) : List Char → List Nat
  | [] => []
  | c :: cs =>
    if c = '\n' then (offset + 1) :: startsAfter (offset + 1) cs
    else startsAfter (offset + c.utf8Size) cs

theorem lt_of_mem_startsAfter {offset start : Nat} {text : List Char}
    (h : start ∈ startsAfter offset text) : offset < start := by
  induction text generalizing offset with
  | nil => cases h
  | cons c text ih =>
    rw [startsAfter] at h
    split at h
    · rcases List.mem_cons.mp h with rfl | h
      · exact Nat.lt_succ_self offset
      · exact Nat.lt_of_succ_lt (ih h)
    · exact Nat.lt_of_le_of_lt (Nat.le_add_right _ _) (ih h)

theorem ascending_startsAfter (offset : Nat) (text : List Char) :
    (startsAfter offset text).Pairwise (· < ·) := by
  induction text generalizing offset with
  | nil => exact .nil
  | cons c text ih =>
    rw [startsAfter]
    split
    · exact .cons (fun _ => lt_of_mem_startsAfter) (ih _)
    · exact ih _

theorem ascending_starts (text : List Char) :
    (0 :: startsAfter 0 text).toArray.toList.Pairwise (· < ·) :=
  .cons (fun _ => lt_of_mem_startsAfter) (ascending_startsAfter 0 text)

end LineIndex

/-- The byte offsets at which the lines of a text start. -/
structure LineIndex where
  starts : Array Nat
  /-- The starts ascend. -/
  ascending : starts.toList.Pairwise (· < ·)

namespace LineIndex

/-- The largest line number. -/
def maxLine : Nat := 4294967295

/-- The line index of a text. -/
def ofText (text : List Char) : LineIndex :=
  ⟨(0 :: startsAfter 0 text).toArray, ascending_starts text⟩

/-- The line in which a position lies. A position past the end lies in the last line. -/
def lineOf (index : LineIndex) (offset : Nat) : Nat :=
  let line := partitionPoint (fun start => start ≤ offset) index.starts
  if line ≤ maxLine then line else maxLine

/-- The number of lines. -/
def lineCount (index : LineIndex) : Nat := index.starts.size

end LineIndex

end Recheck
