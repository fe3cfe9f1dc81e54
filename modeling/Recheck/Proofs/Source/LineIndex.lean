import Recheck.Source.Lines

/-!
# Looking up a line by halving

A search by halving ends where its test stops holding, if the test holds at each index before one
at which it holds (`stopsAt_bisect`). In an array in which the elements that pass a test come before
the others, this index is their number (`partitionPoint_eq_countP`).

The starts of a line index ascend, so those up to an offset come before the others, and the line of
the offset is their number (`LineIndex.lineOf_eq_min_countP`). It grows with the offset and is at
most the number of lines, whatever the text.
-/

namespace Recheck

/-! ## Halving -/

/-- From `lo` to `hi`, the test holds before `stop` and fails from there on. -/
structure StopsAt (p : Nat → Bool) (lo hi stop : Nat) : Prop where
  lo_le : lo ≤ stop
  le_hi : stop ≤ hi
  holds : ∀ i, lo ≤ i → i < stop → p i = true
  fails : ∀ i, stop ≤ i → i < hi → p i = false

namespace StopsAt

variable {p : Nat → Bool} {lo mid hi stop : Nat}

/-- If the test holds up to `mid`, it stops where it stops behind `mid`. -/
theorem extend_left (h : StopsAt p (mid + 1) hi stop) (hlo : lo ≤ mid)
    (hleft : ∀ i, i ≤ mid → p i = true) : StopsAt p lo hi stop where
  lo_le := Nat.le_trans (Nat.le_succ_of_le hlo) h.lo_le
  le_hi := h.le_hi
  holds i _ hstop := by
    rcases Nat.lt_or_ge mid i with hlt | hle
    · exact h.holds i hlt hstop
    · exact hleft i hle
  fails := h.fails

/-- If the test fails from `mid` on, it stops where it stops before `mid`. -/
theorem extend_right (h : StopsAt p lo mid stop) (hhi : mid ≤ hi)
    (hright : ∀ i, mid ≤ i → p i = false) : StopsAt p lo hi stop where
  lo_le := h.lo_le
  le_hi := Nat.le_trans h.le_hi hhi
  holds := h.holds
  fails i hstop _ := by
    rcases Nat.lt_or_ge i mid with hlt | hle
    · exact h.fails i hstop hlt
    · exact hright i hle

end StopsAt

/-- Halving finds where a test stops holding, if it holds at each index before one at which it
holds. -/
theorem stopsAt_bisect {p : Nat → Bool} (hp : ∀ i j, i ≤ j → p j = true → p i = true) {lo hi : Nat}
    (h : lo ≤ hi) : StopsAt p lo hi (bisect p lo hi) := by
  fun_induction bisect p lo hi with
  | case1 lo hi hlt hmid ih =>
    exact (ih (by omega)).extend_left (by omega) fun i hle => hp i _ hle hmid
  | case2 lo hi hlt hmid ih =>
    refine (ih (by omega)).extend_right (by omega) fun i hle => ?_
    exact Bool.eq_false_iff.mpr fun hholds => hmid (hp _ i hle hholds)
  | case3 lo hi hlt =>
    -- Nothing is left of the range.
    obtain rfl : lo = hi := Nat.le_antisymm h (Nat.le_of_not_lt hlt)
    have hempty : ∀ i, lo ≤ i → ¬ i < lo := fun i => Nat.not_lt.mpr
    exact ⟨Nat.le_refl lo, Nat.le_refl lo, fun i hle hlt => absurd hlt (hempty i hle),
      fun i hle hlt => absurd hlt (hempty i hle)⟩

/-! ## Arrays in two parts -/

variable {α : Type} {q : α → Bool} {xs : Array α}

/-- The elements before the index at which the test stops are those that pass it. -/
theorem StopsAt.countP_eq {stop : Nat} (h : StopsAt (fun i => xs[i]?.any q) 0 xs.size stop) :
    xs.toList.countP q = stop := by
  have hlength : (xs.toList.take stop).length = stop := List.length_take_of_le h.le_hi
  have hbefore : (xs.toList.take stop).countP q = stop := by
    refine (List.countP_eq_length.mpr fun x hx => ?_).trans hlength
    obtain ⟨i, hi, rfl⟩ := List.mem_take_iff_getElem.mp hx
    have hlt : i < stop := Nat.lt_of_lt_of_le hi (Nat.min_le_left _ _)
    simpa [Nat.lt_of_lt_of_le hlt h.le_hi] using h.holds i (Nat.zero_le i) hlt
  have hbehind : (xs.toList.drop stop).countP q = 0 := by
    refine List.countP_eq_zero.mpr fun x hx => ?_
    obtain ⟨i, hi, rfl⟩ := List.mem_drop_iff_getElem.mp hx
    have hlt : stop + i < xs.size := by simpa [Nat.add_comm] using hi
    simpa [hlt] using h.fails (stop + i) (Nat.le_add_right stop i) hlt
  rw [← List.take_append_drop stop xs.toList, List.countP_append, hbefore, hbehind, Nat.add_zero]

/-- If each element before one that passes the test passes it too, halving counts those that
pass. -/
theorem partitionPoint_eq_countP (h : xs.toList.Pairwise fun a b => q b = true → q a = true) :
    partitionPoint q xs = xs.toList.countP q := by
  refine (StopsAt.countP_eq (stopsAt_bisect (fun i j hij hj => ?_) (Nat.zero_le _))).symm
  rcases Nat.eq_or_lt_of_le hij with rfl | hlt
  · exact hj
  · obtain ⟨b, hb, hqb⟩ := (Option.any_eq_true _ _).mp hj
    obtain ⟨hsize, rfl⟩ := Array.getElem?_eq_some_iff.mp hb
    have hqa := List.pairwise_iff_getElem.mp h i j (Nat.lt_trans hlt hsize) hsize hlt hqb
    exact (Option.any_eq_true _ _).mpr ⟨_, Array.getElem?_eq_getElem (Nat.lt_trans hlt hsize), hqa⟩

/-! ## Line indices -/

namespace LineIndex

/-- The line of an offset is the number of line starts up to it, unless that is too large. -/
theorem lineOf_eq_min_countP (index : LineIndex) (offset : Nat) :
    index.lineOf offset =
      min (index.starts.toList.countP fun start => start ≤ offset) maxLine := by
  have hparts : index.starts.toList.Pairwise fun a b =>
      decide (b ≤ offset) = true → decide (a ≤ offset) = true :=
    index.ascending.imp fun hlt hle => by
      simp only [decide_eq_true_eq] at hle ⊢
      omega
  rw [lineOf, partitionPoint_eq_countP hparts, Nat.min_def]

/-- A later offset lies in no earlier line. -/
theorem lineOf_le_lineOf (index : LineIndex) {a b : Nat} (h : a ≤ b) :
    index.lineOf a ≤ index.lineOf b := by
  have hcount : (index.starts.toList.countP fun start => start ≤ a) ≤
      index.starts.toList.countP fun start => start ≤ b :=
    List.countP_mono_left fun start _ hle => by
      simp only [decide_eq_true_eq] at hle ⊢
      omega
  rw [lineOf_eq_min_countP, lineOf_eq_min_countP]
  omega

theorem lineOf_le_lineCount (index : LineIndex) (offset : Nat) :
    index.lineOf offset ≤ index.lineCount := by
  rw [lineOf_eq_min_countP]
  exact Nat.le_trans (Nat.min_le_left _ _) List.countP_le_length

end LineIndex

end Recheck
