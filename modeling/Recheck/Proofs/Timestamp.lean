import Recheck.Proofs.Decimal
import Recheck.Timestamp

/-!
# Timestamps written and read

A written timestamp is read as this timestamp, for every year that timestamps can have
(`Timestamp.parse?_text`). Each field is written in digits of a fixed number, or after a mark, so
each is read to its end.
-/

namespace Recheck.Timestamp

/-! ## Numbers -/

theorem not_isBlank_of_isDigit {c : Char} (h : c.isDigit = true) : Text.isBlank c = false := by
  simp only [Char.isDigit, Bool.and_eq_true, decide_eq_true_eq, ge_iff_le] at h
  have hlow : 48 ≤ c.toNat := h.1
  have hhigh : c.toNat ≤ 57 := h.2
  simp only [Text.isBlank, Bool.or_eq_false_iff, Bool.and_eq_false_iff, beq_eq_false_iff_ne,
    decide_eq_false_iff_not]
  omega

theorem isDigit_of_mem_padded {width n : Nat} : ∀ c ∈ padded width n, c.isDigit = true := by
  intro c hc
  rcases List.mem_append.mp hc with hc | hc
  · rw [List.eq_of_mem_replicate hc]
    rfl
  · exact Decimal.isDigit_of_mem_toDigits c hc

theorem value_padded (width n : Nat) : Decimal.value (padded width n) = n :=
  (Decimal.value_replicate_append _ _).trans (Decimal.value_toDigits n)

theorem padded_ne_nil (width n : Nat) : padded width n ≠ [] := by
  simp [padded, Nat.toDigits_ne_nil]

theorem length_padded {width n : Nat} (h : (Nat.toDigits 10 n).length ≤ width) :
    (padded width n).length = width := by
  simp only [padded, List.length_append, List.length_replicate]
  omega

theorem exists_cons_padded (width n : Nat) :
    ∃ d ds, padded width n = d :: ds ∧ d.isDigit = true := by
  cases hdigits : padded width n with
  | nil => exact absurd hdigits (padded_ne_nil width n)
  | cons d ds =>
    have hd : d ∈ padded width n := by simp [hdigits]
    exact ⟨d, ds, rfl, isDigit_of_mem_padded d hd⟩

theorem trimLeft_padded (width n : Nat) (rest : List Char) :
    Text.trimLeft (padded width n ++ rest) = padded width n ++ rest := by
  obtain ⟨d, ds, hdigits, hd⟩ := exists_cons_padded width n
  rw [hdigits]
  exact List.dropWhile_cons_of_neg (by simp [not_isBlank_of_isDigit hd])

/-- A number is read in as many digits as it was written in. -/
theorem number?_padded {width n : Nat} (h : (Nat.toDigits 10 n).length ≤ width) (rest : List Char) :
    number? width (padded width n ++ rest) = some (n, rest) := by
  have hdigits : ((padded width n ++ rest).takeWhile Char.isDigit).take width = padded width n := by
    rw [List.takeWhile_append_of_pos isDigit_of_mem_padded]
    exact List.take_left' (length_padded h)
  have hempty : (padded width n).isEmpty = false := by simp [padded_ne_nil]
  simp only [number?, trimLeft_padded, hdigits, hempty, value_padded, Bool.false_eq_true, if_false,
    List.drop_left]

theorem length_toDigits_le {n k : Nat} (hk : 0 < k) (h : n < Nat.pow 10 k) :
    (Nat.toDigits 10 n).length ≤ k :=
  (Nat.length_toDigits_le_iff (by decide) hk).mpr h

/-- A number below a hundred is read in two digits. -/
theorem number?_two {n : Nat} (h : n < 100) (rest : List Char) :
    number? 2 (padded 2 n ++ rest) = some (n, rest) :=
  number?_padded (length_toDigits_le (by decide) h) rest

/-! ## Years and fractions -/

theorem year?_yearText (year : Int) (rest : List Char) :
    year? (yearText year ++ '-' :: rest) = some (year, '-' :: rest) := by
  have hspan : ∀ n, Decimal.span (padded 4 n ++ '-' :: rest) = (padded 4 n, '-' :: rest) := fun n =>
    Decimal.span_append isDigit_of_mem_padded (Decimal.noDigit_cons rfl)
  have hempty : ∀ n, (padded 4 n).isEmpty = false := fun n => by simp [padded_ne_nil]
  rw [yearText]
  split
  · next h =>
    have hlength : (Nat.toDigits 10 year.toNat).length ≤ 4 :=
      length_toDigits_le (by decide) (by show year.toNat < 10000; omega)
    obtain ⟨d, ds, hdigits, hd⟩ := exists_cons_padded 4 year.toNat
    rw [year?, trimLeft_padded]
    split
    · next heq =>
      rw [hdigits] at heq
      obtain rfl := (List.cons.inj heq).1
      cases hd
    · next heq =>
      rw [hdigits] at heq
      obtain rfl := (List.cons.inj heq).1
      cases hd
    · rw [number?_padded hlength, Option.map_some]
      exact congrArg (fun y => some (y, '-' :: rest)) (Int.toNat_of_nonneg h.1)
  · next h =>
    split
    · next hneg =>
      rw [List.cons_append, year?,
        show ∀ cs, Text.trimLeft ('-' :: cs) = '-' :: cs from fun _ => rfl]
      simp only [hspan, hempty, value_padded, Bool.false_eq_true, if_false]
      rw [Int.ofNat_natAbs_of_nonpos (Int.le_of_lt hneg), Int.neg_neg]
    · next hneg =>
      rw [List.cons_append, year?,
        show ∀ cs, Text.trimLeft ('+' :: cs) = '+' :: cs from fun _ => rfl]
      simp only [hspan, hempty, value_padded, Bool.false_eq_true, if_false]
      rw [Int.natAbs_of_nonneg (Int.not_lt.mp hneg)]

/-- Digits after a point are read as the part of a second that they stand for. -/
theorem fraction?_padded {width n : Nat} (hwidth : width ≤ 9)
    (h : (Nat.toDigits 10 n).length ≤ width) (rest : List Char) :
    fraction? ('.' :: (padded width n ++ 'Z' :: rest)) =
      some (n * Nat.pow 10 (9 - width), 'Z' :: rest) := by
  have hspan : Decimal.span (padded width n ++ 'Z' :: rest) = (padded width n, 'Z' :: rest) :=
    Decimal.span_append isDigit_of_mem_padded (Decimal.noDigit_cons rfl)
  have hempty : (padded width n).isEmpty = false := by simp [padded_ne_nil]
  have htake : (padded width n).take 9 = padded width n :=
    List.take_of_length_le (by rw [length_padded h]; exact hwidth)
  simp only [fraction?, hspan, hempty, htake, value_padded, length_padded h, Bool.false_eq_true,
    if_false]

theorem fraction?_fractionText {nano : Nat} (h : nano < 1000000000) (rest : List Char) :
    fraction? (fractionText nano ++ 'Z' :: rest) = some (nano, 'Z' :: rest) := by
  rw [fractionText]
  split
  · next hzero =>
    rw [hzero]
    rfl
  split
  · next hmod =>
    have hlength : (Nat.toDigits 10 (nano / 1000000)).length ≤ 3 :=
      length_toDigits_le (by decide) (by show nano / 1000000 < 1000; omega)
    rw [List.cons_append, fraction?_padded (by decide) hlength,
      show nano / 1000000 * Nat.pow 10 (9 - 3) = nano from
        Nat.div_mul_cancel (Nat.dvd_of_mod_eq_zero hmod)]
  split
  · next hmod =>
    have hlength : (Nat.toDigits 10 (nano / 1000)).length ≤ 6 :=
      length_toDigits_le (by decide) (by show nano / 1000 < 1000000; omega)
    rw [List.cons_append, fraction?_padded (by decide) hlength,
      show nano / 1000 * Nat.pow 10 (9 - 6) = nano from
        Nat.div_mul_cancel (Nat.dvd_of_mod_eq_zero hmod)]
  · have hlength : (Nat.toDigits 10 nano).length ≤ 9 := length_toDigits_le (by decide) h
    rw [List.cons_append, fraction?_padded (by decide) hlength,
      show nano * Nat.pow 10 (9 - 9) = nano from Nat.mul_one nano]

/-! ## Timestamps -/

/-- The year of a timestamp is one that can be read. -/
def YearInRange (t : Timestamp) : Prop := -maxYear ≤ t.year ∧ t.year < maxYear

theorem ofFields?_self {t : Timestamp} (h : t.YearInRange) :
    ofFields? t.year t.month t.day t.hour t.minute t.second t.nano = some t := by
  rw [ofFields?, dif_pos ⟨t.month_mem, t.day_mem, t.hour_lt, t.minute_lt, t.second_le, t.nano_lt⟩,
    if_pos (show -maxYear ≤ t.year ∧ t.year < maxYear from h)]

theorem behind?_zero {t : Timestamp} (h : t.YearInRange) : t.behind? 0 = some t := by
  have hhour := t.hour_lt
  have hminute := t.minute_lt
  have hlow : ¬ (60 * (t.hour : Int) + t.minute - 0 < 0) := by omega
  have hhigh : ¬ (60 * (t.hour : Int) + t.minute - 0 ≥ 1440) := by omega
  have hclock : (60 * (t.hour : Int) + t.minute - 0).toNat = 60 * t.hour + t.minute := by omega
  have hdiv : (60 * t.hour + t.minute) / 60 = t.hour := by omega
  have hmod : (60 * t.hour + t.minute) % 60 = t.minute := by omega
  simp only [behind?, hlow, hhigh, hclock, hdiv, hmod, if_false]
  exact ofFields?_self h

theorem after?_cons {c : Char} (h : Text.isBlank c = false) (cs : List Char) :
    after? c (c :: cs) = some cs := by
  rw [after?, Text.trimLeft, List.dropWhile_cons_of_neg (by simp [h]), Text.stripStart?, if_pos rfl,
    Text.stripStart?]

theorem daysIn_le (year : Int) (month : Nat) : daysIn year month ≤ 31 := by
  rw [daysIn]
  split
  · split <;> decide
  · split <;> decide

/-- A written date is read up to the mark that ends it. -/
theorem date?_written (t : Timestamp) (rest : List Char) :
    date? (yearText t.year ++ '-' :: (padded 2 t.month ++ '-' :: (padded 2 t.day ++ rest))) =
      some ((t.year, t.month, t.day), rest) := by
  have hmonth : t.month < 100 := by have := t.month_mem; omega
  have hday : t.day < 100 := by have := t.day_mem; have := daysIn_le t.year t.month; omega
  have hmark := after?_cons (show Text.isBlank '-' = false from rfl)
  simp only [date?, year?_yearText, hmark, number?_two hmonth, number?_two hday,
    Option.bind_eq_bind, Option.bind_some]

theorem clock?_written (t : Timestamp) (rest : List Char) :
    clock? (padded 2 t.hour ++ ':' :: (padded 2 t.minute ++ ':' :: (padded 2 t.second ++
      (fractionText t.nano ++ 'Z' :: rest)))) =
      some ((t.hour, t.minute, t.second, t.nano), 'Z' :: rest) := by
  have hhour : t.hour < 100 := by have := t.hour_lt; omega
  have hminute : t.minute < 100 := by have := t.minute_lt; omega
  have hsecond : t.second < 100 := by have := t.second_le; omega
  have hmark := after?_cons (show Text.isBlank ':' = false from rfl)
  simp only [clock?, hmark, number?_two hhour, number?_two hminute, number?_two hsecond,
    fraction?_fractionText t.nano_lt, Option.bind_eq_bind, Option.bind_some]

/-- A written timestamp is read as this timestamp. -/
theorem parse?_text {t : Timestamp} (h : t.YearInRange) : parse? t.text = some t := by
  have htext : t.text.toList =
      yearText t.year ++ '-' :: (padded 2 t.month ++ '-' :: (padded 2 t.day ++
        'T' :: (padded 2 t.hour ++ ':' :: (padded 2 t.minute ++ ':' :: (padded 2 t.second ++
          (fractionText t.nano ++ ['Z'])))))) := by
    simp [text]
  have hmark : ∀ cs, afterDate? ('T' :: cs) = some cs := fun cs => rfl
  have hoffset : offset? (Text.trimLeft ['Z']) = some (0, []) := rfl
  simp only [parse?, htext, date?_written, hmark, clock?_written, hoffset, ofFields?_self h,
    Option.bind_eq_bind, Option.bind_some]
  exact behind?_zero h

theorem yearInRange_of_ofFields? {year : Int} {month day hour minute second nano : Nat}
    {t : Timestamp} (h : ofFields? year month day hour minute second nano = some t) :
    t.YearInRange := by
  rw [ofFields?] at h
  split at h
  · split at h
    · next hyear =>
      obtain rfl := Option.some.inj h
      exact hyear
    · cases h
  · cases h

/-- A timestamp that was read can be read again. -/
theorem yearInRange_of_parse? {text : String} {t : Timestamp} (h : parse? text = some t) :
    t.YearInRange := by
  simp only [parse?, Option.bind_eq_bind, Option.bind_eq_some_iff] at h
  obtain ⟨_, -, _, -, _, -, _, -, _, -, h⟩ := h
  split at h
  · exact yearInRange_of_ofFields? h
  · cases h

end Recheck.Timestamp
