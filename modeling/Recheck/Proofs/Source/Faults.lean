import Recheck.Proofs.Source.Offsets

/-!
# Where braces do not match

A source whose braces do not match is refused, and the fault names a line
(`scan_accepts_or_names_line`): that of the first closing brace that closes nothing, or, if each
closes something, that of the last opening brace that is not closed. The first is the closing brace
behind a text with a balanced word of braces, the second the opening brace before such a text, so
both can be said without counting braces (`FirstUnmatched`, `LastUnclosed`).
-/

namespace Recheck

namespace Source

/-- The closing brace behind `before` closes nothing, and each one before it closes something. -/
structure FirstUnmatched (text before : List Char) : Prop where
  exists_after : ∃ after, text = before ++ '\x7d' :: after
  balanced : Balanced (braces before)

/-- The opening brace behind `before` is not closed, and each one after it is. -/
structure LastUnclosed (text before : List Char) : Prop where
  exists_after : ∃ after, text = before ++ '\x7b' :: after ∧ Balanced (braces after)

/-- The line of a byte of a source: one more than the newlines before it, if there is a number for
that line. -/
def lineAt (source : List Char) (offset : Nat) : Nat :=
  lineAfter (((encode source).take offset).count 0x0A)

/-! ## Finding the brace -/

theorem exists_unmatched {text : List Char} {n : Nat} (h : text.foldlM openAfter n = none) :
    ∃ before after, text = before ++ '\x7d' :: after ∧ before.foldlM openAfter n = some 0 := by
  induction text generalizing n with
  | nil => cases h
  | cons c text ih =>
    rw [List.foldlM_cons, Option.bind_eq_bind] at h
    cases hc : openAfter n c with
    | none =>
      have hclose : c = '\x7d' ∧ n = 0 := by
        rw [openAfter] at hc
        split_ifs at hc with hopen hclose
        exact ⟨hclose, Nat.ppred_eq_none.mp hc⟩
      exact ⟨[], text, by rw [hclose.1]; rfl, by rw [hclose.2]; rfl⟩
    | some m =>
      rw [hc, Option.bind_some] at h
      obtain ⟨before, after, rfl, hbefore⟩ := ih h
      refine ⟨c :: before, after, rfl, ?_⟩
      rw [List.foldlM_cons, hc]
      exact hbefore

/-- A text with balanced braces leaves the open braces as they are. -/
theorem Balanced.foldlM_text {text : List Char} (h : Balanced (braces text)) (n : Nat) :
    text.foldlM openAfter n = some n := by
  have hkeep : ∀ c : Char, (decide (c = '\x7b') || decide (c = '\x7d')) = false →
      c ≠ '\x7b' ∧ c ≠ '\x7d' := by simp
  rw [← foldlM_openAfter_filter hkeep]
  exact h.foldlM_openAfter n

theorem exists_unclosed {text : List Char} {n : Nat}
    (h : text.foldlM openAfter 0 = some (n + 1)) :
    ∃ before after, text = before ++ '\x7b' :: after ∧ before.foldlM openAfter 0 = some n ∧
      Balanced (braces after) := by
  -- Behind a closing brace the search goes on before the brace that it closes.
  induction hlength : text.length using Nat.strongRecOn generalizing text n with
  | ind length ih =>
    rcases List.eq_nil_or_concat text with rfl | ⟨init, c, rfl⟩
    · cases h
    · rw [List.concat_eq_append] at h hlength ⊢
      rw [List.length_append, List.length_singleton] at hlength
      rw [List.foldlM_append, Option.bind_eq_bind] at h
      obtain ⟨m, hinit, hlast⟩ := Option.bind_eq_some_iff.mp h
      have hc : openAfter m c = some (n + 1) := by simpa using hlast
      by_cases hopen : c = '\x7b'
      · subst hopen
        obtain rfl : m = n := Nat.succ.inj (Option.some.inj hc)
        exact ⟨init, [], rfl, hinit, .nil⟩
      · by_cases hclose : c = '\x7d'
        · subst hclose
          obtain rfl : n + 1 + 1 = m := Nat.ppred_eq_some.mp hc
          obtain ⟨before, inner, rfl, hbefore, hinner⟩ := ih init.length (by omega) hinit rfl
          obtain ⟨before', between, rfl, hbefore', hbetween⟩ :=
            ih before.length (by simp at hlength; omega) hbefore rfl
          refine ⟨before', between ++ '\x7b' :: inner ++ ['\x7d'], by simp, hbefore', ?_⟩
          rw [balanced_braces_iff, List.foldlM_append, List.foldlM_append, hbetween.foldlM_text]
          simp only [Option.bind_eq_bind, Option.bind_some, List.foldlM_cons]
          rw [show openAfter 0 '\x7b' = some 1 from rfl, Option.bind_some, hinner.foldlM_text]
          rfl
        · rw [openAfter_of_ne hopen hclose] at hc
          obtain rfl := Option.some.inj hc
          obtain ⟨before, after, rfl, hbefore, hafter⟩ := ih init.length (by omega) hinit rfl
          refine ⟨before, after ++ [c], by simp, hbefore, ?_⟩
          rw [balanced_braces_iff, List.foldlM_append, hafter.foldlM_text]
          simp [openAfter_of_ne hopen hclose]

/-- Braces that form no balanced word have a closing one too many or an opening one. -/
theorem firstUnmatched_or_lastUnclosed {text : List Char} (h : ¬ Balanced (braces text)) :
    (∃ before, FirstUnmatched text before) ∨
      (¬ ∃ before, FirstUnmatched text before) ∧ ∃ before, LastUnclosed text before := by
  cases hopen : text.foldlM openAfter 0 with
  | none =>
    obtain ⟨before, after, rfl, hbefore⟩ := exists_unmatched hopen
    exact .inl ⟨before, ⟨after, rfl⟩, balanced_braces_iff.mpr hbefore⟩
  | some n =>
    right
    constructor
    · rintro ⟨before, ⟨after, rfl⟩, hbefore⟩
      rw [List.foldlM_append, balanced_braces_iff.mp hbefore] at hopen
      cases hopen
    · cases n with
      | zero => exact absurd (balanced_braces_iff.mpr hopen) h
      | succ n =>
        obtain ⟨before, after, htext, -, hafter⟩ := exists_unclosed hopen
        exact ⟨before, after, htext, hafter⟩

/-! ## The fault -/

theorem pass_closeBrace_error (file : Path) (s : ScanState) (segment : List Char)
    (hs : s.braces = []) : s.pass file (segment, .closeBrace) =
      .error (.unmatched (lineAfter (s.newlines + segment.count '\n'))) := by
  obtain ⟨declarations, current, braces, newlines⟩ := s
  obtain rfl : braces = [] := hs
  rfl

variable {file : Path} {s : ScanState}

/-- The newlines before a mark, counted by the scan and in the bytes of the source. -/
theorem lineAfter_eq_lineAt {source before after : List Char}
    (hmask : mask source = before ++ after) (hs : Passes file before {} s) :
    lineAfter (s.newlines + (segments before).2.count '\n') =
      lineAt source (encode before).length := by
  have hnewlines := hs.newlines_eq
  rw [hnewlines, lineAt, ← count_take_mask, hmask, encode_append, List.take_left, count_encode]
  simp

theorem FirstUnmatched.scan_eq {source before : List Char}
    (h : FirstUnmatched (mask source) before) (file : Path) :
    scan file source = .error (.unmatched (lineAt source (encode before).length)) := by
  obtain ⟨⟨after, hmask⟩, hbefore⟩ := h
  obtain ⟨s, hs, hbraces⟩ := exists_passes_of_balanced (s := {}) file hbefore
  have hmark : Mark.ofChar? '\x7d' = some .closeBrace := rfl
  rw [scan, hmask, segments_append_mark hmark, List.foldlM_append, show _ = _ from hs]
  simp only [bind, Except.bind, List.foldlM_cons, pass_closeBrace_error file s _ hbraces]
  rw [lineAfter_eq_lineAt hmask hs]

/-- What precedes a text without an unmatched brace can be passed. -/
theorem exists_passes_of_not_unmatched (file : Path) {before after : List Char}
    (h : ¬ ∃ start, FirstUnmatched (before ++ after) start) : ∃ s, Passes file before {} s := by
  cases hopen : before.foldlM openAfter 0 with
  | none =>
    obtain ⟨start, rest, rfl, hstart⟩ := exists_unmatched hopen
    have hunmatched : FirstUnmatched (start ++ '\x7d' :: rest ++ after) start :=
      ⟨⟨rest ++ after, by simp⟩, balanced_braces_iff.mpr hstart⟩
    exact absurd ⟨start, hunmatched⟩ h
  | some depth =>
    have hdepth : ((segments before).1.map (·.2.char)).foldlM openAfter 0 = some depth :=
      (foldlM_openAfter_segments before 0).trans hopen
    obtain ⟨s, -, hpass, -, -⟩ :=
      foldlM_pass_base file (s := {}) (List.nil_append []).symm hdepth
    exact ⟨s, hpass⟩

theorem LastUnclosed.scan_eq {source before : List Char} (h : LastUnclosed (mask source) before)
    (hnone : ¬ ∃ start, FirstUnmatched (mask source) start) (file : Path) :
    scan file source = .error (.unclosed (lineAt source (encode before).length)) := by
  obtain ⟨after, hmask, hafter⟩ := h.exists_after
  obtain ⟨s, hs⟩ := exists_passes_of_not_unmatched file (hmask ▸ hnone)
  obtain ⟨s', hpass, hs'⟩ := pass_openBrace_braces file s (segments before).2
  obtain ⟨s'', hrest, hs''⟩ := exists_passes_of_balanced (s := s') file hafter
  have hmark : Mark.ofChar? '\x7b' = some .openBrace := rfl
  have hfold : (segments (mask source)).1.foldlM (ScanState.pass file) {} = .ok s'' := by
    rw [hmask, segments_append_mark hmark, List.foldlM_append, show _ = _ from hs]
    simp only [bind, Except.bind, List.foldlM_cons, hpass]
    exact hrest
  rw [hs', lineAfter_eq_lineAt hmask hs] at hs''
  simp only [scan, hfold, hs'']

/-- The scan never goes wrong with an offset. It succeeds exactly if the braces of the mask form a
balanced word; otherwise it names the line of the first closing brace that closes nothing or, if
each closes something, of the last opening brace that is not closed. -/
theorem scan_accepts_or_names_line (file : Path) (source : List Char) :
    scanByOffsets file source = (scan file source).mapError Stop.fault ∧
    ((∃ declarations, scan file source = .ok declarations) ↔ Balanced (braces (mask source))) ∧
    (¬ Balanced (braces (mask source)) →
      (∃ before, FirstUnmatched (mask source) before ∧
        scan file source = .error (.unmatched (lineAt source (encode before).length))) ∨
      (¬ ∃ before, FirstUnmatched (mask source) before) ∧
        ∃ before, LastUnclosed (mask source) before ∧
          scan file source = .error (.unclosed (lineAt source (encode before).length))) := by
  refine ⟨scanByOffsets_eq file source, exists_scan_iff, fun hbraces => ?_⟩
  rcases firstUnmatched_or_lastUnclosed hbraces with ⟨before, h⟩ | ⟨hnone, before, h⟩
  · exact .inl ⟨before, h, h.scan_eq file⟩
  · exact .inr ⟨hnone, before, h, h.scan_eq hnone file⟩

end Source

end Recheck
