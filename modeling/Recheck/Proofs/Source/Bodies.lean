import Recheck.Proofs.Source.Marks
import Recheck.Proofs.Source.MemberNames
import Recheck.Proofs.Source.Reading

/-!
# Adding to the body of a declaration

The scan reads the segments directly inside the braces of a declaration; deeper inside it only
counts braces (`foldlM_pass_deep`). So a text that is put into a body behind a member leaves what is
reported as it is, if the segments directly inside the braces name no new member
(`InBody.scanUpToLines_insert`).
-/

namespace Recheck

namespace Source

/-! ## Passing a text -/

/-- Passing the segments of the text that end at marks takes the one state to the other. -/
def Passes (file : Path) (text : List Char) (s s' : ScanState) : Prop :=
  (segments text).1.foldlM (ScanState.pass file) s = .ok s'

variable {file : Path} {a b : List Char} {s s' s'' : ScanState}

theorem Passes.append (ha : Passes file a s s') (hend : EndsAtMark a) (hb : Passes file b s' s'') :
    Passes file (a ++ b) s s'' := by
  rw [Passes] at ha
  rw [Passes, segments_append hend, List.foldlM_append, ha]
  exact hb

theorem Passes.foldlM_mask (ha : Passes file (mask a) s s') (hend : EndsAtMark (mask a))
    (rest : List Char) :
    (segments (mask (a ++ rest))).1.foldlM (ScanState.pass file) s =
      (segments (mask rest)).1.foldlM (ScanState.pass file) s' := by
  rw [Passes] at ha
  rw [mask_append hend, segments_append hend, List.foldlM_append, ha]
  rfl

theorem passes_mark {segment : List Char} {c : Char} {mark : Mark} (hsegment : Unmarked segment)
    (hc : Mark.ofChar? c = some mark) (h : s.pass file (segment, mark) = .ok s') :
    Passes file (segment ++ [c]) s s' := by
  rw [Passes, segments_append_mark hc, segments_of_unmarked hsegment]
  simp only [List.nil_append, segments, List.foldlM_cons, h, List.foldlM_nil]
  rfl

/-! ## Open braces -/

section Pass

variable (file s) (segment : List Char)

theorem pass_openBrace_braces : ∃ s', s.pass file (segment, .openBrace) = .ok s' ∧
    s'.braces = lineAfter (s.newlines + segment.count '\n') :: s.braces := by
  obtain ⟨declarations, current, braces, newlines⟩ := s
  rcases braces with _ | ⟨line, _ | ⟨line', lines⟩⟩ <;> exact ⟨_, rfl, rfl⟩

theorem pass_closeBrace_braces {line : Nat} {lines : List Nat} (hs : s.braces = line :: lines) :
    ∃ s', s.pass file (segment, .closeBrace) = .ok s' ∧ s'.braces = lines := by
  obtain ⟨declarations, current, braces, newlines⟩ := s
  obtain rfl : braces = _ := hs
  cases lines <;> exact ⟨_, rfl, rfl⟩

theorem pass_semicolon_braces : ∃ s', s.pass file (segment, .semicolon) = .ok s' ∧
    s'.braces = s.braces := by
  obtain ⟨declarations, current, braces, newlines⟩ := s
  rcases braces with _ | ⟨line, _ | ⟨line', lines⟩⟩ <;> exact ⟨_, rfl, rfl⟩

end Pass

/-- A segment leaves the braces that it does not close. -/
theorem pass_base (file : Path) {base extra : List Nat} {depth : Nat} {piece : List Char × Mark}
    (hs : s.braces = extra ++ base) (hdepth : openAfter extra.length piece.2.char = some depth) :
    ∃ s' extra', s.pass file piece = .ok s' ∧ s'.braces = extra' ++ base ∧
      extra'.length = depth := by
  obtain ⟨segment, mark⟩ := piece
  cases mark with
  | openBrace =>
    obtain rfl : extra.length + 1 = depth := Option.some.inj hdepth
    obtain ⟨s', hpass, hs'⟩ := pass_openBrace_braces file s segment
    exact ⟨s', _ :: extra, hpass, by rw [hs', hs, List.cons_append], rfl⟩
  | closeBrace =>
    cases extra with
    | nil => cases hdepth
    | cons line extra =>
      obtain rfl : extra.length = depth := Option.some.inj hdepth
      obtain ⟨s', hpass, hs'⟩ := pass_closeBrace_braces file s segment hs
      exact ⟨s', extra, hpass, hs', rfl⟩
  | semicolon =>
    obtain rfl : extra.length = depth := Option.some.inj hdepth
    obtain ⟨s', hpass, hs'⟩ := pass_semicolon_braces file s segment
    exact ⟨s', extra, hpass, by rw [hs', hs], rfl⟩

theorem foldlM_pass_base (file : Path) {base extra : List Nat} {depth : Nat}
    {pieces : List (List Char × Mark)} (hs : s.braces = extra ++ base)
    (hdepth : (pieces.map (·.2.char)).foldlM openAfter extra.length = some depth) :
    ∃ s' extra', pieces.foldlM (ScanState.pass file) s = .ok s' ∧ s'.braces = extra' ++ base ∧
      extra'.length = depth := by
  induction pieces generalizing s extra with
  | nil =>
    obtain rfl : extra.length = depth := Option.some.inj hdepth
    exact ⟨s, extra, rfl, hs, rfl⟩
  | cons piece pieces ih =>
    rw [List.map_cons, List.foldlM_cons, Option.bind_eq_bind] at hdepth
    obtain ⟨next, hnext, hdepth⟩ := Option.bind_eq_some_iff.mp hdepth
    obtain ⟨s', extra', hpass, hs', rfl⟩ := pass_base file hs hnext
    rw [List.foldlM_cons, hpass]
    exact ih hs' hdepth

/-- A text with balanced braces closes none of the open ones. -/
theorem exists_passes_of_balanced (file : Path) {text : List Char} (h : Balanced (braces text)) :
    ∃ s', Passes file text s s' ∧ s'.braces = s.braces := by
  obtain ⟨s', extra, hpass, hs', hextra⟩ :=
    foldlM_pass_base file (List.nil_append s.braces).symm h.foldlM_segments
  obtain rfl := List.eq_nil_of_length_eq_zero hextra
  exact ⟨s', hpass, hs'⟩

/-! ## Deeper than a member -/

/-- Inside a member nothing is read. -/
theorem pass_deep (file : Path) {base extra : List Nat} {depth : Nat} {piece : List Char × Mark}
    (hbase : 2 ≤ base.length) (hs : s.braces = extra ++ base)
    (hdepth : openAfter extra.length piece.2.char = some depth) :
    ∃ extra' newlines, s.pass file piece = .ok { s with braces := extra' ++ base, newlines } ∧
      extra'.length = depth := by
  obtain ⟨segment, mark⟩ := piece
  obtain ⟨declarations, current, braces, lines⟩ := s
  obtain ⟨inner, outer, base, rfl⟩ : ∃ inner outer rest, base = inner :: outer :: rest := by
    match base, hbase with
    | inner :: outer :: rest, _ => exact ⟨inner, outer, rest, rfl⟩
  obtain rfl : braces = _ := hs
  let newlines := lines + segment.count '\n'
  cases mark with
  | openBrace =>
    obtain rfl : extra.length + 1 = depth := Option.some.inj hdepth
    refine ⟨lineAfter newlines :: extra, newlines, ?_, rfl⟩
    rcases extra with _ | ⟨line, _ | ⟨line', extra⟩⟩ <;> rfl
  | closeBrace =>
    cases extra with
    | nil => cases hdepth
    | cons line extra =>
      obtain rfl : extra.length = depth := Option.some.inj hdepth
      refine ⟨extra, newlines, ?_, rfl⟩
      cases extra <;> rfl
  | semicolon =>
    obtain rfl : extra.length = depth := Option.some.inj hdepth
    refine ⟨extra, newlines, ?_, rfl⟩
    rcases extra with _ | ⟨line, _ | ⟨line', extra⟩⟩ <;> rfl

theorem foldlM_pass_deep (file : Path) {base extra : List Nat} {depth : Nat}
    {pieces : List (List Char × Mark)} (hbase : 2 ≤ base.length) (hs : s.braces = extra ++ base)
    (hdepth : (pieces.map (·.2.char)).foldlM openAfter extra.length = some depth) :
    ∃ extra' newlines,
      pieces.foldlM (ScanState.pass file) s = .ok { s with braces := extra' ++ base, newlines } ∧
        extra'.length = depth := by
  induction pieces generalizing s extra with
  | nil =>
    obtain rfl : extra.length = depth := Option.some.inj hdepth
    exact ⟨extra, s.newlines, by rw [← hs]; rfl, rfl⟩
  | cons piece pieces ih =>
    rw [List.map_cons, List.foldlM_cons, Option.bind_eq_bind] at hdepth
    obtain ⟨next, hnext, hdepth⟩ := Option.bind_eq_some_iff.mp hdepth
    obtain ⟨extra', newlines, hpass, rfl⟩ := pass_deep file hbase hs hnext
    rw [List.foldlM_cons, hpass]
    exact ih rfl hdepth

/-- A block of a member is passed as a whole; only what stands before it is read. -/
theorem passes_block (file : Path) {segment inner : List Char} {line : Nat}
    (hsegment : Unmarked segment) (hinner : Balanced (braces inner)) (hs : s.braces = [line]) :
    ∃ newlines, Passes file (segment ++ ['\x7b'] ++ (inner ++ ['\x7d'])) s
      { s with current := s.current.map (·.add segment), newlines } := by
  obtain ⟨declarations, current, braces, lines⟩ := s
  obtain rfl : braces = [line] := hs
  let inside : ScanState :=
    { declarations, current := current.map (·.add segment)
      braces := [lineAfter (lines + segment.count '\n'), line]
      newlines := lines + segment.count '\n' }
  obtain ⟨extra, newlines, hpass, hextra⟩ :=
    foldlM_pass_deep file (show 2 ≤ inside.braces.length from le_refl 2) (List.nil_append _).symm
      hinner.foldlM_segments
  obtain rfl := List.eq_nil_of_length_eq_zero hextra
  have hopen : Passes file (segment ++ ['\x7b'])
      { declarations, current, braces := [line], newlines := lines } inside :=
    passes_mark hsegment rfl rfl
  refine ⟨newlines + (segments inner).2.count '\n', hopen.append ?_ ?_⟩
  · exact (endsAtMark_append (List.cons_ne_nil _ _)).mpr rfl
  · have hmark : Mark.ofChar? '\x7d' = some .closeBrace := rfl
    rw [Passes, segments_append_mark hmark, List.foldlM_append, hpass]
    rfl

/-! ## Inside a declaration -/

/-- The scan is directly inside the braces of a declaration, behind a segment: `d` is what is known
of it. -/
structure ScanState.Reads (s : ScanState) (d : Declaration) : Prop where
  current : s.current = some { declaration := d, fresh := false }
  inside : ∃ line, s.braces = [line]

/-- The segment names no member, or one that is reported anyway. -/
def Quiet (d : Declaration) (segment : List Char) : Prop :=
  ∀ name, Names d.name segment name → String.ofList name ∈ d.members

theorem quiet_iff {d : Declaration} {segment : List Char} :
    Quiet d segment ↔ ∀ name ∈ memberName? d.name segment, String.ofList name ∈ d.members :=
  forall_congr' fun _ => imp_congr_left memberName?_eq_some_iff.symm

instance (d : Declaration) (segment : List Char) : Decidable (Quiet d segment) :=
  decidable_of_iff
    (((memberName? d.name segment).all fun name => d.members.contains (String.ofList name)) = true)
    (by rw [quiet_iff]; cases memberName? d.name segment <;> simp)

theorem Quiet.add_eq {d : Declaration} {segment : List Char} (h : Quiet d segment) :
    OpenDeclaration.add { declaration := d, fresh := false } segment =
      { declaration := d, fresh := false } := by
  rw [OpenDeclaration.add]
  cases hname : memberName? d.name segment with
  | none => rfl
  | some name =>
    have hmem := quiet_iff.mp h name hname
    simp [hmem]

theorem quiet_nil (d : Declaration) : Quiet d [] := by
  rw [quiet_iff]
  rintro name ⟨⟩

/-- Texts that end a member and add none: a semicolon, or a block; behind a block the member can go
on, where the stretch up to the next mark must not be taken for a member. -/
inductive Ends (d : Declaration) : List Char → Prop where
  | semicolon : Ends d [';']
  | block {inner : List Char} (hinner : Balanced (braces inner)) :
    Ends d ('\x7b' :: (inner ++ ['\x7d']))
  | more {inner segment rest : List Char} (hinner : Balanced (braces inner))
    (hmarks : Unmarked segment) (hquiet : Quiet d segment) (hrest : Ends d rest) :
    Ends d ('\x7b' :: (inner ++ ['\x7d']) ++ (segment ++ rest))

theorem Ends.ne_nil {d : Declaration} {tail : List Char} (h : Ends d tail) : tail ≠ [] := by
  cases h <;> simp

theorem Ends.endsAtMark {d : Declaration} {tail : List Char} (h : Ends d tail) :
    EndsAtMark tail := by
  induction h with
  | semicolon => rfl
  | @block inner _ =>
    have hlast := @endsAtMark_append ('\x7b' :: inner) ['\x7d'] (List.cons_ne_nil _ _)
    exact hlast.mpr rfl
  | @more inner segment rest _ _ _ hrest ih =>
    rw [endsAtMark_append (by simp [hrest.ne_nil]), endsAtMark_append hrest.ne_nil]
    exact ih

theorem ScanState.Reads.map_add {d : Declaration} {segment : List Char} (hs : s.Reads d)
    (hquiet : Quiet d segment) : s.current.map (·.add segment) = s.current := by
  rw [hs.current, Option.map_some, hquiet.add_eq]

theorem passes_quiet_block (file : Path) {d : Declaration} {segment inner : List Char}
    (hs : s.Reads d) (hmarks : Unmarked segment) (hquiet : Quiet d segment)
    (hinner : Balanced (braces inner)) :
    ∃ newlines, Passes file (segment ++ ['\x7b'] ++ (inner ++ ['\x7d'])) s { s with newlines } := by
  obtain ⟨line, hline⟩ := hs.inside
  have hpasses := passes_block file hmarks hinner hline
  rwa [hs.map_add hquiet] at hpasses

theorem passes_quiet_semicolon (file : Path) {d : Declaration} {segment : List Char}
    (hs : s.Reads d) (hmarks : Unmarked segment) (hquiet : Quiet d segment) :
    ∃ newlines, Passes file (segment ++ [';']) s { s with newlines } := by
  obtain ⟨line, hline⟩ := hs.inside
  have hmark : Mark.ofChar? ';' = some .semicolon := rfl
  refine ⟨s.newlines + segment.count '\n', passes_mark hmarks hmark ?_⟩
  rw [← hs.map_add hquiet]
  obtain ⟨declarations, current, braces, lines⟩ := s
  obtain rfl : braces = [line] := hline
  rfl

/-- A member that ends so and whose first stretch is not taken for a member changes nothing. -/
theorem Ends.passes (file : Path) {d : Declaration} {segment tail : List Char} (h : Ends d tail)
    (hs : s.Reads d) (hmarks : Unmarked segment) (hquiet : Quiet d segment) :
    ∃ newlines, Passes file (segment ++ tail) s { s with newlines } := by
  induction h generalizing s segment with
  | semicolon => exact passes_quiet_semicolon file hs hmarks hquiet
  | @block inner hinner => simpa using passes_quiet_block file hs hmarks hquiet hinner
  | @more inner next rest hinner hnext hquiet' _ ih =>
    obtain ⟨newlines, hblock⟩ := passes_quiet_block file hs hmarks hquiet hinner
    obtain ⟨newlines', hrest⟩ :=
      ih (s := { s with newlines }) ⟨hs.current, hs.inside⟩ hnext hquiet'
    have hend : EndsAtMark (segment ++ ['\x7b'] ++ (inner ++ ['\x7d'])) := by
      rw [← List.append_assoc, endsAtMark_append (List.cons_ne_nil _ _)]
      rfl
    exact ⟨newlines', by simpa using hblock.append hend hrest⟩

/-- A segment in the body of a declaration leaves its body open. -/
theorem pass_body (file : Path) {line : Nat} {extra : List Nat} {depth : Nat}
    {d : OpenDeclaration} {piece : List Char × Mark} (hs : s.braces = extra ++ [line])
    (hd : s.current = some d) (hdepth : openAfter extra.length piece.2.char = some depth) :
    ∃ extra' d' newlines,
      s.pass file piece =
        .ok { s with current := some d', braces := extra' ++ [line], newlines } ∧
      extra'.length = depth ∧ (extra = [] ∨ d.fresh = false → d'.fresh = false) := by
  obtain ⟨segment, mark⟩ := piece
  obtain ⟨declarations, current, braces, lines⟩ := s
  obtain rfl : braces = _ := hs
  obtain rfl : current = _ := hd
  let newlines := lines + segment.count '\n'
  cases mark with
  | openBrace =>
    obtain rfl : extra.length + 1 = depth := Option.some.inj hdepth
    cases extra with
    | nil => exact ⟨[lineAfter newlines], d.add segment, newlines, rfl, rfl, fun _ => rfl⟩
    | cons line' extra =>
      refine ⟨lineAfter newlines :: line' :: extra, d, newlines, ?_, rfl, by simp⟩
      cases extra <;> rfl
  | closeBrace =>
    cases extra with
    | nil => cases hdepth
    | cons line' extra =>
      obtain rfl : extra.length = depth := Option.some.inj hdepth
      refine ⟨extra, d, newlines, ?_, rfl, by simp⟩
      cases extra <;> rfl
  | semicolon =>
    obtain rfl : extra.length = depth := Option.some.inj hdepth
    cases extra with
    | nil => exact ⟨[], d.add segment, newlines, rfl, rfl, fun _ => rfl⟩
    | cons line' extra =>
      refine ⟨line' :: extra, d, newlines, ?_, rfl, by simp⟩
      cases extra <;> rfl

theorem foldlM_pass_body (file : Path) {line : Nat} {extra : List Nat} {depth : Nat}
    {d : OpenDeclaration} {pieces : List (List Char × Mark)} (hs : s.braces = extra ++ [line])
    (hd : s.current = some d)
    (hdepth : (pieces.map (·.2.char)).foldlM openAfter extra.length = some depth) :
    ∃ extra' d' newlines,
      pieces.foldlM (ScanState.pass file) s =
        .ok { s with current := some d', braces := extra' ++ [line], newlines } ∧
      extra'.length = depth ∧
      (extra = [] ∧ pieces ≠ [] ∨ d.fresh = false → d'.fresh = false) := by
  induction pieces generalizing s extra d with
  | nil =>
    obtain rfl : extra.length = depth := Option.some.inj hdepth
    exact ⟨extra, d, s.newlines, by rw [← hs, ← hd]; rfl, rfl, by simp⟩
  | cons piece pieces ih =>
    rw [List.map_cons, List.foldlM_cons, Option.bind_eq_bind] at hdepth
    obtain ⟨next, hnext, hdepth⟩ := Option.bind_eq_some_iff.mp hdepth
    obtain ⟨extra', d', newlines, hpass, rfl, hfresh⟩ := pass_body file hs hd hnext
    rw [List.foldlM_cons, hpass]
    obtain ⟨extra'', d'', newlines', hpass', hlength, hfresh'⟩ :=
      ih (s := { s with current := some d', braces := extra' ++ [line], newlines }) rfl rfl hdepth
    refine ⟨extra'', d'', newlines', hpass', hlength, fun h => hfresh' (.inr (hfresh ?_))⟩
    exact h.imp_left And.left

/-! ## Positions in a source -/

/-- A masked text in three parts that breaks off in the body of a declaration: what precedes the
declaration, its header, and what its body holds so far, which ends with a complete segment. -/
structure BreaksOff (file : Path) (before header body : List Char) : Prop where
  before_ends : before = [] ∨ EndsAtMark before
  before_balanced : Balanced (braces before)
  header_unmarked : Unmarked header
  header_declares : ∃ line, (declaration? header file line).isSome
  body_ends : EndsAtMark body
  body_balanced : Balanced (braces body)

/-- The source breaks off in the body of a declaration, behind a complete member, and `d` is what
would be reported of the declaration if the body were closed there. -/
structure InBody (file : Path) (source : List Char) (d : Declaration) : Prop where
  exists_parts :
    ∃ before header body, mask source = before ++ header ++ ['\x7b'] ++ body ∧
      BreaksOff file before header body
  reported : ∃ others, scan file (source ++ ['\x7d']) = .ok (others ++ [d])

theorem isSome_declaration? (header : List Char) (file : Path) (line line' : Nat) :
    (declaration? header file line).isSome = (declaration? header file line').isSome := by
  have h := congrArg Option.isSome
    (declaration?_upToLine (Padded.refl header).sameReading file line line')
  rwa [Option.isSome_map, Option.isSome_map] at h

theorem passes_header (file : Path) {header : List Char} {line : Nat} (hs : s.braces = [])
    (hmarks : Unmarked header) (hheader : (declaration? header file line).isSome) :
    ∃ s' d line, Passes file (header ++ ['\x7b']) s s' ∧ s'.current = some d ∧
      s'.braces = [line] := by
  let newlines := s.newlines + header.count '\n'
  -- In whatever line the header stands, it opens a declaration.
  rw [isSome_declaration? header file line (lineAfter (s.newlines + leadingNewlines header))]
    at hheader
  obtain ⟨d, hd⟩ := Option.isSome_iff_exists.mp hheader
  let opened : ScanState :=
    { s with current := some { declaration := d }, braces := [lineAfter newlines], newlines }
  refine ⟨opened, _, _, passes_mark hmarks rfl ?_, rfl, rfl⟩
  obtain ⟨declarations, current, braces, lines⟩ := s
  obtain rfl : braces = [] := hs
  simp only [ScanState.pass, hd, Option.map_some]
  rfl

theorem passes_members (file : Path) {body : List Char} {line : Nat} {d : OpenDeclaration}
    (hd : s.current = some d) (hs : s.braces = [line]) (hend : EndsAtMark body)
    (hbody : Balanced (braces body)) : ∃ s' d', Passes file body s s' ∧ s'.Reads d' := by
  obtain ⟨extra, ⟨d', fresh⟩, newlines, hpass, hextra, hfresh⟩ :=
    foldlM_pass_body file (hs.trans (List.nil_append _).symm) hd hbody.foldlM_segments
  obtain rfl := List.eq_nil_of_length_eq_zero hextra
  have hpieces : (segments body).1 ≠ [] := by
    obtain ⟨init, c, mark, rfl, hc⟩ := hend.exists_eq
    rw [segments_append_mark hc]
    simp
  obtain rfl : fresh = false := hfresh (.inl ⟨rfl, hpieces⟩)
  exact ⟨_, d', hpass, rfl, line, rfl⟩

theorem BreaksOff.exists_passes {before header body : List Char}
    (h : BreaksOff file before header body) :
    ∃ s d, Passes file (before ++ header ++ ['\x7b'] ++ body) {} s ∧ s.Reads d := by
  obtain ⟨line, hheader⟩ := h.header_declares
  obtain ⟨s₀, hbefore, hs₀⟩ := exists_passes_of_balanced (s := {}) file h.before_balanced
  obtain ⟨s₁, start, line, hopen, hcurrent, hs₁⟩ :=
    passes_header file hs₀ h.header_unmarked hheader
  obtain ⟨s, d, hbody, hs⟩ := passes_members file hcurrent hs₁ h.body_ends h.body_balanced
  have hlast : EndsAtMark (header ++ ['\x7b']) :=
    (endsAtMark_append (List.cons_ne_nil _ _)).mpr rfl
  have hrest := hopen.append hlast hbody
  refine ⟨s, d, ?_, hs⟩
  rcases h.before_ends with rfl | hend
  · cases hbefore
    exact hrest
  · simpa only [List.append_assoc] using hbefore.append hend hrest

/-- Closing the body reports what is known of the declaration. -/
theorem ScanState.Reads.passes_close (file : Path) {d : Declaration} (hs : s.Reads d) :
    Passes file ['\x7d'] s
      { s with declarations := s.declarations ++ [d], current := none, braces := [] } := by
  obtain ⟨line, hline⟩ := hs.inside
  have hmark : Mark.ofChar? '\x7d' = some .closeBrace := rfl
  have hempty : Unmarked [] := by simp [Unmarked]
  refine passes_mark hempty hmark ?_
  have hcurrent := hs.current
  obtain ⟨declarations, current, braces, lines⟩ := s
  obtain rfl : braces = [line] := hline
  obtain rfl : current = _ := hcurrent
  simp [ScanState.pass, (quiet_nil d).add_eq]

/-- Behind a member the scan knows of the declaration what would be reported. -/
theorem InBody.exists_reads {source : List Char} {d : Declaration} (h : InBody file source d) :
    EndsAtMark (mask source) ∧ ∃ s, Passes file (mask source) {} s ∧ s.Reads d := by
  obtain ⟨⟨before, header, body, hmask, hparts⟩, others, hscan⟩ := h
  obtain ⟨s, d', hpasses, hs⟩ := hparts.exists_passes
  rw [← hmask] at hpasses
  have hbody : body ≠ [] := by
    rintro rfl
    cases hparts.body_ends
  have hend : EndsAtMark (mask source) := by
    rw [hmask, endsAtMark_append hbody]
    exact hparts.body_ends
  have hall := hpasses.append hend (hs.passes_close file)
  rw [show ['\x7d'] = mask ['\x7d'] from rfl, ← mask_append hend, Passes] at hall
  rw [scan, hall] at hscan
  obtain ⟨-, hd⟩ := List.append_inj' (Except.ok.inj hscan) rfl
  obtain rfl : d' = d := by simpa using hd
  exact ⟨hend, s, hpasses, hs⟩

/-- A member whose stretches are not taken for members that are not reported anyway can be added
behind a complete member, and nothing changes but lines. -/
theorem InBody.scanUpToLines_insert {source added : List Char} {d : Declaration}
    {segment tail : List Char} (h : InBody file source d) (hadded : mask added = segment ++ tail)
    (hmarks : Unmarked segment) (hquiet : Quiet d segment) (htail : Ends d tail)
    (rest : List Char) :
    scanUpToLines file (source ++ added ++ rest) = scanUpToLines file (source ++ rest) := by
  obtain ⟨hend, s, hpasses, hs⟩ := h.exists_reads
  obtain ⟨newlines, hadds⟩ := htail.passes file hs hmarks hquiet
  rw [← hadded] at hadds
  have hmask : mask (source ++ added) = mask source ++ mask added := mask_append hend added
  have hend' : EndsAtMark (mask (source ++ added)) := by
    rw [hmask, hadded, ← List.append_assoc, endsAtMark_append htail.ne_nil]
    exact htail.endsAtMark
  have hboth : Passes file (mask (source ++ added)) {} { s with newlines } := by
    rw [hmask]
    exact hpasses.append hend hadds
  have hsame : SameUpToLines { s with newlines } s :=
    ⟨rfl, rfl, List.forall₂_same.mpr fun _ _ => trivial⟩
  apply AgreeUpToLines.scanUpToLines_eq
  rw [hboth.foldlM_mask hend', hpasses.foldlM_mask hend]
  exact hsame.foldlM (List.forall₂_same.mpr fun piece _ => ⟨(Padded.refl piece.1).sameReading, rfl⟩)
    file

end Source

end Recheck
