import Mathlib.Data.List.Chain
import Recheck.Digest
import Recheck.Proofs.Path.Pieces

/-!
# What a normal form shows

A content is made of lines, each ended by a line feed, a carriage return, or both together
(`Cut`). Its normal form shows the lines without the blanks around them (`visible`), with line feeds
between them (`normalize_eq_join`), and two contents have one normal form if and only if they show
the same lines (`normalize_eq_iff_visible`).

`IsNormal` says which contents are normal forms, and `IsTidy` what tidying makes of a content, up to
the blanks at its start (`isTidy_tidy`, `isNormal_normalize`). Both are left alone
(`IsTidy.tidy_eq`, `normalize_eq_self_iff`).
-/

namespace Recheck

namespace Content

open Text (isAsciiBlank)

/-! ## Cutting a content into lines -/

/-- No line ends within the bytes. -/
def Unbroken (line : List UInt8) : Prop := lineFeed ∉ line ∧ carriageReturn ∉ line

/-- The content consists of the lines, with a line feed, a carriage return or both after each but
the last. A carriage return that a line feed follows ends no line without it. -/
inductive Cut : List UInt8 → List (List UInt8) → Prop
  | last {line : List UInt8} : Unbroken line → Cut line [line]
  | feed {line content : List UInt8} {lines : List (List UInt8)} : Unbroken line →
      Cut content lines → Cut (line ++ lineFeed :: content) (line :: lines)
  | loneReturn {line content : List UInt8} {lines : List (List UInt8)} : Unbroken line →
      content.head? ≠ some lineFeed → Cut content lines →
      Cut (line ++ carriageReturn :: content) (line :: lines)
  | both {line content : List UInt8} {lines : List (List UInt8)} : Unbroken line →
      Cut content lines → Cut (line ++ carriageReturn :: lineFeed :: content) (line :: lines)

theorem unbroken_nil : Unbroken [] := by simp [Unbroken]

theorem unbroken_cons {b : UInt8} {line : List UInt8} :
    Unbroken (b :: line) ↔ ¬ (b = lineFeed ∨ b = carriageReturn) ∧ Unbroken line := by
  simp only [Unbroken, List.mem_cons, not_or, ne_comm]
  tauto

theorem lines_lineFeed_cons (bs : List UInt8) : lines (lineFeed :: bs) = [] :: lines bs := by
  cases bs with
  | nil => rfl
  | cons c bs => rw [lines, if_neg fun h => Symbols.bytes.ne h.1, if_pos (.inl rfl)]

theorem lines_return_cons {bs : List UInt8} (h : bs.head? ≠ some lineFeed) :
    lines (carriageReturn :: bs) = [] :: lines bs := by
  cases bs with
  | nil => rfl
  | cons c bs => rw [lines, if_neg fun hc => h (by rw [List.head?_cons, hc.2]), if_pos (.inr rfl)]

theorem lines_both_cons (bs : List UInt8) :
    lines (carriageReturn :: lineFeed :: bs) = [] :: lines bs := by
  rw [lines, if_pos ⟨rfl, rfl⟩]

theorem lines_plain_cons {b : UInt8} (hb : ¬ (b = lineFeed ∨ b = carriageReturn))
    (bs : List UInt8) : lines (b :: bs) = (lines bs).modifyHead (b :: ·) := by
  cases bs with
  | nil => exact if_neg hb
  | cons c bs =>
    rw [lines, if_neg fun h => hb (.inr h.1), if_neg hb]
    split
    · next h => exact absurd h (lines_ne_nil _)
    · next h => rw [h]; rfl

theorem lines_unbroken_append {line : List UInt8} (h : Unbroken line) {bs : List UInt8}
    {rest : List (List UInt8)} (hbs : lines bs = [] :: rest) :
    lines (line ++ bs) = line :: rest := by
  induction line with
  | nil => exact hbs
  | cons b line ih =>
    obtain ⟨hb, hline⟩ := unbroken_cons.mp h
    rw [List.cons_append, lines_plain_cons hb, ih hline, List.modifyHead_cons]

theorem Cut.eq_lines {bs : List UInt8} {ls : List (List UInt8)} (h : Cut bs ls) :
    ls = lines bs := by
  induction h with
  | @last line hline =>
    have hlines := lines_unbroken_append hline (show lines [] = [[]] from rfl)
    rw [List.append_nil] at hlines
    exact hlines.symm
  | feed hline _ ih =>
    rw [lines_unbroken_append hline (lines_lineFeed_cons _), ih]
  | loneReturn hline hnext _ ih =>
    rw [lines_unbroken_append hline (lines_return_cons hnext), ih]
  | both hline _ ih =>
    rw [lines_unbroken_append hline (lines_both_cons _), ih]

/-- A byte that ends no line adds to the first line. -/
theorem Cut.cons {b : UInt8} (hb : ¬ (b = lineFeed ∨ b = carriageReturn)) {bs : List UInt8}
    {ls : List (List UInt8)} (h : Cut bs ls) : Cut (b :: bs) (ls.modifyHead (b :: ·)) := by
  cases h with
  | last hline => exact .last (unbroken_cons.mpr ⟨hb, hline⟩)
  | feed hline h => exact .feed (unbroken_cons.mpr ⟨hb, hline⟩) h
  | loneReturn hline hnext h => exact .loneReturn (unbroken_cons.mpr ⟨hb, hline⟩) hnext h
  | both hline h => exact .both (unbroken_cons.mpr ⟨hb, hline⟩) h

theorem cut_lines (bs : List UInt8) : Cut bs (lines bs) := by
  fun_induction lines bs with
  | case1 => exact .last unbroken_nil
  | case2 b hb =>
    have hnil : Cut [] [[]] := .last unbroken_nil
    rcases hb with rfl | rfl
    · exact .feed unbroken_nil hnil
    · exact .loneReturn unbroken_nil (by simp) hnil
  | case3 b hb => exact Cut.cons hb (.last unbroken_nil)
  | case4 b c bs hb ih =>
    obtain ⟨rfl, rfl⟩ := hb
    exact .both unbroken_nil ih
  | case5 b c bs hb hb' ih =>
    rcases hb' with rfl | rfl
    · exact .feed unbroken_nil ih
    · exact .loneReturn unbroken_nil (by simpa using hb) ih
  | case6 b c bs hb hb' hnil ih => exact absurd hnil (lines_ne_nil _)
  | case7 b c bs hb hb' line rest hlines ih =>
    rw [hlines] at ih
    exact ih.cons hb'

/-! ## The lines that are shown -/

/-- The lines without blanks at their ends, from the first to the last that is not empty then. -/
def kept (ls : List (List UInt8)) : List (List UInt8) :=
  ((ls.map (List.rdropWhile isAsciiBlank)).dropWhile List.isEmpty).rdropWhile List.isEmpty

/-- The lines that are kept, without blanks at the start of the first. -/
def visible (ls : List (List UInt8)) : List (List UInt8) :=
  (kept ls).modifyHead (List.dropWhile isAsciiBlank)

theorem trimEnd_eq_rdropWhile (bs : List UInt8) : trimEnd bs = bs.rdropWhile isAsciiBlank :=
  Text.dropRightWhile_eq_rdropWhile _ bs

theorem kept_eq (ls : List (List UInt8)) :
    kept ls = (Text.dropRightWhile List.isEmpty (ls.map trimEnd)).dropWhile List.isEmpty := by
  have hmap : ls.map (List.rdropWhile isAsciiBlank) = ls.map trimEnd :=
    List.map_congr_left fun line _ => (trimEnd_eq_rdropWhile line).symm
  rw [kept, hmap, ← Text.dropRightWhile_eq_rdropWhile, Text.dropRightWhile_dropWhile]

theorem exists_of_mem_kept {ls : List (List UInt8)} {line : List UInt8} (h : line ∈ kept ls) :
    ∃ source ∈ ls, line = trimEnd source := by
  rw [kept_eq] at h
  have hmem := Text.mem_of_mem_dropRightWhile _ ((List.dropWhile_sublist _).mem h)
  obtain ⟨source, hsource, heq⟩ := List.mem_map.mp hmem
  exact ⟨source, hsource, heq.symm⟩

theorem trimEnd_of_mem_kept {ls : List (List UInt8)} {line : List UInt8} (h : line ∈ kept ls) :
    trimEnd line = line := by
  obtain ⟨source, -, rfl⟩ := exists_of_mem_kept h
  exact Text.dropRightWhile_idem _ source

theorem kept_ne_nil_cons {ls rest : List (List UInt8)} : kept ls ≠ [] :: rest := by
  intro h
  have hhead := List.head?_dropWhile_not List.isEmpty
    (Text.dropRightWhile List.isEmpty (ls.map trimEnd))
  rw [← kept_eq, h] at hhead
  simp at hhead

/-- A line that ends in no blank, and is not empty, has something other than blanks in it. -/
theorem dropWhile_ne_nil {line : List UInt8} (htrim : trimEnd line = line) (hne : line ≠ []) :
    line.dropWhile isAsciiBlank ≠ [] := by
  intro h
  rw [List.dropWhile_eq_nil_iff, ← List.rdropWhile_eq_nil_iff, ← trimEnd_eq_rdropWhile, htrim] at h
  exact hne h

theorem join_eq_nil {ls : List (List UInt8)} (h : Text.join lineFeed ls = []) :
    ls = [] ∨ ls = [[]] := by
  match ls with
  | [] => exact .inl rfl
  | [line] => exact .inr (by simpa [Text.join] using h)
  | line :: next :: rest =>
    rw [Text.join_cons_cons] at h
    simp at h

/-- Lines that do not end in an empty one show something. -/
theorem dropRightWhile_eq_nil_of_join {ls : List (List UInt8)}
    (h : Text.join lineFeed (Text.dropRightWhile List.isEmpty ls) = []) :
    Text.dropRightWhile List.isEmpty ls = [] := by
  refine (join_eq_nil h).resolve_right fun hls => ?_
  have hidem := Text.dropRightWhile_idem List.isEmpty ls
  rw [hls] at hidem
  cases hidem

/-- Empty lines at the end are trimmed like blanks. -/
theorem trimEnd_join {ls : List (List UInt8)} (htrim : ∀ line ∈ ls, trimEnd line = line) :
    trimEnd (Text.join lineFeed ls) =
      Text.join lineFeed (Text.dropRightWhile List.isEmpty ls) := by
  induction ls with
  | nil => rfl
  | cons line ls ih =>
    have hline : trimEnd line = line := htrim line List.mem_cons_self
    have hrest := ih fun l hl => htrim l (List.mem_cons_of_mem line hl)
    rw [Text.dropRightWhile_cons]
    cases ls with
    | nil =>
      rw [show Text.join lineFeed [line] = line by simp [Text.join], hline]
      by_cases hempty : line = [] <;> simp [Text.join, Text.dropRightWhile, hempty]
    | cons next rest =>
      rw [Text.join_cons_cons, trimEnd, Text.dropRightWhile_append, ← trimEnd, ← trimEnd,
        trimEnd_lineFeed_cons, hrest, hline]
      -- Either only empty lines follow, and their line feeds go, or the line stays as it is.
      by_cases hnil : Text.dropRightWhile List.isEmpty (next :: rest) = []
      · by_cases hempty : line = [] <;> simp [Text.join, hnil, hempty]
      · have hjoin : Text.join lineFeed (Text.dropRightWhile List.isEmpty (next :: rest)) ≠ [] :=
          fun h => hnil (dropRightWhile_eq_nil_of_join h)
        obtain ⟨l, ls, hls⟩ := List.exists_cons_of_ne_nil hnil
        rw [if_neg hjoin, if_neg (by simp), if_neg (hnil ·.1), hls, Text.join_cons_cons]

/-- Empty lines at the start are trimmed like blanks, and so is the first line that is not. -/
theorem dropWhile_join {ls : List (List UInt8)} (htrim : ∀ line ∈ ls, trimEnd line = line) :
    (Text.join lineFeed ls).dropWhile isAsciiBlank =
      Text.join lineFeed
        ((ls.dropWhile List.isEmpty).modifyHead (List.dropWhile isAsciiBlank)) := by
  induction ls with
  | nil => rfl
  | cons line ls ih =>
    have hrest : ∀ line ∈ ls, trimEnd line = line :=
      fun l hl => htrim l (List.mem_cons_of_mem line hl)
    by_cases hline : line = []
    · -- The line feed after an empty line is a blank too.
      subst hline
      rw [List.dropWhile_cons_of_pos rfl, ← ih hrest]
      cases ls with
      | nil => rfl
      | cons next rest =>
        rw [Text.join_cons_cons, List.nil_append, List.dropWhile_cons_of_pos rfl]
    · have hsolid := dropWhile_ne_nil (htrim line List.mem_cons_self) hline
      rw [List.dropWhile_cons_of_neg (by simpa using hline), List.modifyHead_cons]
      cases ls with
      | nil => simp [Text.join]
      | cons next rest =>
        rw [Text.join_cons_cons, Text.join_cons_cons, List.dropWhile_append,
          if_neg (by simpa using hsolid)]

/-- The normal form shows the visible lines. -/
theorem normalize_eq_join (bs : List UInt8) :
    normalize bs = Text.join lineFeed (visible (lines bs)) := by
  have htrim : ∀ line ∈ (lines bs).map trimEnd, trimEnd line = line := by
    intro line hline
    obtain ⟨source, -, rfl⟩ := List.mem_map.mp hline
    exact Text.dropRightWhile_idem _ source
  rw [normalize, trim, trimEnd, Text.dropRightWhile_dropWhile, ← trimEnd, trimEnd_join htrim,
    dropWhile_join fun line hline => htrim line (Text.mem_of_mem_dropRightWhile _ hline), visible,
    kept_eq]

/-- The first visible line is not empty. -/
theorem visible_ne_nil_cons {ls rest : List (List UInt8)} : visible ls ≠ [] :: rest := by
  intro h
  cases hkept : kept ls with
  | nil => simp [visible, hkept] at h
  | cons first others =>
    rw [visible, hkept, List.modifyHead_cons] at h
    have htrim : trimEnd first = first := trimEnd_of_mem_kept (hkept ▸ List.mem_cons_self)
    have hne : first ≠ [] := by
      rintro rfl
      exact kept_ne_nil_cons hkept
    exact dropWhile_ne_nil htrim hne (List.cons.inj h).1

/-- What is shown of a line comes from it. -/
theorem exists_of_mem_visible {ls : List (List UInt8)} {line : List UInt8}
    (h : line ∈ visible ls) : ∃ source ∈ ls, line ⊆ source := by
  have hkept : ∀ l ∈ kept ls, ∃ source ∈ ls, l ⊆ source := by
    intro l hl
    obtain ⟨source, hsource, rfl⟩ := exists_of_mem_kept hl
    exact ⟨source, hsource, fun b => Text.mem_of_mem_dropRightWhile _⟩
  rw [visible] at h
  cases heq : kept ls with
  | nil => simp [heq] at h
  | cons first rest =>
    rw [heq, List.modifyHead_cons] at h
    rw [heq] at hkept
    rcases List.mem_cons.mp h with rfl | h
    · obtain ⟨source, hsource, hsub⟩ := hkept first List.mem_cons_self
      exact ⟨source, hsource, fun b hb => hsub ((List.dropWhile_sublist _).mem hb)⟩
    · exact hkept line (List.mem_cons_of_mem first h)

/-- The visible lines can be told from what they show, as no line feed is in them. -/
theorem visible_eq_splitOn {ls : List (List UInt8)} (h : ∀ line ∈ ls, lineFeed ∉ line) :
    visible ls =
      if Text.join lineFeed (visible ls) = [] then []
      else Text.splitOn lineFeed (Text.join lineFeed (visible ls)) := by
  by_cases hnil : visible ls = []
  · rw [hnil]
    rfl
  · have hjoin : Text.join lineFeed (visible ls) ≠ [] := fun hjoin =>
      (join_eq_nil hjoin).elim hnil visible_ne_nil_cons
    have hfeed : ∀ line ∈ visible ls, lineFeed ∉ line := by
      intro line hline hmem
      obtain ⟨source, hsource, hsub⟩ := exists_of_mem_visible hline
      exact h source hsource (hsub hmem)
    rw [if_neg hjoin, Text.splitOn_join hnil hfeed]

/-- Two contents have one normal form if and only if they show the same lines. -/
theorem normalize_eq_iff_visible (x y : List UInt8) :
    normalize x = normalize y ↔ visible (lines x) = visible (lines y) := by
  have hlines : ∀ bs, ∀ line ∈ lines bs, lineFeed ∉ line := fun bs line => lineFeed_notMem_line
  rw [normalize_eq_join, normalize_eq_join]
  refine ⟨fun h => ?_, fun h => by rw [h]⟩
  rw [visible_eq_splitOn (hlines x), visible_eq_splitOn (hlines y), h]

/-! ## Normal forms -/

/-- A content without carriage returns and without blanks at the ends of lines and of the whole. -/
structure IsTidy (bs : List UInt8) : Prop where
  no_return : carriageReturn ∉ bs
  /-- No space, tab or form feed comes right before a line feed. -/
  no_padding : bs.IsChain fun b next => next = lineFeed → b ≠ 0x20 ∧ b ≠ 0x09 ∧ b ≠ 0x0C
  last_solid : ∀ b, bs.getLast? = some b → isAsciiBlank b = false

/-- A content that is its own normal form: a tidy one without blanks at the start. -/
structure IsNormal (bs : List UInt8) : Prop extends IsTidy bs where
  head_solid : ∀ b, bs.head? = some b → isAsciiBlank b = false

theorem isAsciiBlank_eq_false_iff {b : UInt8} (hb : ¬ (b = lineFeed ∨ b = carriageReturn)) :
    isAsciiBlank b = false ↔ b ≠ 0x20 ∧ b ≠ 0x09 ∧ b ≠ 0x0C := by
  simp only [lineFeed, carriageReturn, not_or] at hb
  simp [isAsciiBlank, hb, and_assoc]

theorem isTidy_nil : IsTidy [] := ⟨by simp, .nil, by simp⟩

theorem isTidy_cons {b : UInt8} {bs : List UInt8} :
    IsTidy (b :: bs) ↔
      b ≠ carriageReturn ∧ (bs.head? = some lineFeed → b ≠ 0x20 ∧ b ≠ 0x09 ∧ b ≠ 0x0C) ∧
        (bs = [] → isAsciiBlank b = false) ∧ IsTidy bs := by
  constructor
  · rintro ⟨hreturn, hpad, hlast⟩
    rw [List.mem_cons, not_or] at hreturn
    rw [List.isChain_cons] at hpad
    refine ⟨Ne.symm hreturn.1, fun h => hpad.1 lineFeed h rfl, ?_, hreturn.2, hpad.2,
      fun b hb => ?_⟩
    · rintro rfl
      exact hlast b rfl
    · exact hlast b (by rw [List.getLast?_cons, hb]; rfl)
  · rintro ⟨hb, hpad, hlast, htidy⟩
    refine ⟨by simp [htidy.no_return, hb.symm], ?_, fun c hc => ?_⟩
    · refine List.isChain_cons.mpr ⟨fun next hnext heq => hpad ?_, htidy.no_padding⟩
      rw [← heq]
      exact hnext
    · cases bs with
      | nil => exact Option.some.inj hc ▸ hlast rfl
      | cons d bs => exact htidy.last_solid c (by rwa [List.getLast?_cons_cons] at hc)

theorem isTidy_tidy (bs : List UInt8) : IsTidy (Symbols.bytes.tidy bs) := by
  induction bs with
  | nil => exact isTidy_nil
  | cons b bs ih =>
    by_cases hend : b = lineFeed ∨ b = carriageReturn
    · by_cases hboth : b = carriageReturn ∧ bs.head? = some lineFeed
      · rw [Symbols.tidy]
        exact (if_pos hboth).symm ▸ ih
      · rw [Symbols.bytes.tidy_lineEnd_cons hend hboth]
        split
        · exact isTidy_nil
        · next hne =>
          exact isTidy_cons.mpr
            ⟨Symbols.bytes.ne, fun _ => by decide, fun h => absurd h hne, ih⟩
    · rw [Symbols.bytes.tidy_plain_cons hend]
      split
      · exact ih
      · next hover =>
        have hsolid : Symbols.bytes.tidy bs = [] ∨
            (Symbols.bytes.tidy bs).head? = some lineFeed → isAsciiBlank b = false :=
          fun h => Bool.eq_false_iff.mpr fun hblank => hover ⟨hblank, h⟩
        exact isTidy_cons.mpr ⟨fun h => hend (.inr h),
          fun h => (isAsciiBlank_eq_false_iff hend).mp (hsolid (.inr h)),
          fun h => hsolid (.inl h), ih⟩

theorem IsTidy.tidy_eq {bs : List UInt8} (h : IsTidy bs) : Symbols.bytes.tidy bs = bs := by
  induction bs with
  | nil => rfl
  | cons b bs ih =>
    obtain ⟨hreturn, hpad, hlast, htidy⟩ := isTidy_cons.mp h
    have hbs := ih htidy
    by_cases hfeed : b = lineFeed
    · have hne : bs ≠ [] := fun hnil => by
        have hsolid := hlast hnil
        rw [hfeed] at hsolid
        cases hsolid
      rw [Symbols.bytes.tidy_lineEnd_cons (.inl hfeed) fun hb => hreturn hb.1, hbs, if_neg hne,
        hfeed]
      rfl
    · have hend : ¬ (b = lineFeed ∨ b = carriageReturn) := not_or.mpr ⟨hfeed, hreturn⟩
      have hsolid : bs = [] ∨ bs.head? = some lineFeed → isAsciiBlank b = false :=
        fun h => h.elim hlast fun hnext => (isAsciiBlank_eq_false_iff hend).mpr (hpad hnext)
      rw [Symbols.bytes.tidy_plain_cons hend, hbs, if_neg]
      exact fun h => Bool.eq_false_iff.mp (hsolid h.2) h.1

theorem IsTidy.dropWhile {bs : List UInt8} (h : IsTidy bs) :
    IsTidy (bs.dropWhile isAsciiBlank) := by
  induction bs with
  | nil => exact h
  | cons b bs ih =>
    rw [List.dropWhile_cons]
    split
    · exact ih (isTidy_cons.mp h).2.2.2
    · exact h

theorem isNormal_normalize (bs : List UInt8) : IsNormal (normalize bs) := by
  rw [normalize_eq]
  refine ⟨(isTidy_tidy bs).dropWhile, fun b hb => ?_⟩
  have hhead := List.head?_dropWhile_not isAsciiBlank (Symbols.bytes.tidy bs)
  rw [hb] at hhead
  simpa using hhead

theorem normalize_eq_self_iff (bs : List UInt8) : normalize bs = bs ↔ IsNormal bs := by
  refine ⟨fun h => h ▸ isNormal_normalize bs, fun h => ?_⟩
  rw [normalize_eq, h.tidy_eq]
  cases bs with
  | nil => rfl
  | cons b bs => exact List.dropWhile_cons_of_neg (by simp [h.head_solid b rfl])

/-- The normal form is canonical: it is normal, leaves alone what is normal, and hides nothing of a
content but what its visible lines do not show. So does a digest of it without collisions. -/
theorem normalize_canonical (x y : List UInt8) :
    IsNormal (normalize x) ∧ (normalize x = x ↔ IsNormal x) ∧
      normalize (normalize x) = normalize x ∧ (∃! ls, Cut x ls) ∧
      ∀ xs ys, Cut x xs → Cut y ys →
        (normalize x = normalize y ↔ visible xs = visible ys) ∧
          ∀ digest : Digest, Function.Injective digest.hex →
            (digest.ofContent x = digest.ofContent y ↔ visible xs = visible ys) := by
  have hnormal := isNormal_normalize x
  refine ⟨hnormal, normalize_eq_self_iff x, (normalize_eq_self_iff _).mpr hnormal,
    ⟨lines x, cut_lines x, fun ls => Cut.eq_lines⟩, fun xs ys hxs hys => ?_⟩
  obtain rfl := hxs.eq_lines
  obtain rfl := hys.eq_lines
  have hvisible := normalize_eq_iff_visible x y
  exact ⟨hvisible, fun digest hdigest => hdigest.eq_iff.trans hvisible⟩

end Content

end Recheck
