import Recheck.Proofs.Source.Directives
import Recheck.Proofs.Source.Masking

/-!
# Reading contents with the same normal form

Contents with the same normal form count as unchanged, so the same should be read of them. For the
declarations this holds if comments and literals of one line end with their lines (`PlainLines`),
and for the references if no directive depends on how lines end (`PlainDirectives`). Both conditions
are about carriage returns that end lines by themselves, and about blanks at the ends of lines: the
normal form makes line feeds of the ones and drops the others, and the reader of sources takes
neither for the end of a line.

The declarations are compared without their lines, which normalization moves. A scan passes one
segment after the other, and on segments of which the same is read two scans agree up to lines
(`SameUpToLines.pass`), so they do after all of them (`SameUpToLines.foldlM`).
-/

namespace Recheck

/-- The declaration without the line that it stands in. -/
def Declaration.withoutLine (d : Declaration) : Declaration := { d with line := none }

namespace Source

open Content (tidied_tidy)
open Text (isBlank isAsciiBlankChar isBlank_of_isAsciiBlankChar)

variable {a b : List Char}

/-! ## Headers and members -/

theorem withoutLine_applyClause (d : Declaration) (clause : Clause × List Char) :
    (applyClause d clause).withoutLine = applyClause d.withoutLine clause := by
  rw [applyClause, applyClause]
  split
  · rfl
  · rfl
  · rfl
  · simp only [Declaration.withoutLine]
    split <;> rfl

theorem withoutLine_foldl_applyClause (clauses : List (Clause × List Char)) (d : Declaration) :
    (clauses.foldl applyClause d).withoutLine = clauses.foldl applyClause d.withoutLine := by
  induction clauses generalizing d with
  | nil => rfl
  | cons clause clauses ih => rw [List.foldl_cons, List.foldl_cons, ih, withoutLine_applyClause]

theorem declaration?_upToLine (h : SameReading a b) (file : Path) (line line' : Nat) :
    (declaration? a file line).map Declaration.withoutLine =
      (declaration? b file line').map Declaration.withoutLine := by
  rw [declaration?, declaration?, h.words]
  dsimp only
  split
  · rfl
  · split
    · rfl
    · rw [Option.map_some, Option.map_some, withoutLine_foldl_applyClause,
        withoutLine_foldl_applyClause]
      rfl

theorem clean_eq (h : SameReading a b) : clean a = clean b := by
  rw [clean, clean, h.words]

theorem alias?_upToLine (h : SameReading a b) (file : Path) (line line' : Nat) :
    (alias? a file line).map Declaration.withoutLine =
      (alias? b file line').map Declaration.withoutLine := by
  have hname : aliasName? a = aliasName? b := by
    rw [aliasName?, aliasName?, clean_eq h]
  rw [alias?, alias?, hname, Option.map_map, Option.map_map]
  rfl

/-- The open declaration without the line that it stands in. -/
def OpenDeclaration.withoutLine (d : OpenDeclaration) : OpenDeclaration :=
  { d with declaration := d.declaration.withoutLine }

theorem withoutLine_add (d : OpenDeclaration) (segment : List Char) :
    (d.add segment).withoutLine = d.withoutLine.add segment := rfl

theorem add_eq (d : OpenDeclaration) (h : SameReading a b) : d.add a = d.add b := by
  have hmember : memberName? d.declaration.name a = memberName? d.declaration.name b := by
    rw [memberName?, memberName?, memberHead, memberHead, clean_eq h]
  rw [OpenDeclaration.add, OpenDeclaration.add, h.constants, hmember]

/-! ## The scan -/

/-- The scans know the same but for the lines. -/
structure SameUpToLines (s s' : ScanState) : Prop where
  declarations :
    s.declarations.map Declaration.withoutLine = s'.declarations.map Declaration.withoutLine
  current :
    s.current.map OpenDeclaration.withoutLine = s'.current.map OpenDeclaration.withoutLine
  braces : List.Forall₂ (fun _ _ => True) s.braces s'.braces

/-- Both scans fail, or neither does and they know the same but for the lines. -/
def AgreeUpToLines : Except Fault ScanState → Except Fault ScanState → Prop
  | .ok s, .ok s' => SameUpToLines s s'
  | .error _, .error _ => True
  | _, _ => False

theorem map_add_eq {d d' : Option OpenDeclaration}
    (hd : d.map OpenDeclaration.withoutLine = d'.map OpenDeclaration.withoutLine)
    (h : SameReading a b) :
    (d.map (·.add a)).map OpenDeclaration.withoutLine =
      (d'.map (·.add b)).map OpenDeclaration.withoutLine := by
  have hcommute : ∀ (e : Option OpenDeclaration) (segment : List Char),
      (e.map (·.add segment)).map OpenDeclaration.withoutLine =
        (e.map OpenDeclaration.withoutLine).map (·.add segment) := by
    intro e segment
    rw [Option.map_map, Option.map_map]
    exact congrArg (Option.map · e) (funext fun d => withoutLine_add d segment)
  rw [hcommute, hcommute, hd]
  congr 1
  funext e
  exact add_eq e h

theorem map_append_toList {α β : Type} (f : α → β) (xs : List α) (o : Option α) :
    (xs ++ o.toList).map f = xs.map f ++ (o.map f).toList := by
  cases o <;> simp

/-- Segments of which the same is read change the same in both scans. -/
theorem SameUpToLines.pass {s s' : ScanState} (hs : SameUpToLines s s') (h : SameReading a b)
    (file : Path) (mark : Mark) :
    AgreeUpToLines (s.pass file (a, mark)) (s'.pass file (b, mark)) := by
  obtain ⟨declarations, current, braces, newlines⟩ := s
  obtain ⟨declarations', current', braces', newlines'⟩ := s'
  obtain ⟨hdeclarations, hcurrent, hbraces⟩ := hs
  have hadd := map_add_eq hcurrent h
  -- How many braces are open decides what the segment is.
  cases mark with
  | openBrace =>
    rcases hbraces with _ | ⟨-, _ | ⟨-, hbraces⟩⟩
    · refine ⟨hdeclarations, ?_, .cons trivial .nil⟩
      have hopen := congrArg (Option.map fun d => ({ declaration := d } : OpenDeclaration))
        (declaration?_upToLine h file
          (lineAfter (newlines + leadingNewlines a)) (lineAfter (newlines' + leadingNewlines b)))
      rw [Option.map_map, Option.map_map] at hopen ⊢
      exact hopen
    · exact ⟨hdeclarations, hadd, .cons trivial (.cons trivial .nil)⟩
    · exact ⟨hdeclarations, hcurrent, .cons trivial (.cons trivial (.cons trivial hbraces))⟩
  | closeBrace =>
    rcases hbraces with _ | ⟨-, _ | ⟨-, hbraces⟩⟩
    · trivial
    · refine ⟨?_, rfl, .nil⟩
      have hclosed := congrArg (Option.map OpenDeclaration.declaration) hadd
      simp only [Option.map_map] at hclosed
      dsimp only
      rw [map_append_toList, map_append_toList, hdeclarations, Option.map_map, Option.map_map]
      exact congrArg (_ ++ Option.toList ·) hclosed
    · exact ⟨hdeclarations, hcurrent, .cons trivial hbraces⟩
  | semicolon =>
    rcases hbraces with _ | ⟨-, _ | ⟨-, hbraces⟩⟩
    · refine ⟨?_, hcurrent, .nil⟩
      dsimp only
      rw [map_append_toList, map_append_toList, hdeclarations, alias?_upToLine h]
    · exact ⟨hdeclarations, hadd, .cons trivial .nil⟩
    · exact ⟨hdeclarations, hcurrent, .cons trivial (.cons trivial hbraces)⟩

theorem SameUpToLines.foldlM {pieces pieces' : List (List Char × Mark)}
    (h : List.Forall₂ (fun p q => SameReading p.1 q.1 ∧ p.2 = q.2) pieces pieces') (file : Path)
    {s s' : ScanState} (hs : SameUpToLines s s') :
    AgreeUpToLines (pieces.foldlM (ScanState.pass file) s)
      (pieces'.foldlM (ScanState.pass file) s') := by
  induction h generalizing s s' with
  | nil => exact hs
  | @cons piece piece' _ _ hpiece _ ih =>
    obtain ⟨segment, mark⟩ := piece
    obtain ⟨segment', mark'⟩ := piece'
    obtain ⟨hreading, rfl⟩ := hpiece
    have hnext := hs.pass hreading file mark
    rw [List.foldlM_cons, List.foldlM_cons]
    cases hpass : s.pass file (segment, mark) with
    | error fault =>
      cases hpass' : s'.pass file (segment', mark) with
      | error fault' => trivial
      | ok next' => simp [hpass, hpass', AgreeUpToLines] at hnext
    | ok next =>
      cases hpass' : s'.pass file (segment', mark) with
      | error fault' => simp [hpass, hpass', AgreeUpToLines] at hnext
      | ok next' =>
        rw [hpass, hpass'] at hnext
        exact ih hnext

/-- The declarations of a source without their lines, if it can be scanned. -/
def scanUpToLines (file : Path) (source : List Char) : Option (List Declaration) :=
  (scan file source).toOption.map (·.map Declaration.withoutLine)

theorem AgreeUpToLines.scanUpToLines_eq {file : Path}
    (h : AgreeUpToLines ((segments (mask a)).1.foldlM (ScanState.pass file) {})
      ((segments (mask b)).1.foldlM (ScanState.pass file) {})) :
    scanUpToLines file a = scanUpToLines file b := by
  rw [scanUpToLines, scanUpToLines, scan, scan]
  generalize (segments (mask a)).1.foldlM (ScanState.pass file) {} = result at h ⊢
  generalize (segments (mask b)).1.foldlM (ScanState.pass file) {} = result' at h ⊢
  cases result with
  | error fault =>
    cases result' with
    | error fault' => rfl
    | ok s' => cases h
  | ok s =>
    cases result' with
    | error fault' => cases h
    | ok s' =>
      obtain ⟨declarations, current, braces, newlines⟩ := s
      obtain ⟨declarations', current', braces', newlines'⟩ := s'
      obtain ⟨hdeclarations, -, hbraces⟩ := h
      cases hbraces with
      | nil => exact congrArg some hdeclarations
      | cons => rfl

theorem scanUpToLines_eq (h : CutAlike (mask a) (mask b)) (file : Path) :
    scanUpToLines file a = scanUpToLines file b := by
  have hstart : SameUpToLines {} {} := ⟨rfl, rfl, .nil⟩
  exact (hstart.foldlM h file).scanUpToLines_eq

/-! ## Sources -/

/-- Comments and literals of one line end where their line ends: there are no carriage returns in
them but before line feeds, and no backslashes before blanks at the end of a line. -/
def PlainLines (source : List Char) : Prop := PlainFrom .code source

instance (source : List Char) : Decidable (PlainLines source) :=
  inferInstanceAs (Decidable (PlainFrom .code source))

theorem PlainLines.scan_tidy {source : List Char} (h : PlainLines source) (file : Path) :
    scanUpToLines file source = scanUpToLines file (Content.Symbols.chars.tidy source) :=
  scanUpToLines_eq (padded_maskFrom (r := .code) (tidied_tidy source) trivial h).cutAlike file

theorem scan_dropWhile (file : Path) (source : List Char) :
    scanUpToLines file (source.dropWhile isAsciiBlankChar) = scanUpToLines file source := by
  induction source with
  | nil => rfl
  | cons c source ih =>
    by_cases hc : isAsciiBlankChar c
    · obtain ⟨d, hd, hmask⟩ := maskFrom_blank (r := .code) trivial hc source
      have hcut : CutAlike (mask (c :: source)) (mask source) := by
        rw [mask, hmask, after_of_not_oneLine rfl]
        exact cutAlike_cons hd _
      rw [List.dropWhile_cons_of_pos hc, ih, scanUpToLines_eq hcut]
    · rw [List.dropWhile_cons_of_neg hc]

theorem PlainLines.scan_trimmed {source : List Char} (h : PlainLines source) (file : Path) :
    scanUpToLines file source = scanUpToLines file (Content.trimmed source) := by
  rw [Content.trimmed, scan_dropWhile, h.scan_tidy]

end Source

open Source in
/-- Of two texts whose contents have the same normal form, the same is read: they can both be
scanned or neither can, and they have the same declarations but for their lines, if comments and
literals of one line end with their lines; and they have the same references, if no directive
follows a line that a carriage return ends and no reference has a line end in it that tidying
changes. -/
theorem reading_eq_of_normalize_eq {x y : List UInt8} {s t : String}
    (hs : Text.ofBytes? x = some s) (ht : Text.ofBytes? y = some t)
    (h : Content.normalize x = Content.normalize y) :
    (PlainLines s.toList → PlainLines t.toList →
        ∀ file, scanUpToLines file s.toList = scanUpToLines file t.toList) ∧
      (PlainDirectives s.toList → PlainDirectives t.toList →
        references s.toList = references t.toList) := by
  rw [Text.eq_bytes_of_ofBytes? hs, Text.eq_bytes_of_ofBytes? ht] at h
  have htrimmed := Content.trimmed_eq_of_normalize_eq h
  refine ⟨fun hlines hlines' file => ?_, fun hdirectives hdirectives' => ?_⟩
  · rw [hlines.scan_trimmed, hlines'.scan_trimmed, htrimmed]
  · rw [hdirectives.references_trimmed, hdirectives'.references_trimmed, htrimmed]

namespace Sample

/-- A source whose lines end with line feeds. -/
def plainSource : String :=
  "import 'b.dart';\n/* A */ class A extends B \x7b\n  var s = 'a\\'b'; // s\n\x7d"

/-- The same source, with blanks at the ends of the lines, which end in all three ways. -/
def mixedSource : String :=
  "\r\timport 'b.dart'; \r\n/* A */ class A extends B \x7b\r  var s = 'a\\'b'; // s \r\n\x7d\n\n"

end Sample

open Source in
theorem reading_eq_of_normalize_eq_sample :
    Content.normalize (Text.bytes Sample.plainSource) =
        Content.normalize (Text.bytes Sample.mixedSource) ∧
      PlainLines Sample.plainSource.toList ∧ PlainLines Sample.mixedSource.toList ∧
      PlainDirectives Sample.plainSource.toList ∧ PlainDirectives Sample.mixedSource.toList ∧
      (∀ file, scanUpToLines file Sample.plainSource.toList =
        scanUpToLines file Sample.mixedSource.toList) ∧
      references Sample.plainSource.toList = references Sample.mixedSource.toList := by
  have hnormal : Content.normalize (Text.bytes Sample.plainSource) =
      Content.normalize (Text.bytes Sample.mixedSource) := by decide +kernel
  have hlines : PlainLines Sample.plainSource.toList := by decide +kernel
  have hlines' : PlainLines Sample.mixedSource.toList := by decide +kernel
  have hdirectives : PlainDirectives Sample.plainSource.toList := by decide +kernel
  have hdirectives' : PlainDirectives Sample.mixedSource.toList := by decide +kernel
  have h := reading_eq_of_normalize_eq (Text.ofBytes?_bytes Sample.plainSource)
    (Text.ofBytes?_bytes Sample.mixedSource) hnormal
  exact ⟨hnormal, hlines, hlines', hdirectives, hdirectives', h.1 hlines hlines',
    h.2 hdirectives hdirectives'⟩

open Source in
/-- Carriage returns as line ends, a backslash before blanks at the end of a line and a blank at the
end of a line in a reference all change what is read of a content with the same normal form. -/
theorem reading_differs_at_line_ends :
    (∃ s t : String, Content.normalize (Text.bytes s) = Content.normalize (Text.bytes t) ∧
      scanUpToLines ⟨"a.dart"⟩ s.toList ≠ scanUpToLines ⟨"a.dart"⟩ t.toList ∧
      references s.toList ≠ references t.toList) ∧
    (∃ s t : String, Content.normalize (Text.bytes s) = Content.normalize (Text.bytes t) ∧
      scanUpToLines ⟨"a.dart"⟩ s.toList ≠ scanUpToLines ⟨"a.dart"⟩ t.toList) ∧
    ∃ s t : String, Content.normalize (Text.bytes s) = Content.normalize (Text.bytes t) ∧
      references s.toList ≠ references t.toList := by
  refine ⟨⟨"// needs b\nimport 'b.dart';\nclass A extends B \x7b\x7d",
    "// needs b\rimport 'b.dart';\rclass A extends B \x7b\x7d", ?_⟩,
    ⟨"var s = 'x\\ \n;class C \x7b\x7d\n", "var s = 'x\\\n;class C \x7b\x7d\n", ?_⟩,
    ⟨"import 'package:foo/x \n.dart';", "import 'package:foo/x\n.dart';", ?_⟩⟩
  all_goals decide +kernel

end Recheck
