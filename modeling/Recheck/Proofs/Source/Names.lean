import Mathlib.Data.List.TakeWhile
import Recheck.Source.Scan

/-!
# Names of declarations

Messages set the names that they speak of between backquotes. No name of a scanned declaration or of
a type that it inherits from has a backquote of its own (`scanned_of_scan`), so the name can be read
off a message.
-/

namespace Recheck

/-- A name without a backquote. -/
def PlainName (name : String) : Prop := '\x60' ∉ name.toList

namespace Source

/-- What the declarations of a file have in common: they name the file, and no name that a message
about them can speak of has a backquote. -/
structure Scanned (file : Path) (d : Declaration) : Prop where
  file_eq : d.file = file
  name : PlainName d.name
  supertypes : ∀ type ∈ d.supertypes, PlainName type

theorem not_mem_takeWhile {p : Char → Bool} (hp : p '\x60' = false) (cs : List Char) :
    '\x60' ∉ cs.takeWhile p := by
  intro hmem
  have hyes := List.mem_takeWhile_imp hmem
  rw [hp] at hyes
  cases hyes

theorem eq_of_identifier? {run name : List Char} (h : identifier? run = some name) :
    name = run := by
  unfold identifier? at h
  split at h
  · split at h
    · cases h
    · exact (Option.some.inj h).symm
  · cases h

/-! ## Headers -/

theorem not_mem_headingWith? {words : List (List Char)}
    {keyword : List (List Char) × DeclarationKind} {heading : Heading}
    (h : headingWith? words keyword = some heading) : '\x60' ∉ heading.name := by
  rw [headingWith?] at h
  split at h
  · next c cs more _ =>
    split at h
    · next hstart =>
      obtain rfl := Option.some.inj h
      simp only [List.mem_cons, not_or]
      refine ⟨?_, not_mem_takeWhile (by decide) cs⟩
      rintro rfl
      revert hstart
      decide
    · cases h
  · cases h

theorem plainName_of_mem_typeNames {list : List Char} {name : String} (h : name ∈ typeNames list) :
    PlainName name := by
  obtain ⟨item, -, hitem⟩ := List.mem_filterMap.mp h
  obtain ⟨run, hrun, rfl⟩ := Option.map_eq_some_iff.mp hitem
  rw [PlainName, String.toList_ofList, eq_of_identifier? hrun]
  exact not_mem_takeWhile (by decide) _

theorem Scanned.applyClause {file : Path} {d : Declaration} (h : Scanned file d)
    (clause : Clause × List Char) : Scanned file (applyClause d clause) := by
  have hnames : ∀ name ∈ typeNames clause.2, PlainName name := fun _ => plainName_of_mem_typeNames
  have hold := h.supertypes
  simp only [Declaration.supertypes, List.mem_append, Option.mem_toList] at hold
  rw [Source.applyClause]
  split
  · refine ⟨h.file_eq, h.name, fun type ht => ?_⟩
    simp only [Declaration.supertypes, List.mem_append, Option.mem_toList] at ht
    rcases ht with (ht | ht) | ht
    · exact hnames type (List.mem_of_head? ht)
    · exact hold type (.inl (.inr ht))
    · exact hold type (.inr ht)
  · refine ⟨h.file_eq, h.name, fun type ht => ?_⟩
    simp only [Declaration.supertypes, List.mem_append, Option.mem_toList] at ht
    rcases ht with (ht | ht | ht) | ht
    · exact hold type (.inl (.inl ht))
    · exact hold type (.inl (.inr ht))
    · exact hnames type ht
    · exact hold type (.inr ht)
  · refine ⟨h.file_eq, h.name, fun type ht => ?_⟩
    simp only [Declaration.supertypes, List.mem_append, Option.mem_toList] at ht
    rcases ht with ht | ht | ht
    · exact hold type (.inl ht)
    · exact hold type (.inr ht)
    · exact hnames type ht
  · split
    · next first more htypes =>
      rw [htypes] at hnames
      refine ⟨h.file_eq, h.name, fun type ht => ?_⟩
      simp only [Declaration.supertypes, List.mem_append, Option.mem_toList] at ht
      rcases ht with (ht | ht) | ht | ht
      · exact hnames type (Option.some.inj ht ▸ List.mem_cons_self)
      · exact hold type (.inl (.inr ht))
      · exact hold type (.inr ht)
      · exact hnames type (List.mem_cons_of_mem _ ht)
    · exact h

theorem Scanned.foldl_applyClause {file : Path} {d : Declaration} (h : Scanned file d)
    (clauses : List (Clause × List Char)) : Scanned file (clauses.foldl Source.applyClause d) := by
  induction clauses generalizing d with
  | nil => exact h
  | cons clause clauses ih => exact ih (h.applyClause clause)

theorem scanned_declaration? {header : List Char} {file : Path} {line : Nat} {d : Declaration}
    (h : declaration? header file line = some d) : Scanned file d := by
  simp only [declaration?] at h
  split at h
  · cases h
  · next heading hheading =>
    obtain ⟨keyword, -, hk⟩ := List.exists_of_findSome?_eq_some hheading
    split at h
    · cases h
    · obtain rfl := Option.some.inj h
      apply Scanned.foldl_applyClause
      refine ⟨rfl, ?_, fun type ht => absurd ht List.not_mem_nil⟩
      rw [PlainName, String.toList_ofList]
      exact not_mem_headingWith? hk

theorem scanned_alias? {statement : List Char} {file : Path} {line : Nat} {d : Declaration}
    (h : alias? statement file line = some d) : Scanned file d := by
  obtain ⟨name, hname, rfl⟩ := Option.map_eq_some_iff.mp h
  refine ⟨rfl, ?_, fun type ht => absurd ht List.not_mem_nil⟩
  rw [PlainName, String.toList_ofList]
  simp only [aliasName?] at hname
  split at hname
  · cases hname
  · split at hname
    · rw [eq_of_identifier? hname]
      exact not_mem_takeWhile (by decide) _
    · split at hname
      · rw [eq_of_identifier? hname, List.mem_reverse]
        exact not_mem_takeWhile (by decide) _
      · cases hname

/-! ## The scan -/

/-- All declarations read so far are of the file. -/
structure ScannedSoFar (file : Path) (s : ScanState) : Prop where
  declarations : ∀ d ∈ s.declarations, Scanned file d
  current : ∀ d ∈ s.current, Scanned file d.declaration

theorem ScannedSoFar.pass {file : Path} {s s' : ScanState} {piece : List Char × Mark}
    (h : ScannedSoFar file s) (hp : s.pass file piece = .ok s') : ScannedSoFar file s' := by
  obtain ⟨segment, mark⟩ := piece
  -- A segment of a body adds to the members of the open declaration and keeps the rest of it.
  have hadd : ∀ d ∈ s.current.map (·.add segment), Scanned file d.declaration := by
    intro d hd
    obtain ⟨d', hd', rfl⟩ := Option.map_eq_some_iff.mp hd
    obtain ⟨hfile, hname, hsupertypes⟩ := h.current d' hd'
    exact ⟨hfile, hname, hsupertypes⟩
  simp only [ScanState.pass] at hp
  split at hp
  · obtain rfl := Except.ok.inj hp
    refine ⟨h.declarations, fun d hd => ?_⟩
    obtain ⟨d', hd', rfl⟩ := Option.map_eq_some_iff.mp hd
    exact scanned_declaration? hd'
  · obtain rfl := Except.ok.inj hp
    exact ⟨h.declarations, hadd⟩
  · obtain rfl := Except.ok.inj hp
    exact ⟨h.declarations, h.current⟩
  · cases hp
  · obtain rfl := Except.ok.inj hp
    refine ⟨fun d hd => ?_, by simp⟩
    rcases List.mem_append.mp hd with hd | hd
    · exact h.declarations d hd
    · obtain ⟨d', hd', rfl⟩ := Option.map_eq_some_iff.mp (Option.mem_toList.mp hd)
      exact hadd _ (Option.mem_map_of_mem _ hd')
  · obtain rfl := Except.ok.inj hp
    exact ⟨h.declarations, h.current⟩
  · obtain rfl := Except.ok.inj hp
    refine ⟨fun d hd => ?_, h.current⟩
    rcases List.mem_append.mp hd with hd | hd
    · exact h.declarations d hd
    · exact scanned_alias? (Option.mem_toList.mp hd)
  · obtain rfl := Except.ok.inj hp
    exact ⟨h.declarations, hadd⟩
  · obtain rfl := Except.ok.inj hp
    exact ⟨h.declarations, h.current⟩

theorem ScannedSoFar.foldlM {file : Path} {pieces : List (List Char × Mark)} {s s' : ScanState}
    (h : ScannedSoFar file s) (hp : pieces.foldlM (ScanState.pass file) s = .ok s') :
    ScannedSoFar file s' := by
  induction pieces generalizing s with
  | nil =>
    obtain rfl : s = s' := by simpa [pure, Except.pure] using hp
    exact h
  | cons piece pieces ih =>
    rw [List.foldlM_cons] at hp
    cases hnext : s.pass file piece with
    | error fault => simp [hnext, bind, Except.bind] at hp
    | ok next =>
      simp only [hnext, bind, Except.bind] at hp
      exact ih (h.pass hnext) hp

theorem scanned_of_scan {file : Path} {source : List Char} {declarations : List Declaration}
    (h : scan file source = .ok declarations) : ∀ d ∈ declarations, Scanned file d := by
  rw [scan] at h
  split at h
  · cases h
  · next s hs =>
    split at h
    · obtain rfl := Except.ok.inj h
      exact (ScannedSoFar.foldlM ⟨by simp, by simp⟩ hs).declarations
    · cases h

end Source

end Recheck
