import Recheck.Proofs.Path.Pieces
import Recheck.Proofs.Source.Constructors
import Recheck.Proofs.Source.Lines

/-!
# The constants of an enumeration

The body of an enumeration starts with its constants: names, each with an argument list or without,
with commas between them. The scan reports the names in order (`enumeration_reports_constants`), but
it cuts the list at every comma, those between arguments included, so where an argument behind a
comma starts with a name, it is reported as well (`argument_taken_for_constant`).
-/

namespace Recheck

/-- A declaration with further members. -/
def Declaration.withMembers (d : Declaration) (members : List String) : Declaration :=
  { d with members := d.members ++ members }

theorem Declaration.withMembers_withMembers (d : Declaration) (members members' : List String) :
    (d.withMembers members).withMembers members' = d.withMembers (members ++ members') := by
  simp [withMembers, List.append_assoc]

namespace Source

open Text (isBlank)

/-! ## Lists of constants -/

/-- An identifier: identifier characters, the first of them no digit. -/
structure Identifier (name : List Char) : Prop extends Word name where
  start : ∀ c ∈ name.head?, c.isDigit = false

/-- The texts with balanced parentheses. -/
inductive Nested : List Char → Prop where
  | nil : Nested []
  | char {c : Char} {rest : List Char} (hc : c ≠ '(' ∧ c ≠ ')') (hrest : Nested rest) :
    Nested (c :: rest)
  | group {inner rest : List Char} (hinner : Nested inner) (hrest : Nested rest) :
    Nested ('(' :: inner ++ ')' :: rest)

/-- What follows the name of a constant: an argument list or none, among blanks. -/
inductive ConstantTail : List Char → Prop where
  | bare {blanks : List Char} (hblanks : ∀ c ∈ blanks, isBlank c) : ConstantTail blanks
  | call {blanks arguments blanks' : List Char} (hblanks : ∀ c ∈ blanks, isBlank c)
    (harguments : Nested arguments) (hblanks' : ∀ c ∈ blanks', isBlank c) :
    ConstantTail (blanks ++ '(' :: (arguments ++ ')' :: blanks'))

/-- A constant of an enumeration. -/
structure Constant where
  lead : List Char
  name : List Char
  tail : List Char
  lead_blank : ∀ c ∈ lead, isBlank c
  identifier : Identifier name
  tail_shape : ConstantTail tail
  tail_unmarked : Unmarked tail

/-- The text of a constant. -/
def Constant.text (constant : Constant) : List Char :=
  constant.lead ++ (constant.name ++ constant.tail)

/-- What may follow the last constant: a comma. -/
inductive ListEnd : List Char → Prop where
  | nil : ListEnd []
  | comma {blanks : List Char} (hblanks : ∀ c ∈ blanks, isBlank c) : ListEnd (',' :: blanks)

/-! ## Names at the start of a text -/

/-- The text starts with a name, blanks aside. -/
structure StartsInName (text name : List Char) : Prop extends Identifier name where
  exists_rest : ∃ blanks rest, text = blanks ++ (name ++ rest) ∧ (∀ c ∈ blanks, isBlank c) ∧
    ∀ c ∈ rest.head?, isIdentifierChar c = false

/-- What is read of a piece of the list: its text before a parenthesis, without annotations. -/
def readPart (piece : List Char) : List Char :=
  withoutAnnotations 0 (piece.takeWhile (· ≠ '('))

/-- The name that is read of a piece of the list. -/
def leadingName? (piece : List Char) : Option (List Char) :=
  leadingIdentifier? (clean (piece.takeWhile (· ≠ '(')))

theorem constants_eq_filterMap (segment : List Char) :
    constants segment = (Text.splitOn ',' segment).filterMap leadingName? := rfl

/-- A stretch without blanks is not padded. -/
theorem Padded.takeWhile_eq {p : Char → Bool} (hp : ∀ c, isBlank c → p c = false) {a b : List Char}
    (h : Padded a b) : a.takeWhile p = b.takeWhile p := by
  induction h with
  | nil => rfl
  | char c _ ih => simp only [List.takeWhile_cons, ih]
  | blank hc hd _ _ => simp [hp _ hc, hp _ hd]
  | @extra c a b hc hb _ _ =>
    cases b with
    | nil => simp [hp c hc]
    | cons d b => simp [hp c hc, hp d (atBlank_cons.mp hb)]

theorem leadingName?_eq (piece : List Char) :
    leadingName? piece = leadingIdentifier? (Text.trimLeft (readPart piece)) := by
  have hblank : ∀ c, isBlank c → isIdentifierChar c = false :=
    fun c hc => (not_isIdentifierChar_of_isBlank hc).1
  have hstart := (padded_join_words (readPart piece)).takeWhile_eq hblank
  rw [leadingName?, leadingIdentifier?, leadingIdentifier?, hstart]
  rfl

theorem leadingIdentifier?_trimLeft_eq_some_iff {text name : List Char} :
    leadingIdentifier? (Text.trimLeft text) = some name ↔ StartsInName text name := by
  rw [leadingIdentifier?, identifier?_eq_some_iff]
  constructor
  · rintro ⟨hrun, hne, hstart⟩
    have hchars : ∀ c ∈ name, isIdentifierChar c := by
      rw [← hrun]
      exact fun c => List.mem_takeWhile_imp
    refine ⟨⟨⟨hne, hchars⟩, hstart⟩, text.takeWhile isBlank,
      (Text.trimLeft text).dropWhile isIdentifierChar, ?_, fun c => List.mem_takeWhile_imp, ?_⟩
    · rw [← hrun, List.takeWhile_append_dropWhile, Text.trimLeft, List.takeWhile_append_dropWhile]
    · intro c hc
      have hstop := List.head?_dropWhile_not isIdentifierChar (Text.trimLeft text)
      rw [Option.mem_def.mp hc] at hstop
      exact hstop
  · intro h
    obtain ⟨blanks, rest, rfl, hblanks, hrest⟩ := h.exists_rest
    have hsolid : ∀ c ∈ (name ++ rest).head?, isBlank c = false := by
      intro c hc
      rw [List.head?_append_of_ne_nil _ h.ne_nil] at hc
      exact not_isBlank_of_isIdentifierChar (h.chars c (List.mem_of_mem_head? hc))
    refine ⟨?_, h.ne_nil, h.start⟩
    rw [Text.trimLeft, dropWhile_append_stop hblanks hsolid, takeWhile_append_stop h.chars hrest]

/-- The name that is read of a piece is the one it starts with. -/
theorem leadingName?_eq_some_iff {piece name : List Char} :
    leadingName? piece = some name ↔ StartsInName (readPart piece) name := by
  rw [leadingName?_eq, leadingIdentifier?_trimLeft_eq_some_iff]

/-! ## What is reported -/

/-- The pieces behind the commas between the arguments of a constant. -/
def Constant.laterPieces (constant : Constant) : List (List Char) :=
  (Text.splitOn ',' constant.tail).tail

/-- What is reported for a constant. -/
def Constant.reported (constant : Constant) : List (List Char) :=
  constant.name :: constant.laterPieces.filterMap leadingName?

theorem splitOn_append_of_not_mem {sep : Char} {a b piece : List Char} {pieces : List (List Char)}
    (ha : sep ∉ a) (hb : Text.splitOn sep b = piece :: pieces) :
    Text.splitOn sep (a ++ b) = (a ++ piece) :: pieces := by
  induction a with
  | nil => exact hb
  | cons c a ih =>
    rw [List.mem_cons, not_or] at ha
    exact splitOn_cons_of_ne (Ne.symm ha.1) (ih ha.2)

theorem not_mem_of_isBlank {c : Char} (hc : isBlank c = false) {blanks : List Char}
    (hblanks : ∀ d ∈ blanks, isBlank d) : c ∉ blanks :=
  fun hmem => Bool.false_ne_true (hc.symm.trans (hblanks c hmem))

/-- The first piece of what follows a name ends the name. -/
theorem ConstantTail.exists_piece {tail : List Char} (h : ConstantTail tail) :
    ∃ blanks rest pieces, Text.splitOn ',' tail = (blanks ++ rest) :: pieces ∧
      (∀ c ∈ blanks, isBlank c) ∧ ∀ c ∈ rest.head?, c = '(' := by
  cases h with
  | bare hblanks =>
    have hcomma := not_mem_of_isBlank (c := ',') (by decide) hblanks
    refine ⟨tail, [], [], ?_, hblanks, by simp⟩
    rw [Text.splitOn_of_not_mem hcomma, List.append_nil]
  | @call blanks arguments blanks' hblanks _ _ =>
    obtain ⟨piece, pieces, hpieces⟩ :=
      List.exists_cons_of_ne_nil (Text.splitOn_ne_nil ',' (arguments ++ ')' :: blanks'))
    have hopen := splitOn_cons_of_ne (show '(' ≠ ',' by decide) hpieces
    have hcomma := not_mem_of_isBlank (c := ',') (by decide) hblanks
    exact ⟨blanks, '(' :: piece, pieces, splitOn_append_of_not_mem hcomma hopen, hblanks, by simp⟩

theorem leadingName?_constant {lead name blanks rest : List Char} (hlead : ∀ c ∈ lead, isBlank c)
    (hname : Identifier name) (hblanks : ∀ c ∈ blanks, isBlank c)
    (hrest : ∀ c ∈ rest.head?, c = '(') :
    leadingName? (lead ++ (name ++ (blanks ++ rest))) = some name := by
  have hsolid : ∀ d : Char, isBlank d = false → isIdentifierChar d = false →
      d ∉ lead ++ (name ++ blanks) := by
    intro d hblank hchar
    simp only [List.mem_append, not_or]
    refine ⟨not_mem_of_isBlank hblank hlead, fun hmem => ?_, not_mem_of_isBlank hblank hblanks⟩
    exact Bool.false_ne_true (hchar.symm.trans (hname.chars d hmem))
  have hread : readPart (lead ++ (name ++ (blanks ++ rest))) = lead ++ (name ++ blanks) := by
    have hpart : (lead ++ (name ++ blanks) ++ rest).takeWhile (· ≠ '(') =
        lead ++ (name ++ blanks) := by
      refine takeWhile_append_stop (fun c hc => ?_) fun c hc => ?_
      · rw [decide_eq_true_eq]
        exact fun heq => hsolid '(' (by decide) (by decide) (heq ▸ hc)
      · rw [hrest c hc]
        rfl
    rw [readPart, ← List.append_assoc name, ← List.append_assoc lead, hpart,
      withoutAnnotations_of_not_mem (hsolid '@' (by decide) (by decide))]
  rw [leadingName?_eq_some_iff, hread]
  refine ⟨hname, lead, blanks, rfl, hlead, fun c hc => ?_⟩
  exact (not_isIdentifierChar_of_isBlank (hblanks c (List.mem_of_mem_head? hc))).1

theorem constants_text (constant : Constant) : constants constant.text = constant.reported := by
  obtain ⟨blanks, rest, pieces, hpieces, hblanks, hrest⟩ := constant.tail_shape.exists_piece
  have hcomma : ',' ∉ constant.lead ++ constant.name := by
    rw [List.mem_append, not_or]
    refine ⟨not_mem_of_isBlank (by decide) constant.lead_blank, fun hmem => ?_⟩
    exact absurd (constant.identifier.chars ',' hmem) (by decide)
  have hname := leadingName?_constant constant.lead_blank constant.identifier hblanks hrest
  rw [Constant.text, ← List.append_assoc, constants_eq_filterMap,
    splitOn_append_of_not_mem hcomma hpieces, List.append_assoc, List.filterMap_cons_some hname,
    Constant.reported, Constant.laterPieces, hpieces, List.tail_cons]

theorem constants_append_comma (a b : List Char) :
    constants (a ++ ',' :: b) = constants a ++ constants b := by
  rw [constants_eq_filterMap, Text.splitOn_append_cons, List.filterMap_append]
  rfl

theorem constants_of_isBlank {blanks : List Char} (h : ∀ c ∈ blanks, isBlank c) :
    constants blanks = [] := by
  have hcomma := not_mem_of_isBlank (c := ',') (by decide) h
  have hwords : wordsOf (blanks.takeWhile (· ≠ '(')) = [] :=
    wordsOf_of_isBlank fun c hc => h c ((List.takeWhile_prefix _).subset hc)
  rw [constants, Text.splitOn_of_not_mem hcomma, List.filterMap_cons, clean, hwords]
  rfl

theorem constants_join (list : List Constant) :
    constants (Text.join ',' (list.map Constant.text)) = list.flatMap Constant.reported := by
  induction list with
  | nil => rfl
  | cons constant list ih =>
    cases list with
    | nil => simpa [Text.join] using constants_text constant
    | cons next list =>
      rw [List.map_cons, List.map_cons, Text.join_cons_cons, constants_append_comma,
        constants_text, List.flatMap_cons, ← ih, List.map_cons]

/-- The list as a whole. -/
theorem constants_list (list : List Constant) {ending : List Char} (hending : ListEnd ending) :
    constants (Text.join ',' (list.map Constant.text) ++ ending) =
      list.flatMap Constant.reported := by
  cases hending with
  | nil => rw [List.append_nil, constants_join]
  | comma hblanks =>
    rw [constants_append_comma, constants_join, constants_of_isBlank hblanks, List.append_nil]

/-! ## The enumeration in a source -/

variable {file : Path} {s s' : ScanState}

/-- Passing a segment keeps the finished declarations. -/
theorem declarations_pass {piece : List Char × Mark} (h : s.pass file piece = .ok s') :
    s.declarations <+: s'.declarations := by
  obtain ⟨segment, mark⟩ := piece
  obtain ⟨declarations, current, braces, newlines⟩ := s
  cases mark <;> rcases braces with _ | ⟨line, _ | ⟨outer, braces⟩⟩ <;> cases h <;> simp

/-- What every segment keeps, a text keeps. -/
theorem Passes.invariant {P : ScanState → Prop} {text : List Char} (h : Passes file text s s')
    (hstep : ∀ {s s' piece}, P s → s.pass file piece = .ok s' → P s') (hs : P s) : P s' := by
  rw [Passes] at h
  generalize (segments text).1 = pieces at h
  induction pieces generalizing s with
  | nil =>
    cases h
    exact hs
  | cons piece pieces ih =>
    rw [List.foldlM_cons] at h
    cases hpass : s.pass file piece with
    | error fault =>
      rw [hpass] at h
      cases h
    | ok next =>
      rw [hpass] at h
      exact ih (hstep hs hpass) h

theorem Passes.append_iff {a b : List Char} {s'' : ScanState} (ha : Passes file a s s')
    (hend : EndsAtMark a) : Passes file (a ++ b) s s'' ↔ Passes file b s' s'' := by
  rw [Passes] at ha
  rw [Passes, Passes, segments_append hend, List.foldlM_append, ha]
  rfl

/-- A segment with its mark is passed alone. -/
theorem passes_segment_iff {segment rest : List Char} {c : Char} {mark : Mark} {s'' : ScanState}
    (hsegment : Unmarked segment) (hc : Mark.ofChar? c = some mark)
    (hpass : s.pass file (segment, mark) = .ok s') :
    Passes file (segment ++ c :: rest) s s'' ↔ Passes file rest s' s'' := by
  have hend : EndsAtMark (segment ++ [c]) :=
    (endsAtMark_append (List.cons_ne_nil c [])).mpr (by simp [EndsAtMark, hc])
  rw [List.append_cons, (passes_mark hsegment hc hpass).append_iff hend]

/-- A segment of a body adds members, if anything. -/
theorem exists_add_eq (d : OpenDeclaration) (segment : List Char) :
    ∃ more, (d.add segment).declaration = d.declaration.withMembers more := by
  rw [OpenDeclaration.add]
  dsimp only
  split
  · exact ⟨_, rfl⟩
  · split
    · exact ⟨[], by simp [Declaration.withMembers]⟩
    · split
      · exact ⟨[], by simp [Declaration.withMembers]⟩
      · exact ⟨_, rfl⟩

/-- The declaration `d` is reported behind `base` with further members, or its body is open. -/
inductive Holds (base : List Declaration) (d : Declaration) (s : ScanState) : Prop where
  | opened {more : List String} {fresh : Bool} (hdeclarations : s.declarations = base)
    (hcurrent : s.current = some { declaration := d.withMembers more, fresh })
    (hbraces : s.braces ≠ [])
  | closed {more : List String} (hreported : base ++ [d.withMembers more] <+: s.declarations)

theorem Holds.pass {base : List Declaration} {d : Declaration} {piece : List Char × Mark}
    (h : Holds base d s) (hpass : s.pass file piece = .ok s') : Holds base d s' := by
  cases h with
  | closed hreported => exact .closed (hreported.trans (declarations_pass hpass))
  | @opened more fresh hdeclarations hcurrent hbraces =>
    obtain ⟨segment, mark⟩ := piece
    obtain ⟨declarations, current, braces, newlines⟩ := s
    obtain rfl : declarations = base := hdeclarations
    obtain rfl : current = _ := hcurrent
    obtain ⟨more', hmore⟩ := exists_add_eq ⟨d.withMembers more, fresh⟩ segment
    rw [Declaration.withMembers_withMembers] at hmore
    have hadd : OpenDeclaration.add ⟨d.withMembers more, fresh⟩ segment =
        ⟨d.withMembers (more ++ more'), false⟩ := by
      rw [← hmore]
      rfl
    rcases braces with _ | ⟨line, _ | ⟨outer, braces⟩⟩
    · exact absurd rfl hbraces
    · cases mark <;> cases hpass
      · exact .opened rfl (congrArg some hadd) (by simp)
      · exact @Holds.closed _ _ _ (more ++ more') (by simp [hadd])
      · exact .opened rfl (congrArg some hadd) (by simp)
    · cases mark <;> cases hpass <;> exact .opened rfl rfl (by simp)

theorem scan_eq_ok_iff {source : List Char} {declarations : List Declaration} :
    scan file source = .ok declarations ↔
      ∃ s, Passes file (mask source) {} s ∧ s.braces = [] ∧ s.declarations = declarations := by
  rw [scan]
  simp only [Passes]
  cases (segments (mask source)).1.foldlM (ScanState.pass file) {} with
  | error fault => simp
  | ok s =>
    obtain ⟨declarations', current, braces, newlines⟩ := s
    cases braces <;> simp

/-- A masked text that ends outside all braces, behind a complete segment. -/
structure Outside (before : List Char) : Prop where
  ends : before = [] ∨ EndsAtMark before
  balanced : Balanced (braces before)

theorem Outside.exists_passes {before : List Char} (h : Outside before) (file : Path) :
    ∃ s, s.braces = [] ∧ s.newlines = before.count '\n' ∧
      ∀ {text s'}, Passes file (before ++ text) {} s' ↔ Passes file text s s' := by
  obtain ⟨s, hs, hbraces⟩ := exists_passes_of_balanced (s := {}) file h.balanced
  rcases h.ends with rfl | hend
  · exact ⟨{}, rfl, rfl, Iff.rfl⟩
  · have hnewlines := hs.newlines_eq_of_endsAtMark hend
    exact ⟨s, hbraces, by simpa using hnewlines, hs.append_iff hend⟩

theorem ofChar?_of_isIdentifierChar {c : Char} (hc : isIdentifierChar c) :
    Mark.ofChar? c = none := by
  cases hmark : Mark.ofChar? c with
  | none => rfl
  | some mark =>
    rw [← Mark.char_of_ofChar? hmark] at hc
    cases mark <;> cases hc

theorem Constant.text_unmarked (constant : Constant) : Unmarked constant.text := by
  intro c hc
  simp only [text, List.mem_append] at hc
  rcases hc with hc | hc | hc
  · exact ofChar?_of_isBlank (constant.lead_blank c hc)
  · exact ofChar?_of_isIdentifierChar (constant.identifier.chars c hc)
  · exact constant.tail_unmarked c hc

theorem unmarked_append {a b : List Char} : Unmarked (a ++ b) ↔ Unmarked a ∧ Unmarked b :=
  List.forall_mem_append

theorem unmarked_join (list : List Constant) :
    Unmarked (Text.join ',' (list.map Constant.text)) := by
  induction list with
  | nil => simp [Unmarked, Text.join]
  | cons constant list ih =>
    cases list with
    | nil => simpa [Text.join] using constant.text_unmarked
    | cons next list =>
      rw [List.map_cons, List.map_cons, Text.join_cons_cons, unmarked_append]
      exact ⟨constant.text_unmarked, List.forall_mem_cons.mpr ⟨rfl, ih⟩⟩

theorem ListEnd.unmarked {ending : List Char} (h : ListEnd ending) : Unmarked ending := by
  cases h with
  | nil => simp [Unmarked]
  | comma hblanks =>
    exact List.forall_mem_cons.mpr ⟨rfl, fun c hc => ofChar?_of_isBlank (hblanks c hc)⟩

/-- The first segment of an enumeration. -/
theorem add_constants {d : Declaration} (hkind : d.kind = .enumeration) (segment : List Char) :
    OpenDeclaration.add { declaration := d } segment =
      { declaration := d.withMembers ((constants segment).map String.ofList), fresh := false } := by
  simp [OpenDeclaration.add, hkind, Declaration.withMembers]

theorem members_foldl_applyClause (clauses : List (Clause × List Char)) (d : Declaration) :
    (clauses.foldl applyClause d).members = d.members := by
  induction clauses generalizing d with
  | nil => rfl
  | cons clause clauses ih =>
    rw [List.foldl_cons, ih, applyClause]
    split
    all_goals first | rfl | (split <;> rfl)

/-- A header declares no members. -/
theorem members_declaration? {header : List Char} {line : Nat} {d : Declaration}
    (h : declaration? header file line = some d) : d.members = [] := by
  rw [declaration?] at h
  dsimp only at h
  split at h
  · cases h
  · split at h
    · cases h
    · obtain rfl := Option.some.inj h
      exact members_foldl_applyClause _ _

theorem filterMap_leadingName?_eq_nil_iff {pieces : List (List Char)} :
    pieces.filterMap leadingName? = [] ↔
      ∀ piece ∈ pieces, ∀ name, ¬ StartsInName (readPart piece) name := by
  rw [List.filterMap_eq_nil_iff]
  refine forall₂_congr fun piece _ => ?_
  rw [Option.eq_none_iff_forall_ne_some]
  exact forall_congr' fun name => not_congr leadingName?_eq_some_iff

theorem length_le_reported (list : List Constant) :
    list.length ≤ (list.flatMap Constant.reported).length := by
  induction list with
  | nil => exact Nat.le_refl 0
  | cons constant list ih =>
    simp only [List.flatMap_cons, List.length_append, Constant.reported, List.length_cons]
    omega

/-- What is reported are the names exactly if no argument behind a comma starts with a name. -/
theorem reported_eq_names_iff (list : List Constant) :
    list.flatMap Constant.reported = list.map Constant.name ↔
      ∀ constant ∈ list, ∀ piece ∈ constant.laterPieces, ∀ name,
        ¬ StartsInName (readPart piece) name := by
  simp only [← filterMap_leadingName?_eq_nil_iff]
  induction list with
  | nil => simp
  | cons constant list ih =>
    rw [List.forall_mem_cons, ← ih, List.flatMap_cons, List.map_cons, Constant.reported,
      List.cons_append, List.cons_inj_right]
    constructor
    · intro h
      -- The names alone are as many as what is left, so nothing was read of the arguments.
      have hlength := congrArg List.length h
      rw [List.length_append, List.length_map] at hlength
      have hnames := length_le_reported list
      have hnone : constant.laterPieces.filterMap leadingName? = [] :=
        List.eq_nil_of_length_eq_zero (by omega)
      exact ⟨hnone, by simpa [hnone] using h⟩
    · rintro ⟨hnone, hrest⟩
      rw [hnone, List.nil_append, hrest]

/-- A header outside all braces opens the declaration that is read of it. -/
theorem pass_header {header : List Char} {d : Declaration} (hs : s.braces = [])
    (hd : declaration? header file (lineAfter (s.newlines + leadingNewlines header)) = some d) :
    s.pass file (header, .openBrace) = .ok
      { s with
        current := some { declaration := d }
        braces := [lineAfter (s.newlines + header.count '\n')]
        newlines := s.newlines + header.count '\n' } := by
  obtain ⟨declarations, current, braces, newlines⟩ := s
  obtain rfl : braces = [] := hs
  simp only [ScanState.pass, hd, Option.map_some]

theorem pass_semicolon_body {line : Nat} (hs : s.braces = [line]) (segment : List Char) :
    s.pass file (segment, .semicolon) = .ok
      { s with
        current := s.current.map (·.add segment)
        newlines := s.newlines + segment.count '\n' } := by
  obtain ⟨declarations, current, braces, newlines⟩ := s
  obtain rfl : braces = [line] := hs
  rfl

theorem pass_closeBrace_body {line : Nat} (hs : s.braces = [line]) (segment : List Char) :
    s.pass file (segment, .closeBrace) = .ok
      { s with
        declarations :=
          s.declarations ++ (s.current.map fun d => (d.add segment).declaration).toList
        current := none
        braces := []
        newlines := s.newlines + segment.count '\n' } := by
  obtain ⟨declarations, current, braces, newlines⟩ := s
  obtain rfl : braces = [line] := hs
  rfl

/-- In the source an enumeration stands outside all braces, of whose header `d` is read. Its body
starts with a list of constants that ends with `stop`. -/
structure ListsConstants (file : Path) (source : List Char) (d : Declaration)
    (list : List Constant) (stop : Char) : Prop where
  balanced : Balanced (braces (mask source))
  kind : d.kind = .enumeration
  stop_eq : stop = ';' ∨ stop = '\x7d'
  exists_parts : ∃ before header ending rest,
    mask source = before ++ (header ++ '\x7b' ::
      (Text.join ',' (list.map Constant.text) ++ ending ++ stop :: rest)) ∧
    Outside before ∧ Unmarked header ∧ ListEnd ending ∧
    declaration? header file (lineAfter (before.count '\n' + leadingNewlines header)) = some d

/-- The scan reports the constants in order, each followed by the names that its arguments behind a
comma start with, before the other members; so it reports exactly the constants if and only if there
are no such names. -/
theorem enumeration_reports_constants {file : Path} {source : List Char} {d : Declaration}
    {list : List Constant} {stop : Char} (h : ListsConstants file source d list stop) :
    (∃ earlier more later, scan file source = .ok (earlier ++
        { d with members := (list.flatMap Constant.reported).map String.ofList ++ more } :: later) ∧
      (stop = '\x7d' → more = [])) ∧
    (list.flatMap Constant.reported = list.map Constant.name ↔
      ∀ constant ∈ list, ∀ piece ∈ constant.laterPieces, ∀ name,
        ¬ StartsInName (readPart piece) name) := by
  refine ⟨?_, reported_eq_names_iff list⟩
  obtain ⟨before, header, ending, rest, hmask, hbefore, hheader, hending, hd⟩ := h.exists_parts
  obtain ⟨declarations, hscan⟩ :=
    (exists_scan_iff : (∃ declarations, scan file source = .ok declarations) ↔ _).mpr h.balanced
  obtain ⟨s', hs', hbraces', rfl⟩ := scan_eq_ok_iff.mp hscan
  obtain ⟨s, hbraces, hnewlines, hfold⟩ := hbefore.exists_passes file
  have hlist : Unmarked (Text.join ',' (list.map Constant.text) ++ ending) :=
    unmarked_append.mpr ⟨unmarked_join list, hending.unmarked⟩
  have hadd := add_constants h.kind (Text.join ',' (list.map Constant.text) ++ ending)
  rw [constants_list list hending] at hadd
  rw [← hnewlines] at hd
  rw [hscan]
  rw [hmask, hfold, passes_segment_iff hheader rfl (pass_header hbraces hd)] at hs'
  rcases h.stop_eq with rfl | rfl
  · rw [passes_segment_iff hlist rfl (pass_semicolon_body rfl _)] at hs'
    have hholds := hs'.invariant (P := Holds s.declarations
      (d.withMembers ((list.flatMap Constant.reported).map String.ofList))) Holds.pass
      (@Holds.opened _ _ _ [] false rfl (by simp [hadd, Declaration.withMembers])
        (List.cons_ne_nil _ _))
    cases hholds with
    | opened _ _ hne => exact absurd hbraces' hne
    | @closed more hreported =>
      obtain ⟨later, hlater⟩ := hreported
      refine ⟨s.declarations, more, later, ?_, nofun⟩
      rw [← hlater]
      simp [Declaration.withMembers, members_declaration? hd]
  · rw [passes_segment_iff hlist rfl (pass_closeBrace_body rfl _)] at hs'
    have hreported := hs'.invariant (P := fun t => s.declarations ++
      [d.withMembers ((list.flatMap Constant.reported).map String.ofList)] <+: t.declarations)
      (fun hreported hpass => hreported.trans (declarations_pass hpass)) (by simp [hadd])
    obtain ⟨later, hlater⟩ := hreported
    refine ⟨s.declarations, [], later, ?_, fun _ => rfl⟩
    rw [← hlater]
    simp [Declaration.withMembers, members_declaration? hd]

section Sample

/-- An enumeration with arguments behind commas, hidden commas and a comma at the end. -/
def sampleEnumeration : List Char :=
  ("class A \x7b\x7d\nenum E implements I \x7b\n  red(1, f(2, x)),\n" ++
    "  green (', b'), // c, d\n; int z;\x7d").toList

theorem nested_append {a b : List Char} (ha : (a.all fun c => c != '(' && c != ')') = true)
    (hb : Nested b) : Nested (a ++ b) := by
  induction a with
  | nil => exact hb
  | cons c a ih =>
    rw [List.all_cons, Bool.and_eq_true, Bool.and_eq_true, bne_iff_ne, bne_iff_ne] at ha
    exact .char ha.1 (ih ha.2)

/-- Its constants, as they stand in the mask. -/
def sampleConstants : List Constant :=
  [{ lead := "\n  ".toList
     name := "red".toList
     tail := "(1, f(2, x))".toList
     lead_blank := List.all_eq_true.mp rfl
     identifier := ⟨⟨by decide, List.all_eq_true.mp rfl⟩, by rintro c ⟨⟩; rfl⟩
     tail_shape := @ConstantTail.call [] "1, f(2, x)".toList [] (by simp)
       (@nested_append "1, f".toList "(2, x)".toList rfl
         (@Nested.group "2, x".toList [] (@nested_append "2, x".toList [] rfl .nil) .nil)) (by simp)
     tail_unmarked := by decide },
   { lead := "\n  ".toList
     name := "green".toList
     tail := " ('   ')".toList
     lead_blank := List.all_eq_true.mp rfl
     identifier := ⟨⟨by decide, List.all_eq_true.mp rfl⟩, by rintro c ⟨⟩; rfl⟩
     tail_shape := @ConstantTail.call [' '] "'   '".toList [] (List.all_eq_true.mp rfl)
       (@nested_append "'   '".toList [] rfl .nil) (by simp)
     tail_unmarked := by decide }]

/-- What is read of its header. -/
def sampleHeader : Declaration where
  name := "E"
  kind := .enumeration
  file := ⟨"a.dart"⟩
  line := some 2
  interfaces := ["I"]

theorem listsConstants_sample :
    ListsConstants ⟨"a.dart"⟩ sampleEnumeration sampleHeader sampleConstants ';' where
  balanced := balanced_braces_iff.mpr (by decide +kernel)
  kind := rfl
  stop_eq := .inl rfl
  exists_parts := by
    refine ⟨"class A \x7b\x7d".toList, "\nenum E implements I ".toList, ",        \n".toList,
      " int z;\x7d".toList, by decide +kernel, ⟨.inr (by decide +kernel), ?_⟩, by decide +kernel,
      .comma (List.all_eq_true.mp rfl), by decide +kernel⟩
    exact balanced_braces_iff.mpr (by decide +kernel)

end Sample

theorem enumeration_reports_constants_sample :
    ListsConstants ⟨"a.dart"⟩ sampleEnumeration sampleHeader sampleConstants ';' ∧
      ∃ earlier more later, scan ⟨"a.dart"⟩ sampleEnumeration = .ok (earlier ++
        { sampleHeader with members := ["red", "f", "x", "green"] ++ more } :: later) := by
  obtain ⟨⟨earlier, more, later, hscan, -⟩, -⟩ :=
    enumeration_reports_constants listsConstants_sample
  have hreported : (sampleConstants.flatMap Constant.reported).map String.ofList =
      ["red", "f", "x", "green"] := by
    decide +kernel
  rw [hreported] at hscan
  exact ⟨listsConstants_sample, earlier, more, later, hscan⟩

/-- An argument behind a comma is taken for a constant. -/
theorem argument_taken_for_constant :
    memberLists "enum E \x7b\n  a(1, x),\n  b;\n\x7d\n" = some [["a", "x", "b"]] := by
  decide +kernel

end Source

end Recheck
