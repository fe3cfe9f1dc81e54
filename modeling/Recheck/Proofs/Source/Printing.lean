import Recheck.Proofs.Source.Headers
import Recheck.Proofs.Source.Offsets

/-!
# Scanning what was printed

A list of abstract declarations (`Item`) is printed in a plain layout, with blanks of any kind
between the declarations and between the members, and scanned again. The scan returns the
declarations (`scan_print`): each in the line in which its header starts, with the members of its
body in order.

Each part of the layout takes the scan from one state to another whatever follows it; `Inside` says
what the scan knows in a body.
-/

namespace Recheck

namespace Source

open Text (isBlank)

/-! ## The layout -/

/-- A field or a method, with the blanks before it. -/
structure Member where
  gap : Gap
  type : Name
  name : Name
  isMethod : Bool

/-- The text of a member up to its semicolon or its body. -/
def Member.segment (member : Member) : List Char :=
  member.gap.text ++ (member.type.text ++ ' ' :: (member.name.text ++
    if member.isMethod then "() ".toList else []))

/-- The text of a member. -/
def Member.text (member : Member) : List Char :=
  member.segment ++ if member.isMethod then "\x7b \x7d".toList else [';']

/-- The constants of an enumeration. -/
def Header.constants : Header → List (Gap × Name)
  | enumeration constants => constants
  | _ => []

/-- The first segment in the body of an enumeration. -/
def Header.listText : Header → List Char
  | enumeration constants =>
    Text.join ',' (constants.map fun constant => constant.1.text ++ constant.2.text) ++ [';']
  | _ => []

/-- What the scan is to report as members. -/
def memberNames (header : Header) (members : List Member) : List String :=
  (header.constants.map fun constant => constant.2.string) ++
    members.map fun member => member.name.string

/-- A declaration with a body: its members have different names, and none has the name of the
declaration. -/
structure Outline where
  gap : Gap
  name : Name
  header : Header
  members : List Member
  close : Gap
  nodup : (memberNames header members).Nodup
  name_not_mem : name.string ∉ memberNames header members

/-- The text of a declaration. -/
def Outline.text (outline : Outline) : List Char :=
  outline.gap.text ++ outline.header.text outline.name ++ '\x7b' ::
    (outline.header.listText ++ (outline.members.flatMap Member.text ++
      (outline.close.text ++ ['\x7d'])))

/-- The text of an alias up to its semicolon. -/
def aliasText (name target : Name) : List Char :=
  "typedef".toList ++ ' ' :: (name.text ++ ' ' :: '=' :: ' ' :: target.text)

/-- An abstract declaration. -/
inductive Item where
  | withBody (outline : Outline)
  | typeAlias (gap : Gap) (name target : Name)

namespace Item

/-- The blanks before a declaration. -/
def gap : Item → Gap
  | withBody outline => outline.gap
  | typeAlias gap .. => gap

/-- The text of a declaration. -/
def text : Item → List Char
  | withBody outline => outline.text
  | typeAlias gap name target => gap.text ++ aliasText name target ++ [';']

/-- What the scan is to report. -/
def declaration (item : Item) (file : Path) (line : Nat) : Declaration :=
  match item with
  | withBody outline =>
    { outline.header.declaration outline.name file line with
      members := memberNames outline.header outline.members }
  | typeAlias _ name _ => { name := name.string, kind := .alias, file, line := some line }

end Item

/-- Declarations one after another, and blanks behind the last. -/
def print (items : List Item) (close : Gap) : List Char := items.flatMap Item.text ++ close.text

/-- The declarations behind a number of newlines, each with the line of its header. -/
def declarationsFrom (file : Path) : Nat → List Item → List Declaration
  | _, [] => []
  | newlines, item :: items =>
    item.declaration file (lineAfter (newlines + item.gap.text.count '\n')) ::
      declarationsFrom file (newlines + item.text.count '\n') items

/-! ## Members -/

theorem Member.segment_segment (member : Member) : Segment member.segment := by
  have htail : Segment (if member.isMethod then "() ".toList else []) := by
    split
    · exact List.all_eq_true.mp rfl
    · exact nofun
  simp only [Member.segment, segment_append, segment_cons]
  exact ⟨member.gap.segment, member.type.letters.segment, rfl, member.name.letters.segment, htail⟩

theorem headOf_member (member : Member) :
    headOf member.segment =
      member.gap.text ++ (member.type.text ++ [' ']) ++ member.name.text := by
  have hplain : ∀ c ∈ member.gap.text ++ (member.type.text ++ [' ']) ++ member.name.text,
      isPlainChar c := by
    have hletters : ∀ {word : List Char}, Letters word → ∀ c ∈ word, isPlainChar c :=
      fun h c hc => isPlainChar_of_isIdentifierChar (h.isIdentifierChar c hc)
    simp only [List.forall_mem_append, List.forall_mem_singleton]
    exact ⟨⟨fun c hc => isPlainChar_of_isBlank (member.gap.isBlank c hc),
      hletters member.type.letters, rfl⟩, hletters member.name.letters⟩
  obtain ⟨hin, hself⟩ := inHead_of_plain hplain
  have htail : headOf (if member.isMethod then "() ".toList else []) = [] := by
    split <;> rfl
  have htext : member.segment = member.gap.text ++ (member.type.text ++ [' ']) ++
      member.name.text ++ if member.isMethod then "() ".toList else [] := by
    simp [Member.segment]
  rw [htext, headOf_append hin.closed hin.head, hself, htail, List.append_nil]

theorem memberName?_member {owner : String} (member : Member)
    (howner : member.name.string ≠ owner) :
    memberName? owner member.segment = some member.name.text := by
  have hplain : '@' ∉ member.segment := member.segment_segment.not_mem (by decide)
  have hlast : (member.gap.text ++ (member.type.text ++ [' '])).getLast? = some ' ' := by simp
  rw [memberName?_eq_some_iff, Names, withoutAnnotations_of_not_mem hplain, headOf_member]
  exact
    { exists_before :=
        ⟨_, [], (List.append_nil _).symm, by simp, by rw [hlast]; rintro c ⟨⟩; decide⟩
      name_ne_nil := member.name.letters.ne_nil
      chars := member.name.letters.isIdentifierChar
      start := member.name.start
      ne_owner := howner
      not_reserved := fun h => member.name.not_mem_vocabulary (by simp [vocabulary, h]) }

theorem memberName?_of_isBlank (owner : String) {blanks : List Char}
    (h : ∀ c ∈ blanks, isBlank c) : memberName? owner blanks = none := by
  have hplain : '@' ∉ blanks := not_mem_of_isBlank (by decide) h
  rw [Option.eq_none_iff_forall_ne_some]
  intro name hname
  rw [memberName?_eq_some_iff, Names, withoutAnnotations_of_not_mem hplain,
    ← List.append_nil blanks, headOf_blanks h, show headOf [] = [] from rfl, List.append_nil,
    ← List.nil_append blanks] at hname
  exact hname.name_ne_nil (hname.of_append (by simp) h).1

/-! ## Bodies -/

/-- The scan is directly inside the braces of a declaration, of which `d` is known, behind the
constants if it is an enumeration. -/
structure ScanState.Inside (s : ScanState) (declarations : List Declaration) (d : Declaration) :
    Prop where
  declarations_eq : s.declarations = declarations
  current : ∃ fresh, s.current = some { declaration := d, fresh } ∧
    (fresh = true → d.kind ≠ .enumeration)
  braces : ∃ line, s.braces = [line]

namespace ScanState.Inside

variable {file : Path} {s : ScanState} {declarations : List Declaration} {d : Declaration}

/-- What a segment makes of the declaration does not depend on whether it is the first. -/
theorem current_add (h : s.Inside declarations d) (segment : List Char) :
    s.current.map (·.add segment) =
      some (OpenDeclaration.add { declaration := d, fresh := false } segment) := by
  obtain ⟨fresh, hcurrent, hkind⟩ := h.current
  rw [hcurrent, Option.map_some]
  cases fresh with
  | false => rfl
  | true => simp [OpenDeclaration.add, hkind rfl]

theorem add_member {member : Member} (howner : member.name.string ≠ d.name)
    (hnew : member.name.string ∉ d.members) :
    OpenDeclaration.add { declaration := d, fresh := false } member.segment =
      { declaration := d.withMembers [member.name.string], fresh := false } := by
  have hnew' : String.ofList member.name.text ∉ d.members := hnew
  simp [OpenDeclaration.add, memberName?_member member howner, hnew', Declaration.withMembers,
    Name.string]

/-- A member is added behind those that are known. -/
theorem exists_member (h : s.Inside declarations d) (file : Path) {member : Member}
    (howner : member.name.string ≠ d.name) (hnew : member.name.string ∉ d.members) :
    ∃ s', s'.Inside declarations (d.withMembers [member.name.string]) ∧
      ∀ {rest s''}, Passes file (member.text ++ rest) s s'' ↔ Passes file rest s' s'' := by
  obtain ⟨line, hline⟩ := h.braces
  have hunmarked := member.segment_segment.unmarked
  have hcurrent := h.current_add member.segment
  rw [add_member howner hnew] at hcurrent
  have hinside : ∀ newlines, ScanState.Inside
      { s with current := s.current.map (·.add member.segment), newlines } declarations
      (d.withMembers [member.name.string]) :=
    fun _ => ⟨h.declarations_eq, ⟨false, hcurrent, nofun⟩, line, hline⟩
  cases hmethod : member.isMethod with
  | false =>
    refine ⟨_, hinside (s.newlines + member.segment.count '\n'), ?_⟩
    intro rest s''
    have htext : member.text ++ rest = member.segment ++ ';' :: rest := by
      simp [Member.text, hmethod]
    rw [htext, passes_segment_iff hunmarked rfl (pass_semicolon_body hline member.segment)]
  | true =>
    have hinner : Balanced (Source.braces [' ']) := .nil
    obtain ⟨newlines, hpasses⟩ := passes_block file hunmarked hinner hline
    refine ⟨_, hinside newlines, ?_⟩
    intro rest s''
    have htext : member.text = member.segment ++ ['\x7b'] ++ ([' '] ++ ['\x7d']) := by
      simp [Member.text, hmethod]
    have hend : EndsAtMark (member.segment ++ ['\x7b'] ++ ([' '] ++ ['\x7d'])) :=
      (endsAtMark_append (List.cons_ne_nil _ _)).mpr rfl
    rw [htext, hpasses.append_iff hend]

theorem exists_members (h : s.Inside declarations d) (file : Path) (members : List Member)
    (hnodup : (d.members ++ members.map fun member => member.name.string).Nodup)
    (howner : d.name ∉ members.map fun member => member.name.string) :
    ∃ s', s'.Inside declarations (d.withMembers (members.map fun member => member.name.string)) ∧
      ∀ {rest s''}, Passes file (members.flatMap Member.text ++ rest) s s'' ↔
        Passes file rest s' s'' := by
  induction members generalizing s d with
  | nil => exact ⟨s, by simpa [Declaration.withMembers] using h, Iff.rfl⟩
  | cons member members ih =>
    rw [List.map_cons, List.mem_cons, not_or] at howner
    have hnew : member.name.string ∉ d.members := by
      intro hmem
      rw [List.map_cons, List.nodup_append] at hnodup
      exact hnodup.2.2 _ hmem _ List.mem_cons_self rfl
    obtain ⟨s₁, hs₁, hpasses₁⟩ := h.exists_member file (Ne.symm howner.1) hnew
    obtain ⟨s', hs', hpasses'⟩ := ih hs₁ (by simpa [Declaration.withMembers] using hnodup) howner.2
    rw [Declaration.withMembers_withMembers, List.singleton_append] at hs'
    refine ⟨s', hs', ?_⟩
    intro rest s''
    rw [List.flatMap_cons, List.append_assoc, hpasses₁, hpasses']

/-- Closing the body reports the declaration. -/
theorem exists_close (h : s.Inside declarations d) (file : Path) (gap : Gap) :
    ∃ s', s'.braces = [] ∧ s'.declarations = declarations ++ [d] ∧
      Passes file (gap.text ++ ['\x7d']) s s' := by
  obtain ⟨line, hline⟩ := h.braces
  have hadd : OpenDeclaration.add { declaration := d, fresh := false } gap.text =
      { declaration := d, fresh := false } := by
    simp [OpenDeclaration.add, memberName?_of_isBlank d.name gap.isBlank]
  have hcurrent := congrArg (Option.map (·.declaration)) (h.current_add gap.text)
  rw [hadd, Option.map_map] at hcurrent
  refine ⟨_, rfl, ?_, passes_mark gap.segment.unmarked rfl (pass_closeBrace_body hline gap.text)⟩
  exact congrArg₂ (fun xs o => xs ++ Option.toList o) h.declarations_eq hcurrent

end ScanState.Inside

/-! ## Openings -/

/-- A constant without arguments. -/
def Constant.plain (constant : Gap × Name) : Constant where
  lead := constant.1.text
  name := constant.2.text
  tail := []
  lead_blank := constant.1.isBlank
  identifier := constant.2.identifier
  tail_shape := .bare nofun
  tail_unmarked := nofun

theorem constants_plain (list : List (Gap × Name)) :
    constants (Text.join ',' (list.map fun constant => constant.1.text ++ constant.2.text)) =
      list.map fun constant => constant.2.text := by
  have htext : (list.map fun constant => constant.1.text ++ constant.2.text) =
      (list.map Constant.plain).map Constant.text := by
    simp [Constant.text, Constant.plain]
  have hreported : ∀ constant, (Constant.plain constant).reported = [constant.2.text] :=
    fun _ => rfl
  rw [htext, constants_join, List.flatMap_map]
  simp only [hreported]
  exact List.map_eq_flatMap.symm

theorem leadingNewlines_gap (gap : Gap) {rest : List Char} (hrest : ∀ c ∈ rest.head?, isLetter c) :
    leadingNewlines (gap.text ++ rest) = gap.text.count '\n' := by
  have hstop : ∀ c ∈ rest.head?, Text.isAsciiBlankChar c = false := by
    intro c hc
    have hblank := not_isBlank_of_isIdentifierChar (isIdentifierChar_of_isLetter (hrest c hc))
    by_contra hne
    rw [Bool.not_eq_false] at hne
    rw [Text.isBlank_of_isAsciiBlankChar hne] at hblank
    cases hblank
  rw [leadingNewlines, funext isAsciiBlankChar_eq, takeWhile_append_stop gap.blank hstop]

theorem Header.isLetter_head?_text (header : Header) (name : Name) :
    ∀ c ∈ (header.text name).head?, isLetter c := by
  have hkeyword := letters_of_mem_vocabulary header.keyword_mem
  have hmodifiers := header.letters_modifiers
  rw [Header.text]
  cases hwords : header.modifiers with
  | nil => exact hkeyword.head?_append (fun _ hc => hc) _
  | cons word words =>
    rw [hwords] at hmodifiers
    rw [List.flatMap_cons, List.append_assoc, List.append_assoc]
    exact (hmodifiers word List.mem_cons_self).head?_append (fun _ hc => hc) _

theorem segment_join {pieces : List (List Char)} (h : ∀ piece ∈ pieces, Segment piece) :
    Segment (Text.join ',' pieces) := by
  induction pieces with
  | nil => exact nofun
  | cons piece pieces ih =>
    obtain ⟨hpiece, h⟩ := List.forall_mem_cons.mp h
    cases pieces with
    | nil => simpa [Text.join] using hpiece
    | cons next pieces =>
      rw [Text.join_cons_cons]
      exact segment_append.mpr ⟨hpiece, segment_cons.mpr ⟨rfl, ih h⟩⟩

theorem segment_constants (list : List (Gap × Name)) :
    Segment (Text.join ',' (list.map fun constant => constant.1.text ++ constant.2.text)) := by
  refine segment_join fun piece hpiece => ?_
  obtain ⟨constant, -, rfl⟩ := List.mem_map.mp hpiece
  exact segment_append.mpr ⟨constant.1.segment, constant.2.letters.segment⟩

theorem Header.enumeration_or (header : Header) :
    (∃ list, header = .enumeration list) ∨
      header.keyword.2 ≠ .enumeration ∧ header.listText = [] ∧ header.constants = [] := by
  cases header with
  | enumeration list => exact .inl ⟨list, rfl⟩
  | classType => exact .inr ⟨nofun, rfl, rfl⟩
  | mixin => exact .inr ⟨nofun, rfl, rfl⟩
  | extension => exact .inr ⟨nofun, rfl, rfl⟩

section

variable (header : Header) (name : Name) (file : Path) (line : Nat)

theorem Header.kind_declaration : (header.declaration name file line).kind = header.keyword.2 := by
  cases header <;> rfl

theorem Header.name_declaration : (header.declaration name file line).name = name.string := by
  cases header <;> rfl

theorem Header.members_declaration : (header.declaration name file line).members = [] := by
  cases header <;> rfl

end

variable {file : Path} {s : ScanState}

/-- The header and the constants of an enumeration open its body. -/
theorem exists_opening (hs : s.braces = []) (file : Path) (outline : Outline) :
    ∃ s', s'.Inside s.declarations
        ((outline.header.declaration outline.name file
          (lineAfter (s.newlines + outline.gap.text.count '\n'))).withMembers
          (outline.header.constants.map fun constant => constant.2.string)) ∧
      ∀ {rest s''}, Passes file (outline.gap.text ++ outline.header.text outline.name ++ '\x7b' ::
        (outline.header.listText ++ rest)) s s'' ↔ Passes file rest s' s'' := by
  obtain ⟨gap, name, header, members, close, -, -⟩ := outline
  dsimp only
  have hline := leadingNewlines_gap gap (header.isLetter_head?_text name)
  have hsegment : Segment (gap.text ++ header.text name) :=
    segment_append.mpr ⟨gap.segment, header.segment_text name⟩
  have hpass := pass_header hs (declaration?_header gap header name file _)
  rw [hline] at hpass
  let d := header.declaration name file (lineAfter (s.newlines + gap.text.count '\n'))
  have hkind : d.kind = header.keyword.2 := header.kind_declaration name file _
  let opened : ScanState :=
    { s with
      current := some { declaration := d }
      braces := [lineAfter (s.newlines + (gap.text ++ header.text name).count '\n')]
      newlines := s.newlines + (gap.text ++ header.text name).count '\n' }
  rcases header.enumeration_or with ⟨list, rfl⟩ | ⟨hne, hlist, hconstants⟩
  · let segment := Text.join ',' (list.map fun constant => constant.1.text ++ constant.2.text)
    have hadd := add_constants hkind segment
    rw [constants_plain, List.map_map] at hadd
    let behind : ScanState :=
      { opened with
        current := opened.current.map (·.add segment)
        newlines := opened.newlines + segment.count '\n' }
    have hinside : behind.Inside s.declarations (d.withMembers _) :=
      ⟨rfl, ⟨false, congrArg some hadd, nofun⟩, _, rfl⟩
    refine ⟨behind, hinside, ?_⟩
    intro rest s''
    rw [passes_segment_iff hsegment.unmarked rfl hpass, Header.listText, List.append_assoc,
      List.singleton_append, passes_segment_iff (segment_constants list).unmarked rfl
        (pass_semicolon_body rfl segment)]
  · have hmembers : d.withMembers [] = d := by simp [Declaration.withMembers]
    rw [hconstants, hlist, List.map_nil, hmembers]
    refine ⟨opened, ⟨rfl, ⟨true, rfl, fun _ => hkind ▸ hne⟩, _, rfl⟩, ?_⟩
    intro rest s''
    rw [passes_segment_iff hsegment.unmarked rfl hpass, List.nil_append]

/-- A declaration with a body is reported. -/
theorem exists_outline (hs : s.braces = []) (file : Path) (outline : Outline) :
    ∃ s', s'.braces = [] ∧
      s'.declarations = s.declarations ++ [(Item.withBody outline).declaration file
        (lineAfter (s.newlines + outline.gap.text.count '\n'))] ∧
      Passes file outline.text s s' := by
  obtain ⟨s₁, hs₁, hopening⟩ := exists_opening hs file outline
  let d := outline.header.declaration outline.name file
    (lineAfter (s.newlines + outline.gap.text.count '\n'))
  have hmembers : d.members = [] := outline.header.members_declaration outline.name file _
  have hname : d.name = outline.name.string := outline.header.name_declaration outline.name file _
  have howner := outline.name_not_mem
  rw [memberNames, List.mem_append, not_or, ← hname] at howner
  have hnodup : (d.members ++ (outline.header.constants.map fun constant => constant.2.string) ++
      outline.members.map fun member => member.name.string).Nodup := by
    rw [hmembers]
    exact outline.nodup
  obtain ⟨s₂, hs₂, hbody⟩ := hs₁.exists_members file outline.members hnodup howner.2
  obtain ⟨s₃, hbraces, hdeclarations, hclose⟩ := hs₂.exists_close file outline.close
  refine ⟨s₃, hbraces, ?_, ?_⟩
  · have hdeclaration : d.withMembers (memberNames outline.header outline.members) =
        (Item.withBody outline).declaration file
          (lineAfter (s.newlines + outline.gap.text.count '\n')) := by
      rw [Declaration.withMembers, hmembers]
      rfl
    rw [hdeclarations, Declaration.withMembers_withMembers, ← hdeclaration]
    rfl
  · rw [Outline.text, hopening, hbody]
    exact hclose

theorem letters_typedef : Letters "typedef".toList :=
  letters_of_mem_vocabulary (by simp [vocabulary])

theorem segment_alias (gap : Gap) (name target : Name) :
    Segment (gap.text ++ aliasText name target) := by
  have hequals : Segment (" = ".toList ++ target.text) :=
    segment_append.mpr ⟨List.all_eq_true.mp rfl, target.letters.segment⟩
  have hrest := segment_append.mpr ⟨name.letters.segment, hequals⟩
  exact segment_append.mpr ⟨gap.segment, segment_append.mpr
    ⟨letters_typedef.segment, segment_cons.mpr ⟨rfl, hrest⟩⟩⟩

theorem wordsOf_alias (gap : Gap) (name target : Name) :
    wordsOf (gap.text ++ aliasText name target) =
      ["typedef".toList, name.text, ['='], target.text] := by
  have hplain : '@' ∉ gap.text ++ aliasText name target :=
    (segment_alias gap name target).not_mem (by decide)
  have hequals :
      Text.words ('=' :: ' ' :: target.text) = ['='] :: Text.words (' ' :: target.text) :=
    words_cons_of_atBlank (by decide) (atBlank_cons.mpr rfl)
  rw [wordsOf, withoutAnnotations_of_not_mem hplain, words_blanks_append gap.isBlank]
  unfold aliasText
  rw [words_word_append letters_typedef.ne_nil letters_typedef.solid (atBlank_cons.mpr rfl),
    words_cons_of_isBlank rfl,
    words_word_append name.letters.ne_nil name.letters.solid (atBlank_cons.mpr rfl),
    words_cons_of_isBlank rfl, hequals, words_cons_of_isBlank rfl,
    words_of_solid target.letters.ne_nil target.letters.solid]

theorem aliasName?_alias (gap : Gap) (name target : Name) :
    aliasName? (gap.text ++ aliasText name target) = some name.text := by
  let rest := name.text ++ ' ' :: '=' :: ' ' :: target.text
  have hclean : clean (gap.text ++ aliasText name target) = "typedef ".toList ++ rest := by
    rw [clean, wordsOf_alias]
    simp [Text.join, List.intercalate, rest]
  have hstrip : Text.stripStart? "typedef ".toList ("typedef ".toList ++ rest) = some rest := rfl
  have hangles : '<' ∉ rest := by
    simp [rest, name.not_mem (c := '<') (by decide), target.not_mem (c := '<') (by decide)]
  have hequals : rest.contains '=' = true := by simp [rest]
  have hbefore : rest.takeWhile (· ≠ '=') = name.text ++ [' '] := by
    have htext : rest = name.text ++ [' '] ++ '=' :: ' ' :: target.text := by simp [rest]
    have hname : ∀ c ∈ name.text ++ [' '], decide (c ≠ '=') = true := by
      intro c hc
      rw [decide_eq_true_eq]
      rintro rfl
      rcases List.mem_append.mp hc with hc | hc
      · exact name.not_mem (by decide) hc
      · cases List.mem_singleton.mp hc
    rw [htext]
    exact takeWhile_append_stop hname (by rintro c ⟨⟩; rfl)
  rw [aliasName?, hclean, hstrip]
  simp only [(withoutTypeArguments_of_not_mem hangles).1, hequals, if_true, hbefore]
  have htrim := @trim_name [] [' '] name nofun (List.forall_mem_singleton.mpr rfl)
  rw [List.nil_append] at htrim
  rw [htrim, leadingIdentifier?_name]

theorem pass_semicolon_outside (file : Path) (hs : s.braces = []) (segment : List Char) :
    s.pass file (segment, .semicolon) = .ok
      { s with
        declarations := s.declarations ++
          (alias? segment file (lineAfter (s.newlines + leadingNewlines segment))).toList
        newlines := s.newlines + segment.count '\n' } := by
  obtain ⟨declarations, current, braces, newlines⟩ := s
  obtain rfl : braces = [] := hs
  rfl

/-- An alias is reported. -/
theorem exists_alias (hs : s.braces = []) (file : Path) (gap : Gap) (name target : Name) :
    ∃ s', s'.braces = [] ∧
      s'.declarations = s.declarations ++ [(Item.typeAlias gap name target).declaration file
        (lineAfter (s.newlines + gap.text.count '\n'))] ∧
      Passes file (Item.typeAlias gap name target).text s s' := by
  have hsegment := segment_alias gap name target
  have hpass := pass_semicolon_outside file hs (gap.text ++ aliasText name target)
  have hline : leadingNewlines (gap.text ++ aliasText name target) = gap.text.count '\n' :=
    leadingNewlines_gap gap (letters_typedef.head?_append (fun _ hc => hc) _)
  rw [alias?, aliasName?_alias, hline] at hpass
  refine ⟨_, ?_, ?_, passes_mark hsegment.unmarked rfl hpass⟩
  · exact hs
  · rfl

/-! ## Whole sources -/

theorem exists_item (hs : s.braces = []) (file : Path) (item : Item) :
    ∃ s', s'.braces = [] ∧
      s'.declarations = s.declarations ++
        [item.declaration file (lineAfter (s.newlines + item.gap.text.count '\n'))] ∧
      Passes file item.text s s' := by
  cases item with
  | withBody outline => exact exists_outline hs file outline
  | typeAlias gap name target => exact exists_alias hs file gap name target

theorem Item.endsAtMark (item : Item) : EndsAtMark item.text := by
  cases item with
  | withBody outline =>
    have htext : (Item.withBody outline).text = outline.gap.text ++
        outline.header.text outline.name ++ '\x7b' :: (outline.header.listText ++
          (outline.members.flatMap Member.text ++ outline.close.text)) ++ ['\x7d'] := by
      simp [Item.text, Outline.text]
    rw [htext]
    exact (endsAtMark_append (List.cons_ne_nil _ _)).mpr rfl
  | typeAlias gap name target => exact (endsAtMark_append (List.cons_ne_nil _ _)).mpr rfl

/-- The declarations are reported one after another. -/
theorem exists_items (hs : s.braces = []) (file : Path) (items : List Item) :
    ∃ s', s'.braces = [] ∧
      s'.declarations = s.declarations ++ declarationsFrom file s.newlines items ∧
      ∀ {rest s''},
        Passes file (items.flatMap Item.text ++ rest) s s'' ↔ Passes file rest s' s'' := by
  induction items generalizing s with
  | nil => exact ⟨s, hs, (List.append_nil _).symm, Iff.rfl⟩
  | cons item items ih =>
    obtain ⟨s₁, hs₁, hdeclarations₁, hpasses₁⟩ := exists_item hs file item
    obtain ⟨s', hs', hdeclarations', hpasses'⟩ := ih hs₁
    refine ⟨s', hs', ?_, ?_⟩
    · rw [hdeclarations', hdeclarations₁, hpasses₁.newlines_eq_of_endsAtMark item.endsAtMark,
        declarationsFrom, List.append_assoc, List.singleton_append]
    · intro rest s''
      rw [List.flatMap_cons, List.append_assoc, hpasses₁.append_iff item.endsAtMark, hpasses']

/-- A text without quotes and slashes. -/
def Shown (text : List Char) : Prop := ∀ c ∈ text, isQuote c = false ∧ c ≠ '/'

theorem Segment.shown {text : List Char} (h : Segment text) : Shown text := by
  intro c hc
  have hne : ∀ d : Char, isSegmentChar d = false → c ≠ d := fun d hd heq => h.not_mem hd (heq ▸ hc)
  have hquote : isQuote c = false := by
    rw [isQuote, beq_eq_false_iff_ne.mpr (hne _ (by decide)),
      beq_eq_false_iff_ne.mpr (hne _ (by decide))]
    rfl
  exact ⟨hquote, hne '/' (by decide)⟩

theorem shown_append {a b : List Char} : Shown (a ++ b) ↔ Shown a ∧ Shown b :=
  List.forall_mem_append

theorem shown_cons {c : Char} {text : List Char} :
    Shown (c :: text) ↔ (isQuote c = false ∧ c ≠ '/') ∧ Shown text :=
  List.forall_mem_cons

theorem Shown.mask_eq {text : List Char} (h : Shown text) : mask text = text := by
  have hslash : '/' ∉ text := fun hmem => (h _ hmem).2 rfl
  have hcode := maskFrom_code (fun c hc => (h c hc).1)
    (fun hline => hslash (hline.subset List.mem_cons_self))
    (fun hblock => hslash (hblock.subset List.mem_cons_self))
    (fun hlast => hslash (List.mem_of_getLast? hlast)) []
  rwa [List.append_nil, maskFrom_nil, List.append_nil] at hcode

theorem shown_mark {c : Char} {mark : Mark} (h : Mark.ofChar? c = some mark) : Shown [c] :=
  List.forall_mem_singleton.mpr (not_isQuote_of_mark h)

theorem Member.shown_text (member : Member) : Shown member.text := by
  refine shown_append.mpr ⟨member.segment_segment.shown, ?_⟩
  have hopen : Mark.ofChar? '\x7b' = some .openBrace := rfl
  have hspace : Shown [' '] := List.forall_mem_singleton.mpr (by decide)
  have hclose : Mark.ofChar? '\x7d' = some .closeBrace := rfl
  have hsemicolon : Mark.ofChar? ';' = some .semicolon := rfl
  split
  · exact shown_append.mpr ⟨shown_mark hopen, shown_append.mpr ⟨hspace, shown_mark hclose⟩⟩
  · exact shown_mark hsemicolon

theorem Header.shown_listText (header : Header) : Shown header.listText := by
  rcases header.enumeration_or with ⟨list, rfl⟩ | ⟨-, hlist, -⟩
  · have hsemicolon : Mark.ofChar? ';' = some .semicolon := rfl
    exact shown_append.mpr ⟨(segment_constants list).shown, shown_mark hsemicolon⟩
  · rw [hlist]
    exact nofun

theorem Item.shown_text (item : Item) : Shown item.text := by
  cases item with
  | withBody outline =>
    have hopen : Mark.ofChar? '\x7b' = some .openBrace := rfl
    have hclose : Mark.ofChar? '\x7d' = some .closeBrace := rfl
    have hmembers : Shown (outline.members.flatMap Member.text) := by
      intro c hc
      obtain ⟨member, -, hc⟩ := List.mem_flatMap.mp hc
      exact member.shown_text c hc
    simp only [Item.text, Outline.text, shown_append, shown_cons]
    exact ⟨⟨outline.gap.segment.shown, (outline.header.segment_text outline.name).shown⟩,
      not_isQuote_of_mark hopen, outline.header.shown_listText, hmembers,
      outline.close.segment.shown, not_isQuote_of_mark hclose, nofun⟩
  | typeAlias gap name target =>
    have hsemicolon : Mark.ofChar? ';' = some .semicolon := rfl
    exact shown_append.mpr ⟨(segment_alias gap name target).shown, shown_mark hsemicolon⟩

theorem mask_print (items : List Item) (close : Gap) :
    mask (print items close) = print items close := by
  refine Shown.mask_eq (shown_append.mpr ⟨fun c hc => ?_, close.segment.shown⟩)
  obtain ⟨item, -, hc⟩ := List.mem_flatMap.mp hc
  exact item.shown_text c hc

/-- Scanning undoes printing. -/
theorem scan_print (file : Path) (items : List Item) (close : Gap) :
    scan file (print items close) = .ok (declarationsFrom file 0 items) := by
  obtain ⟨s, hs, hdeclarations, hpasses⟩ := exists_items (s := {}) rfl file items
  refine scan_eq_ok_iff.mpr ⟨s, ?_, hs, by simpa using hdeclarations⟩
  rw [mask_print, print, hpasses, Passes, segments_of_unmarked close.segment.unmarked]
  rfl

section Sample

/-- A name of one letter. -/
def Name.letter (c : Char) (hc : isLetter c) (hdigit : c.isDigit = false) : Name where
  text := [c]
  letters := ⟨List.cons_ne_nil c [], List.forall_mem_singleton.mpr hc⟩
  start := by
    rintro _ ⟨⟩
    exact hdigit
  not_mem_vocabulary := by
    have hlength : (vocabulary.all fun word => decide (2 ≤ word.length)) = true := by decide
    intro h
    have hone := List.all_eq_true.mp hlength _ h
    simp at hone

/-- A class with a field and a method. -/
def sampleOutline : Outline where
  gap := ⟨[], nofun⟩
  name := .letter 'A' rfl rfl
  header :=
    .classType true (some (.letter 'B' rfl rfl)) [.letter 'M' rfl rfl, .letter 'N' rfl rfl] []
  members :=
    [⟨⟨"\n  ".toList, List.all_eq_true.mp rfl⟩, .letter 'T' rfl rfl, .letter 'x' rfl rfl, false⟩,
      ⟨⟨"\n  ".toList, List.all_eq_true.mp rfl⟩, .letter 'T' rfl rfl, .letter 'f' rfl rfl, true⟩]
  close := ⟨['\n'], List.all_eq_true.mp rfl⟩
  nodup := by decide
  name_not_mem := by decide

example :
    sampleOutline.text =
      "abstract class A extends B with M, N \x7b\n  T x;\n  T f() \x7b \x7d\n\x7d".toList := by
  decide

end Sample

end Source

end Recheck
