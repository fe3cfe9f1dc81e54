import Recheck.Proofs.Source.Bodies
import Recheck.Proofs.Source.Heads

/-!
# Constructors and operators

Constructors and operators are no members. How one opens (`Opening`), that is its text up to the
first mark, is not taken for a member (`Opening.quiet`): the head of a constructor ends in the name
of its class or in a qualified name, and that of an operator in its symbol or in the word
`operator`. So it can be added to a body without a change in what is reported, if the way it ends
does not count as a member either (`constructors_and_operators_add_nothing`).

It need not. A block in it, such as the braces around named parameters, cuts it in two, and the
initializer list behind them is read as a segment of its own; and a symbol that starts with `<` is
taken for the start of type arguments (`constructor_and_operator_taken_for_members`).
-/

namespace Recheck

namespace Source

open Text (isBlank)

/-! ## Openings -/

/-- Words that may precede the name in a constructor. -/
def constructorModifiers : List (List Char) :=
  ["const".toList, "factory".toList, "external".toList]

/-- Modifiers of a constructor, each with blanks behind it. -/
inductive Modifiers : List Char → Prop where
  | nil : Modifiers []
  | cons {word blanks rest : List Char} (hword : word ∈ constructorModifiers) (hne : blanks ≠ [])
    (hblanks : ∀ c ∈ blanks, isBlank c) (hrest : Modifiers rest) :
    Modifiers (word ++ (blanks ++ rest))

/-- A word of identifier characters. -/
structure Word (word : List Char) : Prop where
  ne_nil : word ≠ []
  chars : ∀ c ∈ word, isIdentifierChar c

/-- Nothing, or what makes the name of a constructor out of that of its class. The name follows the
dot without a blank. -/
inductive Qualifier : List Char → Prop where
  | none : Qualifier []
  | some {blanks name : List Char} (hblanks : ∀ c ∈ blanks, isBlank c) (hname : Word name) :
    Qualifier (blanks ++ '.' :: name)

/-- The operators that a class can define. -/
def operatorSymbols : List (List Char) :=
  ["<", ">", "<=", ">=", "==", "-", "+", "/", "~/", "*", "%", "|", "^", "&", "<<", ">>", ">>>",
    "[]", "[]=", "~"].map String.toList

/-- The type of an operator, or nothing. The word behind it stands apart from it. -/
structure ReturnType (type : List Char) : Prop extends InHead type where
  apart : ∀ c ∈ (withoutTypeArguments type).getLast?, isIdentifierChar c = false

/-- How a constructor or an operator in the body of a declaration opens: its text up to the first
mark. -/
inductive Opening (d : Declaration) : List Char → Prop where
  | constructor {lead modifiers qualifier blanks rest : List Char} (hlead : Lead lead)
    (hmodifiers : Modifiers modifiers) (howner : Word d.name.toList)
    (hqualifier : Qualifier qualifier) (hblanks : ∀ c ∈ blanks, isBlank c) :
    Opening d (lead ++ (modifiers ++ d.name.toList ++ qualifier ++ blanks ++ '(' :: rest))
  /-- A symbol that starts with an angle bracket is taken for the start of type arguments, so what
  follows their end is read as well. -/
  | operator {lead type blanks symbol blanks' rest : List Char} (hlead : Lead lead)
    (htype : ReturnType type) (hblanks : ∀ c ∈ blanks, isBlank c)
    (hsymbol : symbol ∈ operatorSymbols) (hblanks' : ∀ c ∈ blanks', isBlank c)
    (hangle : symbol.head? = some '<' → Quiet d (symbol ++ blanks' ++ '(' :: rest) ∧
      StartsApart (headOf (withoutAnnotations 0 (symbol ++ blanks' ++ '(' :: rest)))) :
    Opening d
      (lead ++ (type ++ "operator".toList ++ (blanks ++ (symbol ++ blanks' ++ '(' :: rest))))
  /-- An operator whose type is a record. -/
  | record {blanks rest : List Char} (hblanks : ∀ c ∈ blanks, isBlank c) :
    Opening d (blanks ++ '(' :: rest)

/-! ## No member is named -/

variable {owner : String} {name : List Char}

theorem Word.getLast?_append {word : List Char} (h : Word word) (text : List Char) :
    ∀ c ∈ (text ++ word).getLast?, isBlank c = false := by
  intro c hc
  rw [List.getLast?_append_of_ne_nil _ h.ne_nil] at hc
  exact not_isBlank_of_isIdentifierChar (h.chars c (List.mem_of_getLast? hc))

theorem not_endsInName_constructor {before qualifier blanks : List Char}
    (hbefore : ∀ c ∈ before.getLast?, isBlank c) (howner : Word owner.toList)
    (hqualifier : Qualifier qualifier) (hblanks : ∀ c ∈ blanks, isBlank c) :
    ¬ EndsInName owner (before ++ owner.toList ++ qualifier ++ blanks) name := by
  intro h
  cases hqualifier with
  | none =>
    rw [List.append_nil] at h
    obtain ⟨hname, -⟩ := h.of_append (howner.getLast?_append before) hblanks
    have hfree : ∀ c ∈ before.getLast?, isIdentifierChar c = false :=
      fun c hc => (not_isIdentifierChar_of_isBlank (hbefore c hc)).1
    rw [rtakeWhile_append_run howner.chars hfree] at hname
    exact h.ne_owner (by rw [hname, String.ofList_toList])
  | @some blanks' n hblanks' hn =>
    have hdot : ∀ c ∈ (before ++ owner.toList ++ blanks' ++ ['.']).getLast?,
        isIdentifierChar c = false := by
      intro c hc
      rw [List.getLast?_concat] at hc
      obtain rfl := Option.some.inj hc
      rfl
    have htext : before ++ owner.toList ++ (blanks' ++ '.' :: n) =
        before ++ owner.toList ++ blanks' ++ ['.'] ++ n := by simp
    rw [htext] at h
    obtain ⟨-, hlast⟩ := h.of_append (hn.getLast?_append _) hblanks
    rw [rdropWhile_append_run hn.chars hdot] at hlast
    exact hlast List.getLast?_concat

/-- Behind the word that operators have, nothing is read but their symbol. -/
theorem not_endsInName_operator {before rest : List Char}
    (hbefore : ∀ c ∈ before.getLast?, isIdentifierChar c = false)
    (hrest : ∀ c ∈ rest, isIdentifierChar c = false) :
    ¬ EndsInName owner (before ++ "operator".toList ++ rest) name := by
  intro h
  obtain ⟨blanks, hsplit, hblanks⟩ := exists_eq_trimRight rest
  have hword : Word "operator".toList := ⟨by decide, List.all_eq_true.mp rfl⟩
  rw [hsplit, ← List.append_assoc] at h
  by_cases htrim : Text.trimRight rest = []
  · rw [htrim, List.append_nil] at h
    obtain ⟨hname, -⟩ := h.of_append (hword.getLast?_append before) hblanks
    rw [rtakeWhile_append_run hword.chars hbefore] at hname
    exact h.not_reserved (hname ▸ by decide)
  · -- The text ends in a character that is part of no name.
    have hlast : ∀ c ∈ (before ++ "operator".toList ++ Text.trimRight rest).getLast?,
        isBlank c = false ∧ isIdentifierChar c = false := by
      intro c hc
      rw [List.getLast?_append_of_ne_nil _ htrim] at hc
      have hmem : c ∈ Text.trimRight rest := List.mem_of_getLast? hc
      rw [Text.trimRight, Text.dropRightWhile_eq_rdropWhile] at hc
      exact ⟨getLast?_rdropWhile _ c hc, hrest c (Text.mem_of_mem_dropRightWhile _ hmem)⟩
    obtain ⟨hname, -⟩ := h.of_append (fun c hc => (hlast c hc).1) hblanks
    rw [← List.append_nil (before ++ "operator".toList ++ Text.trimRight rest),
      rtakeWhile_append_run (by simp) fun c hc => (hlast c hc).2] at hname
    exact h.name_ne_nil hname

theorem Modifiers.getLast? {modifiers : List Char} (h : Modifiers modifiers) :
    ∀ c ∈ modifiers.getLast?, isBlank c := by
  induction h with
  | nil => simp
  | @cons word blanks rest _ hne hblanks _ ih =>
    intro c hc
    by_cases hrest : rest = []
    · rw [hrest, List.append_nil, List.getLast?_append_of_ne_nil _ hne] at hc
      exact hblanks c (List.mem_of_getLast? hc)
    · rw [← List.append_assoc, List.getLast?_append_of_ne_nil _ hrest] at hc
      exact ih c hc

theorem Modifiers.isPlainChar {modifiers : List Char} (h : Modifiers modifiers) :
    ∀ c ∈ modifiers, isPlainChar c := by
  have hwords : (constructorModifiers.all fun word => word.all Source.isPlainChar) = true := by
    decide
  induction h with
  | nil => simp
  | @cons word blanks rest hword _ hblanks _ ih =>
    intro c hc
    rw [List.mem_append, List.mem_append] at hc
    rcases hc with hc | hc | hc
    · exact List.all_eq_true.mp (List.all_eq_true.mp hwords word hword) c hc
    · exact isPlainChar_of_isBlank (hblanks c hc)
    · exact ih c hc

theorem Qualifier.isPlainChar {qualifier : List Char} (h : Qualifier qualifier) :
    ∀ c ∈ qualifier, isPlainChar c := by
  intro c hc
  cases h with
  | none => cases hc
  | some hblanks hname =>
    rw [List.mem_append, List.mem_cons] at hc
    rcases hc with hc | rfl | hc
    · exact isPlainChar_of_isBlank (hblanks c hc)
    · rfl
    · exact isPlainChar_of_isIdentifierChar (hname.chars c hc)

theorem operatorSymbols_spec {symbol : List Char} (h : symbol ∈ operatorSymbols) :
    (∀ c ∈ symbol, isIdentifierChar c = false ∧ c ≠ '@') ∧
      (symbol.head? = some '<' ∨ '<' ∉ symbol) := by
  have hall : (operatorSymbols.all fun symbol =>
      (symbol.all fun c => !isIdentifierChar c && c != '@') &&
        (symbol.head? == some '<' || !symbol.contains '<')) = true := by
    decide
  simpa using List.all_eq_true.mp hall symbol h

/-- What is read of a symbol that does not start with an angle bracket is no part of a name. -/
theorem not_isIdentifierChar_of_mem_symbol {symbol blanks : List Char}
    (hchars : ∀ c ∈ symbol, isIdentifierChar c = false ∧ c ≠ '@') (hopen : '<' ∉ symbol)
    (hblanks : ∀ c ∈ blanks, isBlank c) (rest : List Char) :
    ∀ c ∈ headOf (withoutAnnotations 0 (symbol ++ blanks ++ '(' :: rest)),
      isIdentifierChar c = false := by
  have hat : '@' ∉ symbol ++ blanks := by
    rw [List.mem_append, not_or]
    exact ⟨fun h => (hchars _ h).2 rfl, fun h => absurd (hblanks _ h) (by decide)⟩
  have hangles : '<' ∉ symbol ++ blanks := by
    rw [List.mem_append, not_or]
    exact ⟨hopen, fun h => absurd (hblanks _ h) (by decide)⟩
  obtain ⟨htext, hclosed⟩ := withoutTypeArguments_of_not_mem hangles
  intro c hc
  rw [withoutAnnotations_append hat, withoutAnnotations_parenthesis, headOf, withoutTypeArguments,
    outsideAngles_append, hclosed, outsideAngles_cons, if_pos ⟨rfl, by decide⟩,
    List.singleton_append, takeWhile_append_cons rfl, ← withoutTypeArguments, htext] at hc
  rcases List.mem_append.mp ((List.takeWhile_prefix _).subset hc) with hc | hc
  · exact (hchars c hc).1
  · exact (not_isIdentifierChar_of_isBlank (hblanks c hc)).1

theorem exists_headOf_constructor {lead modifiers qualifier blanks : List Char} (hlead : Lead lead)
    (hmodifiers : Modifiers modifiers) (howner : Word owner.toList)
    (hqualifier : Qualifier qualifier) (hblanks : ∀ c ∈ blanks, isBlank c) (rest : List Char) :
    ∃ before, (∀ c ∈ before.getLast?, isBlank c) ∧
      headOf (withoutAnnotations 0
        (lead ++ (modifiers ++ owner.toList ++ qualifier ++ blanks ++ '(' :: rest))) =
        before ++ owner.toList ++ qualifier ++ blanks := by
  have hplain : ∀ c ∈ modifiers ++ owner.toList ++ qualifier ++ blanks, isPlainChar c := by
    intro c hc
    simp only [List.mem_append] at hc
    rcases hc with ((hc | hc) | hc) | hc
    · exact hmodifiers.isPlainChar c hc
    · exact isPlainChar_of_isIdentifierChar (howner.chars c hc)
    · exact hqualifier.isPlainChar c hc
    · exact isPlainChar_of_isBlank (hblanks c hc)
  have hsolid : ∃ c ∈ modifiers ++ owner.toList ++ qualifier ++ blanks, isBlank c = false := by
    obtain ⟨c, cs, hc⟩ := List.exists_cons_of_ne_nil howner.ne_nil
    have hmem : c ∈ owner.toList := hc ▸ List.mem_cons_self
    exact ⟨c, by simp [hmem], not_isBlank_of_isIdentifierChar (howner.chars c hmem)⟩
  obtain ⟨hin, hself⟩ := inHead_of_plain hplain
  obtain ⟨gap, hgap, hhead⟩ := exists_headOf hin hsolid hlead ('(' :: rest)
  refine ⟨gap ++ modifiers, fun c hc => ?_, ?_⟩
  · rcases mem_getLast?_append hc with hc | hc
    · exact hmodifiers.getLast? c hc
    · exact hgap c (List.mem_of_getLast? hc)
  · rw [hhead, hself, headOf_parenthesis]
    simp only [List.append_assoc, List.append_nil]

theorem exists_headOf_operator {lead type blanks : List Char} (hlead : Lead lead)
    (htype : ReturnType type) (hblanks : ∀ c ∈ blanks, isBlank c) (rest : List Char) :
    ∃ before, (∀ c ∈ before.getLast?, isIdentifierChar c = false) ∧
      headOf (withoutAnnotations 0 (lead ++ (type ++ "operator".toList ++ (blanks ++ rest)))) =
        before ++ "operator".toList ++ (blanks ++ headOf (withoutAnnotations 0 rest)) := by
  have hword : ∀ c ∈ "operator".toList, isPlainChar c := List.all_eq_true.mp rfl
  obtain ⟨hin, hself⟩ := inHead_of_plain hword
  have hsolid : ∃ c ∈ type ++ "operator".toList, isBlank c = false := ⟨'o', by simp, rfl⟩
  obtain ⟨gap, hgap, hhead⟩ := exists_headOf (htype.toInHead.append hin) hsolid hlead
    (blanks ++ rest)
  refine ⟨gap ++ withoutTypeArguments type, fun c hc => ?_, ?_⟩
  · rcases mem_getLast?_append hc with hc | hc
    · exact htype.apart c hc
    · exact (not_isIdentifierChar_of_isBlank (hgap c (List.mem_of_getLast? hc))).1
  · rw [hhead, withoutTypeArguments_append htype.toInHead, hself,
      withoutAnnotations_blanks hblanks, headOf_blanks hblanks]
    simp only [List.append_assoc]

theorem quiet_operator {d : Declaration} {before blanks symbol blanks' rest : List Char}
    (hbefore : ∀ c ∈ before.getLast?, isIdentifierChar c = false)
    (hblanks : ∀ c ∈ blanks, isBlank c) (hsymbol : symbol ∈ operatorSymbols)
    (hblanks' : ∀ c ∈ blanks', isBlank c)
    (hangle : symbol.head? = some '<' → Quiet d (symbol ++ blanks' ++ '(' :: rest) ∧
      StartsApart (headOf (withoutAnnotations 0 (symbol ++ blanks' ++ '(' :: rest))))
    (hname : EndsInName d.name (before ++ "operator".toList ++
      (blanks ++ headOf (withoutAnnotations 0 (symbol ++ blanks' ++ '(' :: rest)))) name) :
    String.ofList name ∈ d.members := by
  have hfree : ∀ c ∈ blanks, isIdentifierChar c = false :=
    fun c hc => (not_isIdentifierChar_of_isBlank (hblanks c hc)).1
  obtain ⟨hchars, hopen | hopen⟩ := operatorSymbols_spec hsymbol
  · obtain ⟨hquiet, hapart⟩ := hangle hopen
    by_cases hsolid : ∃ c ∈ headOf (withoutAnnotations 0 (symbol ++ blanks' ++ '(' :: rest)),
        isBlank c = false
    · rw [← List.append_assoc] at hname
      exact hquiet name (hname.of_append_right hapart hsolid)
    · refine absurd hname (not_endsInName_operator hbefore fun c hc => ?_)
      rcases List.mem_append.mp hc with hc | hc
      · exact hfree c hc
      · have hblank : isBlank c := by
          by_contra hne
          exact hsolid ⟨c, hc, by simpa using hne⟩
        exact (not_isIdentifierChar_of_isBlank hblank).1
  · have hsymbols := not_isIdentifierChar_of_mem_symbol hchars hopen hblanks' rest
    refine absurd hname (not_endsInName_operator hbefore fun c hc => ?_)
    exact (List.mem_append.mp hc).elim (hfree c) (hsymbols c)

/-- No constructor and no operator opens with a member that is not reported anyway. -/
theorem Opening.quiet {d : Declaration} {opening : List Char} (h : Opening d opening) :
    Quiet d opening := by
  intro name hname
  rw [Names] at hname
  cases h with
  | constructor hlead hmodifiers howner hqualifier hblanks =>
    obtain ⟨before, hbefore, hhead⟩ :=
      exists_headOf_constructor hlead hmodifiers howner hqualifier hblanks _
    rw [hhead] at hname
    exact absurd hname (not_endsInName_constructor hbefore howner hqualifier hblanks)
  | operator hlead htype hblanks hsymbol hblanks' hangle =>
    obtain ⟨before, hbefore, hhead⟩ := exists_headOf_operator hlead htype hblanks _
    rw [hhead] at hname
    exact quiet_operator hbefore hblanks hsymbol hblanks' hangle hname
  | @record blanks rest hblanks =>
    rw [withoutAnnotations_blanks hblanks, headOf_blanks hblanks, headOf_parenthesis,
      List.append_nil, ← List.nil_append blanks] at hname
    exact absurd (hname.of_append (by simp) hblanks).1 hname.name_ne_nil

/-! ## Adding a constructor or an operator -/

/-- The masked text is a constructor or an operator of a declaration. -/
def Declares (d : Declaration) (text : List Char) : Prop :=
  ∃ opening tail, text = opening ++ tail ∧ Unmarked opening ∧ Opening d opening ∧ Ends d tail

section Sample

/-- A class, its body open behind a field. -/
def sampleBody : List Char := "class A extends B \x7b\n  int z;".toList

/-- What is reported of it. -/
def sampleClass : Declaration where
  name := "A"
  kind := .classType
  file := ⟨"a.dart"⟩
  line := some 1
  supertype := some "B"
  members := ["z"]

/-- A constructor with a named parameter and an initializer. -/
def sampleConstructor : List Char := "\n  const A.n(\x7bint x = 0\x7d) : z = x;".toList

/-- An operator whose symbol is taken for an angle bracket that its arrow closes. -/
def sampleOperator : List Char := "\n  @override bool operator <(A o) => z < o.z;".toList

theorem inBody_sample : InBody ⟨"a.dart"⟩ sampleBody sampleClass where
  exists_parts := by
    refine ⟨[], "class A extends B ".toList, "\n  int z;".toList, by decide +kernel, ?_⟩
    exact
      { before_ends := .inl rfl
        before_balanced := .nil
        header_unmarked := by decide +kernel
        header_declares := ⟨1, by decide +kernel⟩
        body_ends := by decide +kernel
        body_balanced := balanced_braces_iff.mpr (by decide +kernel) }
  reported := ⟨[], by rfl⟩

theorem lead_of_isBlank {blanks : List Char} (h : ∀ c ∈ blanks, isBlank c) : Lead blanks := by
  induction blanks with
  | nil => exact .nil
  | cons c blanks ih =>
    exact .blank (h c List.mem_cons_self) (ih fun d hd => h d (List.mem_cons_of_mem c hd))

theorem declares_sampleConstructor : Declares sampleClass (mask sampleConstructor) := by
  have hmodifiers : Modifiers "const ".toList :=
    @Modifiers.cons "const".toList [' '] [] (by decide) (by decide) (List.all_eq_true.mp rfl) .nil
  have hqualifier : Qualifier ".n".toList :=
    @Qualifier.some [] ['n'] (by simp) ⟨by decide, List.all_eq_true.mp rfl⟩
  have hopening := @Opening.constructor sampleClass "\n  ".toList "const ".toList ".n".toList [] []
    (lead_of_isBlank (List.all_eq_true.mp rfl)) hmodifiers ⟨by decide, List.all_eq_true.mp rfl⟩
    hqualifier (by simp)
  have hends := @Ends.more sampleClass "int x = 0".toList ") : z = x".toList [';']
    (balanced_braces_iff.mpr (by decide +kernel)) (by decide +kernel) (by decide +kernel) .semicolon
  exact ⟨_, _, by decide +kernel, by decide +kernel, hopening, hends⟩

theorem declares_sampleOperator : Declares sampleClass (mask sampleOperator) := by
  have hlead : Lead "\n  @override ".toList :=
    .blank rfl (.blank rfl (.blank rfl (@Lead.metadata "override".toList [] [' '] (by decide)
      (List.all_eq_true.mp rfl) .none (by decide) (lead_of_isBlank (List.all_eq_true.mp rfl)))))
  have htype : ReturnType "bool ".toList :=
    { plain := by decide
      closed := by decide
      head := List.all_eq_true.mp rfl
      apart := by rintro c ⟨⟩; rfl }
  have hopening := @Opening.operator sampleClass "\n  @override ".toList "bool ".toList [' '] ['<']
    [] "A o) => z < o.z".toList hlead htype (List.all_eq_true.mp rfl) (by decide) (by simp)
    fun _ => ⟨by decide +kernel, by decide +kernel⟩
  exact ⟨_, _, by decide +kernel, by decide +kernel, hopening, .semicolon⟩

end Sample

/-- A constructor or an operator behind a complete member changes nothing but lines. -/
theorem constructors_and_operators_add_nothing {file : Path} {source added : List Char}
    {d : Declaration} (h : InBody file source d) (hadded : Declares d (mask added))
    (rest : List Char) :
    scanUpToLines file (source ++ added ++ rest) = scanUpToLines file (source ++ rest) := by
  obtain ⟨opening, tail, htext, hmarks, hopening, htail⟩ := hadded
  exact h.scanUpToLines_insert htext hmarks hopening.quiet htail rest

theorem constructors_and_operators_add_nothing_sample :
    InBody ⟨"a.dart"⟩ sampleBody sampleClass ∧
      Declares sampleClass (mask sampleConstructor) ∧ Declares sampleClass (mask sampleOperator) ∧
      scanUpToLines ⟨"a.dart"⟩ (sampleBody ++ sampleConstructor ++ ['\x7d']) =
        some [sampleClass.withoutLine] ∧
      scanUpToLines ⟨"a.dart"⟩ (sampleBody ++ sampleOperator ++ ['\x7d']) =
        some [sampleClass.withoutLine] := by
  have hclosed : scanUpToLines ⟨"a.dart"⟩ (sampleBody ++ ['\x7d']) =
      some [sampleClass.withoutLine] := by
    decide +kernel
  have hconstructor := constructors_and_operators_add_nothing inBody_sample
    declares_sampleConstructor ['\x7d']
  have hoperator := constructors_and_operators_add_nothing inBody_sample
    declares_sampleOperator ['\x7d']
  exact ⟨inBody_sample, declares_sampleConstructor, declares_sampleOperator,
    hconstructor.trans hclosed, hoperator.trans hclosed⟩

/-- The members that are reported of the declarations in a source. -/
def memberLists (source : String) : Option (List (List String)) :=
  (scanUpToLines ⟨"a.dart"⟩ source.toList).map (·.map (·.members))

/-- An initializer list behind parameters in braces is taken for a member, and so is what the arrow
of an operator yields whose symbol starts with an angle bracket. -/
theorem constructor_and_operator_taken_for_members :
    memberLists "class A extends B \x7b\n  int z;\n\x7d\n" = some [["z"]] ∧
      memberLists
          "class A extends B \x7b\n  int z;\n  A(\x7bint x = 0\x7d) : super(x);\n\x7d\n" =
        some [["z", "super"]] ∧
      memberLists
          "class A extends B \x7b\n  int z;\n  bool operator <(A o) => false;\n\x7d\n" =
        some [["z", "false"]] := by
  decide +kernel

end Source

end Recheck
