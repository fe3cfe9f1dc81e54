import Mathlib.Data.List.Basic
import Recheck.Proofs.Source.Names
import Recheck.Proofs.Symbols
import Recheck.Resolve

/-!
# What warnings are about

Resolving a file gives two kinds of warnings: a type that the file inherits from is not found, and a
name of the file is declared in another file too. The name that a warning is about stands between
its first two backquotes (`Diagnostic.subject`). What two symbol tables have in common gives the
same warnings (`filter_unresolvedSupertypes`, `filter_alsoDeclared`).
-/

namespace Recheck

/-! ## Reading a warning -/

namespace Diagnostic

/-- The name that a message is about: what stands between its first two backquotes. -/
def subject (m : Diagnostic) : String :=
  String.ofList
    ((m.message.toList.dropWhile (· ≠ '\x60')).tail.takeWhile (· ≠ '\x60'))

theorem subject_eq {m : Diagnostic} {name : String} {before after : List Char}
    (hbefore : '\x60' ∉ before) (hname : PlainName name)
    (h : m.message.toList = before ++ '\x60' :: (name.toList ++ '\x60' :: after)) :
    m.subject = name := by
  have hplain : ∀ {cs : List Char}, '\x60' ∉ cs → ∀ c ∈ cs, decide (c ≠ '\x60') = true :=
    fun hcs c hc => decide_eq_true fun heq => hcs (heq ▸ hc)
  rw [subject, h, List.dropWhile_append_of_pos (hplain hbefore),
    List.dropWhile_cons_of_neg (by simp), List.tail_cons,
    List.takeWhile_append_of_pos (hplain hname), List.takeWhile_cons_of_neg (by simp),
    List.append_nil, String.ofList_toList]

theorem subject_unresolvedSupertype {type : String} (h : PlainName type) (d : Declaration) :
    (unresolvedSupertype type d).subject = type := by
  have hmessage : (unresolvedSupertype type d).message.toList =
      "unresolved supertype ".toList ++
        '\x60' :: (type.toList ++ '\x60' :: (" of `".toList ++ d.name.toList ++ "`".toList)) := by
    simp [unresolvedSupertype]
  exact subject_eq (by decide) h hmessage

/-- Whether the message says that a name is also declared in another file. -/
def alsoDeclares (name : String) (m : Diagnostic) : Bool :=
  ("`" ++ name ++ "` is also declared in ").toList.isPrefixOf m.message.toList

theorem subject_of_alsoDeclares {name : String} (hname : PlainName name) {m : Diagnostic}
    (h : m.alsoDeclares name = true) : m.subject = name := by
  obtain ⟨after, hafter⟩ := List.isPrefixOf_iff_prefix.mp h
  have hmessage : m.message.toList =
      [] ++ '\x60' :: (name.toList ++ '\x60' :: (" is also declared in ".toList ++ after)) := by
    rw [← hafter]
    simp
  exact subject_eq List.not_mem_nil hname hmessage

theorem alsoDeclares_self (name : String) (q : Path) :
    (alsoDeclared name q).alsoDeclares name = true := by
  have hmessage : (alsoDeclared name q).message.toList =
      ("`" ++ name ++ "` is also declared in ").toList ++ q.shown.toList := String.toList_append
  rw [alsoDeclares, List.isPrefixOf_iff_prefix, hmessage]
  exact List.prefix_append _ _

theorem subject_alsoDeclared {name : String} (h : PlainName name) (q : Path) :
    (alsoDeclared name q).subject = name :=
  subject_of_alsoDeclares h (alsoDeclares_self name q)

theorem alsoDeclares_alsoDeclared {name name' : String} (h : PlainName name) (h' : PlainName name')
    (q : Path) : (alsoDeclared name' q).alsoDeclares name = decide (name' = name) := by
  by_cases heq : name' = name
  · rw [heq, alsoDeclares_self, decide_eq_true rfl]
  · rw [decide_eq_false heq]
    refine Bool.eq_false_iff.mpr fun hyes => heq ?_
    rw [← subject_alsoDeclared h' q, subject_of_alsoDeclares h hyes]

theorem alsoDeclares_unresolvedSupertype (name type : String) (d : Declaration) :
    (unresolvedSupertype type d).alsoDeclares name = false := by
  simp [alsoDeclares, unresolvedSupertype, List.isPrefixOf]

end Diagnostic

theorem append_cons_inj {α : Type} {c : α} {xs xs' ys ys' : List α} (hy : c ∉ ys) (hy' : c ∉ ys')
    (h : xs ++ c :: ys = xs' ++ c :: ys') : xs = xs' ∧ ys = ys' := by
  rcases List.append_eq_append_iff.mp h with ⟨zs, rfl, hzs⟩ | ⟨zs, rfl, hzs⟩
  · cases zs with
    | nil => simpa using hzs
    | cons z zs =>
      obtain ⟨rfl, rfl⟩ : c = z ∧ ys = zs ++ c :: ys' := by simpa using hzs
      exact absurd (by simp) hy
  · cases zs with
    | nil => simpa [eq_comm] using hzs
    | cons z zs =>
      obtain ⟨rfl, rfl⟩ : c = z ∧ ys' = zs ++ c :: ys := by simpa using hzs
      exact absurd (by simp) hy'

/-- The type and the name can be read off a warning. -/
theorem Diagnostic.unresolvedSupertype_inj {type type' : String} {d d' : Declaration}
    (hd : PlainName d.name) (hd' : PlainName d'.name)
    (h : unresolvedSupertype type d = unresolvedSupertype type' d') :
    type = type' ∧ d.name = d'.name ∧ d.line = d'.line := by
  have hline : d.line = d'.line := congrArg (fun m : Diagnostic => m.line) h
  have hmessage := congrArg (fun m : Diagnostic => m.message.toList) h
  simp only [unresolvedSupertype, String.toList_append] at hmessage
  -- The last backquote but one stands right before the name.
  have hsplit : "` of `".toList = "` of ".toList ++ ['\x60'] := rfl
  have hcut := List.append_cancel_right hmessage
  rw [hsplit, ← List.append_assoc, ← List.append_assoc, List.append_assoc _ ['\x60'],
    List.append_assoc _ ['\x60'], List.singleton_append, List.singleton_append] at hcut
  obtain ⟨htype, hname⟩ := append_cons_inj hd hd' hcut
  refine ⟨?_, String.toList_inj.mp hname, hline⟩
  exact String.toList_inj.mp (List.append_cancel_left (List.append_cancel_right htype))

theorem Diagnostic.alsoDeclared_ne_unresolvedSupertype (name : String) (q : Path) (type : String)
    (d : Declaration) : alsoDeclared name q ≠ unresolvedSupertype type d := by
  intro h
  have hhead := congrArg (fun m : Diagnostic => m.message.toList.head?) h
  simp [alsoDeclared, unresolvedSupertype] at hhead

theorem mem_unresolvedSupertypes {declarations : List Declaration} {symbols : SymbolTable}
    {m : Diagnostic} :
    m ∈ unresolvedSupertypes declarations symbols ↔
      ∃ d ∈ declarations, ∃ type ∈ d.supertypes, (∀ e ∈ declarations, e.name ≠ type) ∧
        symbols.contains type = false ∧ m = Diagnostic.unresolvedSupertype type d := by
  simp only [unresolvedSupertypes, List.mem_flatMap, List.mem_map, List.mem_filter,
    Bool.and_eq_true, Bool.not_eq_true', List.any_eq_false, decide_eq_true_eq]
  constructor
  · rintro ⟨d, hd, type, ⟨ht, hhere, hbefore⟩, rfl⟩
    exact ⟨d, hd, type, ht, hhere, hbefore, rfl⟩
  · rintro ⟨d, hd, type, ht, hhere, hbefore, rfl⟩
    exact ⟨d, hd, type, ⟨ht, hhere, hbefore⟩, rfl⟩

/-- A file resolves whatever is declared before it, or it does not whatever is declared before it.
If it does, only the warnings depend on that. -/
theorem resolveFile_cases (t : FileTree) (p : Path) :
    (∃ e, ∀ symbols, resolveFile t p symbols = .error e) ∨
      ∃ declarations lineCount, (∀ d ∈ declarations, Source.Scanned p d) ∧
        ∀ symbols, resolveFile t p symbols =
          .ok { declarations
                diagnostics := unresolvedSupertypes declarations symbols
                lineCount } := by
  simp only [resolveFile]
  cases readSource t p with
  | error e => exact .inl ⟨e, fun _ => rfl⟩
  | ok text =>
    dsimp only
    cases hscan : Source.scan p text.toList with
    | error fault => exact .inl ⟨_, fun _ => rfl⟩
    | ok declarations =>
      exact .inr ⟨declarations, _, Source.scanned_of_scan hscan, fun _ => rfl⟩

theorem resolveFile_eq_ok {t : FileTree} {p : Path} {symbols : SymbolTable}
    {analysis : FileAnalysis} (h : resolveFile t p symbols = .ok analysis) :
    analysis.diagnostics = unresolvedSupertypes analysis.declarations symbols ∧
      ∀ d ∈ analysis.declarations, Source.Scanned p d := by
  rcases resolveFile_cases t p with ⟨e, herror⟩ | ⟨declarations, lineCount, hscanned, hok⟩
  · rw [herror] at h
    cases h
  · obtain rfl := Except.ok.inj ((hok symbols).symm.trans h)
    exact ⟨rfl, hscanned⟩

/-! ## Warnings from tables that have much in common -/

/-- Tables that differ in some names give the same warnings about inherited types apart from those
about these names. -/
theorem filter_unresolvedSupertypes {names : List String} {t t' : SymbolTable}
    (h : t.SameApartFrom names t') {p : Path} {ds : List Declaration}
    (hds : ∀ d ∈ ds, Source.Scanned p d) :
    (unresolvedSupertypes ds t).filter (fun m => m.subject ∉ names) =
      (unresolvedSupertypes ds t').filter (fun m => m.subject ∉ names) := by
  rw [unresolvedSupertypes, unresolvedSupertypes, List.filter_flatMap, List.filter_flatMap]
  refine List.flatMap_congr fun d hd => ?_
  rw [List.filter_map, List.filter_map, List.filter_filter, List.filter_filter]
  congr 1
  refine List.filter_congr fun type ht => ?_
  have hsubject := Diagnostic.subject_unresolvedSupertype ((hds d hd).supertypes type ht) d
  by_cases hname : type ∈ names
  · simp [hsubject, hname]
  · simp [hsubject, hname, h.contains_eq hname]

theorem filter_alsoDeclared {names : List String} {t t' : SymbolTable}
    (h : t.SameApartFrom names t') {p : Path} {ds : List Declaration}
    (hds : ∀ d ∈ ds, Source.Scanned p d) :
    ((t.registerFile ds).2.map fun e => Diagnostic.alsoDeclared e.1 e.2).filter
        (fun m => m.subject ∉ names) =
      ((t'.registerFile ds).2.map fun e => Diagnostic.alsoDeclared e.1 e.2).filter
        (fun m => m.subject ∉ names) := by
  have hfilter : ∀ t : SymbolTable,
      ((t.registerFile ds).2.map fun e => Diagnostic.alsoDeclared e.1 e.2).filter
          (fun m => m.subject ∉ names) =
        ((t.registerFile ds).2.filter fun e => e.1 ∉ names).map fun e =>
          Diagnostic.alsoDeclared e.1 e.2 := by
    intro t
    rw [List.filter_map]
    congr 1
    refine List.filter_congr fun e he => ?_
    obtain ⟨d, hd, hname⟩ := SymbolTable.exists_mem_of_mem_shadowed he
    have hplain : PlainName e.1 := hname ▸ (hds d hd).name
    simp [Diagnostic.subject_alsoDeclared hplain]
  rw [hfilter t, hfilter t', h.filter_shadowed]

end Recheck
