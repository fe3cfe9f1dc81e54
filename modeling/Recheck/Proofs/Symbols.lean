import Recheck.Proofs.Table
import Recheck.Symbols

/-!
# Symbols of files

Registering a file makes its last declaration of a name the one that is found
(`lookup_registerFile`). A name that another file had is reported once for the file, however often
the file declares it (`filter_shadowed`).

`SameApartFrom` compares tables that know different declarations of some names: registering a file
with both keeps them apart in these names only (`SameApartFrom.registerFile`) and reports the same
for all others (`SameApartFrom.filter_shadowed`).
-/

namespace Recheck

/-! ## The last declaration of a name -/

/-- The last declaration of a name. -/
def lastNamed? (name : String) (ds : List Declaration) : Option Declaration :=
  (ds.filter fun d => d.name = name).getLast?

theorem lastNamed?_cons (name : String) (d : Declaration) (ds : List Declaration) :
    lastNamed? name (d :: ds) =
      (lastNamed? name ds).or (if d.name = name then some d else none) := by
  simp only [lastNamed?, List.filter_cons, decide_eq_true_eq]
  split
  · rw [List.getLast?_cons]
    cases (ds.filter fun d => d.name = name).getLast? <;> rfl
  · rw [Option.or_none]

theorem mem_of_lastNamed? {name : String} {ds : List Declaration} {d : Declaration}
    (h : lastNamed? name ds = some d) : d ∈ ds :=
  (List.mem_filter.mp (List.mem_of_getLast? h)).1

theorem lastNamed?_eq_none_iff {name : String} {ds : List Declaration} :
    lastNamed? name ds = none ↔ ∀ d ∈ ds, d.name ≠ name := by
  simp [lastNamed?]

namespace SymbolTable

/-! ## Lookups -/

theorem contains_eq_isSome_lookup (t : SymbolTable) (name : String) :
    t.contains name = (t.lookup name).isSome :=
  Table.contains_eq_isSome t.symbols name

theorem lookup_insert (t : SymbolTable) (d : Declaration) (name : String) :
    (t.insert d).1.lookup name = if d.name = name then some d else t.lookup name :=
  Table.get?_put t.symbols d.name d name

theorem lookup_registerFile (t : SymbolTable) (ds : List Declaration) (name : String) :
    (t.registerFile ds).1.lookup name = (lastNamed? name ds).or (t.lookup name) := by
  induction ds generalizing t with
  | nil => rfl
  | cons d ds ih =>
    rw [registerFile, ih, lookup_insert, lastNamed?_cons, Option.or_assoc]
    split <;> simp

theorem contains_registerFile (t : SymbolTable) (ds : List Declaration) (name : String) :
    (t.registerFile ds).1.contains name = true ↔
      t.contains name = true ∨ ∃ d ∈ ds, d.name = name := by
  have hlast : (lastNamed? name ds).isSome = true ↔ ∃ d ∈ ds, d.name = name := by
    rw [← not_iff_not, Bool.not_eq_true, Option.isSome_eq_false_iff, Option.isNone_iff_eq_none,
      lastNamed?_eq_none_iff]
    simp
  rw [contains_eq_isSome_lookup, lookup_registerFile, Option.isSome_or, Bool.or_eq_true, hlast,
    contains_eq_isSome_lookup, or_comm]

/-! ## Names of other files -/

/-- The file that has a name, if that is another file than `p`. -/
def otherOwner? (t : SymbolTable) (name : String) (p : Path) : Option Path :=
  (t.lookup name).bind fun d => if Path.Same d.file p then none else some d.file

theorem snd_insert (t : SymbolTable) (d : Declaration) :
    (t.insert d).2 = t.otherOwner? d.name d.file := by
  rw [insert, otherOwner?]
  cases t.lookup d.name <;> rfl

theorem snd_registerFile_cons (t : SymbolTable) (d : Declaration) (ds : List Declaration) :
    (t.registerFile (d :: ds)).2 =
      ((t.otherOwner? d.name d.file).toList.map fun q => (d.name, q)) ++
        ((t.insert d).1.registerFile ds).2 := by
  rw [← snd_insert, registerFile]
  rcases t.insert d with ⟨t', _ | q⟩ <;> rfl

theorem otherOwner?_insert (t : SymbolTable) (d : Declaration) (name : String) :
    (t.insert d).1.otherOwner? name d.file =
      if d.name = name then none else t.otherOwner? name d.file := by
  rw [otherOwner?, lookup_insert]
  split
  · exact if_pos rfl
  · rfl

theorem exists_mem_of_mem_shadowed {t : SymbolTable} {ds : List Declaration} {e : String × Path}
    (he : e ∈ (t.registerFile ds).2) : ∃ d ∈ ds, d.name = e.1 := by
  induction ds generalizing t with
  | nil => simp [registerFile] at he
  | cons d ds ih =>
    rw [snd_registerFile_cons] at he
    rcases List.mem_append.mp he with he | he
    · obtain ⟨q, -, rfl⟩ := List.mem_map.mp he
      exact ⟨d, List.mem_cons_self, rfl⟩
    · obtain ⟨d', hd', hname⟩ := ih he
      exact ⟨d', List.mem_cons_of_mem _ hd', hname⟩

/-- What is reported of a name when a file is registered: the file that had it, if the file declares
it and another file had it. -/
theorem filter_shadowed {t : SymbolTable} {ds : List Declaration} {p : Path}
    (hfile : ∀ d ∈ ds, d.file = p) (name : String) :
    (t.registerFile ds).2.filter (fun e => e.1 = name) =
      if ∃ d ∈ ds, d.name = name then (t.otherOwner? name p).toList.map fun q => (name, q)
      else [] := by
  induction ds generalizing t with
  | nil => simp [registerFile]
  | cons d ds ih =>
    obtain ⟨rfl, hds⟩ := List.forall_mem_cons.mp hfile
    rw [snd_registerFile_cons, List.filter_append, ih hds, otherOwner?_insert]
    -- Once the file has declared the name, no other file has it.
    by_cases hname : d.name = name <;> simp [hname]

/-! ## Tables that differ in some names -/

/-- The tables find the same declaration of every name but some. -/
def SameApartFrom (names : List String) (t t' : SymbolTable) : Prop :=
  ∀ name, name ∉ names → t.lookup name = t'.lookup name

namespace SameApartFrom

variable {names : List String} {t t' : SymbolTable} (h : SameApartFrom names t t')
include h

theorem contains_eq {name : String} (hname : name ∉ names) :
    t.contains name = t'.contains name := by
  rw [contains_eq_isSome_lookup, contains_eq_isSome_lookup, h name hname]

theorem registerFile (ds : List Declaration) :
    SameApartFrom names (t.registerFile ds).1 (t'.registerFile ds).1 := by
  intro name hname
  rw [lookup_registerFile, lookup_registerFile, h name hname]

/-- Registering a file with one of them keeps them the same apart from the names if the file
declares none but these. -/
theorem registerFile_left {ds : List Declaration} (hds : ∀ d ∈ ds, d.name ∈ names) :
    SameApartFrom names (t.registerFile ds).1 t' := by
  intro name hname
  have hnone : lastNamed? name ds = none :=
    lastNamed?_eq_none_iff.mpr fun d hd heq => hname (heq ▸ hds d hd)
  rw [lookup_registerFile, hnone, Option.none_or, h name hname]

theorem filter_shadowed (ds : List Declaration) :
    (t.registerFile ds).2.filter (fun e => e.1 ∉ names) =
      (t'.registerFile ds).2.filter (fun e => e.1 ∉ names) := by
  induction ds generalizing t t' with
  | nil => rfl
  | cons d ds ih =>
    have hinsert : SameApartFrom names (t.insert d).1 (t'.insert d).1 := by
      intro name hname
      rw [lookup_insert, lookup_insert, h name hname]
    rw [snd_registerFile_cons, snd_registerFile_cons, List.filter_append, List.filter_append,
      ih hinsert]
    congr 1
    by_cases hd : d.name ∈ names
    · have hnone : ∀ qs : List Path,
          (qs.map fun q => (d.name, q)).filter (fun e => e.1 ∉ names) = [] := by
        simp [hd]
      rw [hnone, hnone]
    · rw [otherOwner?, otherOwner?, h d.name hd]

end SameApartFrom

end SymbolTable

end Recheck
