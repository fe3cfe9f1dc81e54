import Mathlib.Data.List.DropRight
import Mathlib.Data.List.Induction
import Mathlib.Data.List.Nodup
import Recheck.Proofs.Path
import Recheck.Proofs.Symbols

/-!
# The symbol table after a history

What has happened to a table is a list of events: a name was declared, or a file was removed. The
history says which declarations are current (`Current`): the last one of its name, unless its file
has been removed since. It also says which names a file has declared since it was last removed, in
the order in which they came (`namesSince`).

`Follows` relates a table to its history. Every event keeps it (`Follows.step`), although a file
keeps listing names that other files have taken over: what counts is that the owner of a name lists
it (`Current.name_mem_namesSince`). All answers of the table follow (`refines_after`).
-/

namespace Recheck.SymbolTable

/-! ## Calls and events -/

/-- A call that changes a table. -/
inductive Call where
  | insert (d : Declaration)
  | registerFile (ds : List Declaration)
  | removeFile (p : Path)

/-- The table after a call. -/
def call (t : SymbolTable) : Call → SymbolTable
  | .insert d => (t.insert d).1
  | .registerFile ds => (t.registerFile ds).1
  | .removeFile p => t.removeFile p

/-- The table after some calls, the first of them on a table without declarations. -/
def after (calls : List Call) : SymbolTable := calls.foldl call empty

/-- What a call does, one thing at a time. -/
inductive Event where
  | declared (d : Declaration)
  | removed (p : Path)

/-- The events of a call. -/
def Call.events : Call → List Event
  | .insert d => [.declared d]
  | .registerFile ds => ds.map .declared
  | .removeFile p => [.removed p]

/-- The table after an event. -/
def step (t : SymbolTable) : Event → SymbolTable
  | .declared d => (t.insert d).1
  | .removed p => t.removeFile p

theorem fst_registerFile (t : SymbolTable) (ds : List Declaration) :
    (t.registerFile ds).1 = (ds.map Event.declared).foldl step t := by
  induction ds generalizing t with
  | nil => rfl
  | cons d ds ih =>
    rw [registerFile, ih]
    rfl

theorem call_eq_foldl_step (t : SymbolTable) (c : Call) : t.call c = c.events.foldl step t := by
  cases c with
  | insert d => rfl
  | registerFile ds => exact fst_registerFile t ds
  | removeFile p => rfl

theorem after_eq_foldl_step (calls : List Call) :
    after calls = (calls.flatMap Call.events).foldl step empty := by
  have hcall : call = fun t c => c.events.foldl step t := funext₂ call_eq_foldl_step
  rw [after, List.foldl_flatMap, hcall]

/-! ## What a history says -/

/-- The event removes the file `p`. -/
def Event.removes (p : Path) : Event → Bool
  | .declared _ => false
  | .removed q => decide (Path.Same q p)

/-- The name that an event declares for the file `p`. -/
def Event.nameFor? (p : Path) : Event → Option String
  | .declared d => if Path.Same d.file p then some d.name else none
  | .removed _ => none

/-- The event neither declares the name of the declaration nor removes its file. -/
def Event.Spares (d : Declaration) : Event → Prop
  | .declared d' => d'.name ≠ d.name
  | .removed p => ¬ Path.Same p d.file

/-- The declaration is the last one of its name, and its file has not been removed since. -/
def Current (history : List Event) (d : Declaration) : Prop :=
  ∃ earlier later, history = earlier ++ .declared d :: later ∧ ∀ e ∈ later, e.Spares d

/-- The names that the file `p` has declared since it was last removed, in the order in which they
were first declared. -/
def namesSince (p : Path) (history : List Event) : List String :=
  ((history.rtakeWhile fun e => !e.removes p).filterMap (Event.nameFor? p)).eraseDups

theorem not_current_nil (d : Declaration) : ¬ Current [] d := by
  rintro ⟨earlier, later, h, -⟩
  simp at h

/-- An event makes the declaration that it brings current, and keeps those that it spares. -/
theorem current_concat {history : List Event} {e : Event} {d : Declaration} :
    Current (history ++ [e]) d ↔ e = .declared d ∨ Current history d ∧ e.Spares d := by
  constructor
  · rintro ⟨earlier, later, h, hlater⟩
    rcases later.eq_nil_or_concat with rfl | ⟨later, last, rfl⟩
    · exact .inl (List.singleton_inj.mp (List.append_inj' h rfl).2)
    · rw [List.concat_eq_append] at h hlater
      rw [← List.cons_append, ← List.append_assoc] at h
      obtain ⟨hhistory, hlast⟩ := List.append_inj' h rfl
      obtain rfl := List.singleton_inj.mp hlast
      obtain ⟨hlater, hspares⟩ := List.forall_mem_append.mp hlater
      exact .inr ⟨⟨earlier, later, hhistory, hlater⟩, hspares e List.mem_cons_self⟩
  · rintro (rfl | ⟨⟨earlier, later, rfl, hlater⟩, hspares⟩)
    · exact ⟨history, [], rfl, by simp⟩
    · refine ⟨earlier, later ++ [e], by simp, List.forall_mem_append.mpr ⟨hlater, ?_⟩⟩
      simpa using hspares

/-- The owner of a name lists it. -/
theorem Current.name_mem_namesSince {history : List Event} {d : Declaration}
    (h : Current history d) {p : Path} (hp : Path.Same d.file p) :
    d.name ∈ namesSince p history := by
  obtain ⟨earlier, later, rfl, hlater⟩ := h
  have hstays : ∀ e ∈ (Event.declared d :: later).reverse, (!e.removes p) = true := by
    intro e he
    cases e with
    | declared d' => rfl
    | removed q =>
      have hq : ¬ Path.Same q d.file := hlater (.removed q) (by simpa using he)
      have hne : ¬ Path.Same q p := fun hs => hq (hs.trans hp.symm)
      simp [Event.removes, hne]
  rw [namesSince, List.mem_eraseDups, List.mem_filterMap]
  refine ⟨.declared d, ?_, if_pos hp⟩
  rw [List.rtakeWhile, List.mem_reverse, List.reverse_append, List.takeWhile_append_of_pos hstays]
  simp

theorem eraseDups_concat (names : List String) (name : String) :
    (names ++ [name]).eraseDups =
      if name ∈ names.eraseDups then names.eraseDups else names.eraseDups ++ [name] := by
  rw [List.eraseDups, eraseDupsBy_concat, ← List.eraseDups]
  simp

theorem nodup_eraseDups (names : List String) : names.eraseDups.Nodup := by
  induction names using List.reverseRecOn with
  | nil => exact List.nodup_nil
  | append_singleton names name ih =>
    rw [eraseDups_concat]
    split
    · exact ih
    · next h => exact List.Nodup.append ih (List.nodup_singleton name) (by simpa using h)

theorem namesSince_declared (p : Path) (history : List Event) (d : Declaration) :
    namesSince p (history ++ [.declared d]) =
      if Path.Same d.file p then
        if d.name ∈ namesSince p history then namesSince p history
        else namesSince p history ++ [d.name]
      else namesSince p history := by
  rw [namesSince, List.rtakeWhile_concat_pos _ _ _ rfl, List.filterMap_append]
  by_cases hs : Path.Same d.file p
  · have hname : [Event.declared d].filterMap (Event.nameFor? p) = [d.name] := by
      simp [Event.nameFor?, hs]
    rw [hname, eraseDups_concat, if_pos hs]
    rfl
  · have hname : [Event.declared d].filterMap (Event.nameFor? p) = [] := by
      simp [Event.nameFor?, hs]
    rw [hname, List.append_nil, if_neg hs]
    rfl

theorem namesSince_removed (p : Path) (history : List Event) (q : Path) :
    namesSince p (history ++ [.removed q]) =
      if Path.Same q p then [] else namesSince p history := by
  rw [namesSince]
  by_cases hs : Path.Same q p
  · rw [List.rtakeWhile_concat_neg _ _ _ (by simp [Event.removes, hs]), if_pos hs]
    rfl
  · rw [List.rtakeWhile_concat_pos _ _ _ (by simp [Event.removes, hs]), List.filterMap_append,
      show [Event.removed q].filterMap (Event.nameFor? p) = [] from rfl, List.append_nil, if_neg hs]
    rfl

/-! ## Names listed for a file -/

theorem namesOf_cons (symbols : Table Declaration) (p : Path) (e : Path × List String)
    (rest : List (Path × List String)) :
    namesOf ⟨symbols, e :: rest⟩ p =
      if Path.Same e.1 p then e.2 else namesOf ⟨symbols, rest⟩ p := by
  rw [namesOf, List.find?_cons]
  by_cases hs : Path.Same e.1 p
  · simp [hs]
  · simp only [hs, decide_false, if_false]
    rfl

theorem namesOf_listName (symbols : Table Declaration) (q p : Path) (name : String)
    (declared : List (Path × List String)) :
    namesOf ⟨symbols, listName q name declared⟩ p =
      if Path.Same q p then
        if name ∈ namesOf ⟨symbols, declared⟩ p then namesOf ⟨symbols, declared⟩ p
        else namesOf ⟨symbols, declared⟩ p ++ [name]
      else namesOf ⟨symbols, declared⟩ p := by
  induction declared with
  | nil =>
    rw [listName, namesOf_cons]
    rfl
  | cons e rest ih =>
    rw [listName]
    -- Of the three files two may be the same: the entry's, the one that declares, the one asked
    -- for.
    by_cases heq : Path.Same e.1 q
    · by_cases hep : Path.Same e.1 p
      · have hqp : Path.Same q p := heq.symm.trans hep
        simp only [heq, hep, hqp, namesOf_cons, if_true]
      · have hqp : ¬ Path.Same q p := fun hqp => hep (heq.trans hqp)
        simp only [heq, hep, hqp, namesOf_cons, if_true, if_false]
    · by_cases hep : Path.Same e.1 p
      · have hqp : ¬ Path.Same q p := fun hqp => heq (hep.trans hqp.symm)
        simp only [heq, hep, hqp, namesOf_cons, if_true, if_false]
      · simp only [heq, hep, namesOf_cons, if_false, ih]

theorem namesOf_insert (t : SymbolTable) (d : Declaration) (p : Path) :
    (t.insert d).1.namesOf p =
      if Path.Same d.file p then
        if d.name ∈ t.namesOf p then t.namesOf p else t.namesOf p ++ [d.name]
      else t.namesOf p :=
  namesOf_listName (t.symbols.put d.name d) d.file p d.name t.declared

theorem namesOf_filter (symbols : Table Declaration) (q p : Path)
    (declared : List (Path × List String)) :
    namesOf ⟨symbols, declared.filter fun e => !decide (Path.Same e.1 q)⟩ p =
      if Path.Same q p then [] else namesOf ⟨symbols, declared⟩ p := by
  induction declared with
  | nil => split <;> rfl
  | cons e rest ih =>
    by_cases heq : Path.Same e.1 q
    · rw [List.filter_cons_of_neg (by simp [heq]), ih, namesOf_cons]
      by_cases hqp : Path.Same q p
      · rw [if_pos hqp, if_pos hqp]
      · have hep : ¬ Path.Same e.1 p := fun hep => hqp (heq.symm.trans hep)
        rw [if_neg hqp, if_neg hqp, if_neg hep]
    · rw [List.filter_cons_of_pos (by simp [heq]), namesOf_cons, namesOf_cons, ih]
      by_cases hep : Path.Same e.1 p
      · have hqp : ¬ Path.Same q p := fun hqp => heq (hep.trans hqp.symm)
        rw [if_pos hep, if_pos hep, if_neg hqp]
      · rw [if_neg hep, if_neg hep]

theorem namesOf_removeFile (t : SymbolTable) (q p : Path) :
    (t.removeFile q).namesOf p = if Path.Same q p then [] else t.namesOf p :=
  namesOf_filter (t.removeFile q).symbols q p t.declared

/-! ## Removing a file -/

/-- The symbols without `name`, if the file `p` has declared it. -/
def eraseOwned (p : Path) (symbols : Table Declaration) (name : String) : Table Declaration :=
  match symbols.get? name with
  | some d => if Path.Same d.file p then symbols.erase name else symbols
  | none => symbols

theorem get?_eraseOwned {p : Path} {symbols : Table Declaration} {name n : String}
    {d : Declaration} :
    (eraseOwned p symbols name).get? n = some d ↔
      symbols.get? n = some d ∧ ¬ (name = n ∧ Path.Same d.file p) := by
  rw [eraseOwned]
  cases hget : symbols.get? name with
  | none =>
    refine ⟨fun h => ⟨h, ?_⟩, And.left⟩
    rintro ⟨rfl, -⟩
    simp [hget] at h
  | some owner =>
    by_cases hs : Path.Same owner.file p
    · simp only [hs, if_true, Table.get?_erase]
      by_cases hname : name = n
      · subst hname
        simp only [if_true, hget, Option.some.injEq, true_and]
        refine ⟨fun h => absurd h (by simp), ?_⟩
        rintro ⟨rfl, hother⟩
        exact absurd hs hother
      · simp [hname]
    · simp only [hs, if_false]
      refine ⟨fun h => ⟨h, ?_⟩, And.left⟩
      rintro ⟨rfl, hs'⟩
      rw [hget] at h
      exact hs (Option.some.inj h ▸ hs')

theorem get?_foldl_eraseOwned {p : Path} {names : List String} {symbols : Table Declaration}
    {n : String} {d : Declaration} :
    (names.foldl (eraseOwned p) symbols).get? n = some d ↔
      symbols.get? n = some d ∧ ¬ (n ∈ names ∧ Path.Same d.file p) := by
  induction names generalizing symbols with
  | nil => simp
  | cons name names ih =>
    rw [List.foldl_cons, ih, get?_eraseOwned, and_assoc, ← not_or, ← or_and_right, List.mem_cons,
      show name = n ↔ n = name from eq_comm]

theorem lookup_removeFile {t : SymbolTable} {p : Path} {n : String} {d : Declaration} :
    (t.removeFile p).lookup n = some d ↔
      t.lookup n = some d ∧ ¬ (n ∈ t.namesOf p ∧ Path.Same d.file p) :=
  get?_foldl_eraseOwned

/-! ## Tables that follow a history -/

/-- The table finds the current declarations, and lists for each file the names that it has declared
since it was last removed. -/
structure Follows (history : List Event) (t : SymbolTable) : Prop where
  lookup_iff : ∀ n d, t.lookup n = some d ↔ Current history d ∧ d.name = n
  namesOf_eq : ∀ p, t.namesOf p = namesSince p history

namespace Follows

theorem empty : Follows [] empty where
  lookup_iff n d := by
    have hnone : SymbolTable.empty.lookup n = none := rfl
    simp [hnone, not_current_nil]
  namesOf_eq p := rfl

variable {history : List Event} {t : SymbolTable} (h : Follows history t)
include h

theorem mem_namesOf {n : String} {d : Declaration} {p : Path} (hd : t.lookup n = some d)
    (hs : Path.Same d.file p) : n ∈ t.namesOf p := by
  obtain ⟨hcurrent, rfl⟩ := (h.lookup_iff n d).mp hd
  rw [h.namesOf_eq]
  exact hcurrent.name_mem_namesSince hs

theorem lookup_removeFile_iff {p : Path} {n : String} {d : Declaration} :
    (t.removeFile p).lookup n = some d ↔ t.lookup n = some d ∧ ¬ Path.Same d.file p := by
  rw [lookup_removeFile]
  exact and_congr_right fun hd => not_congr ⟨And.right, fun hs => ⟨h.mem_namesOf hd hs, hs⟩⟩

theorem declared (d : Declaration) : Follows (history ++ [.declared d]) (t.insert d).1 where
  lookup_iff n d' := by
    rw [lookup_insert, current_concat, Event.declared.injEq, Event.Spares]
    by_cases hname : d.name = n
    · rw [if_pos hname, Option.some.injEq]
      constructor
      · rintro rfl
        exact ⟨.inl rfl, hname⟩
      · rintro ⟨heq | ⟨-, hne⟩, hname'⟩
        · exact heq
        · exact absurd (hname.trans hname'.symm) hne
    · rw [if_neg hname, h.lookup_iff]
      constructor
      · rintro ⟨hcurrent, rfl⟩
        exact ⟨.inr ⟨hcurrent, hname⟩, rfl⟩
      · rintro ⟨rfl | ⟨hcurrent, -⟩, hname'⟩
        · exact absurd hname' hname
        · exact ⟨hcurrent, hname'⟩
  namesOf_eq p := by rw [namesOf_insert, namesSince_declared, h.namesOf_eq]

/-- The names that other files have taken over are listed still, but `p` does not own them. -/
theorem removed (p : Path) : Follows (history ++ [.removed p]) (t.removeFile p) where
  lookup_iff n d := by
    have hs : Path.Same d.file p ↔ Path.Same p d.file := eq_comm
    rw [h.lookup_removeFile_iff, h.lookup_iff, current_concat, Event.Spares, hs, and_right_comm]
    simp
  namesOf_eq q := by rw [namesOf_removeFile, namesSince_removed, h.namesOf_eq]

theorem step (e : Event) : Follows (history ++ [e]) (t.step e) := by
  cases e with
  | declared d => exact h.declared d
  | removed p => exact h.removed p

end Follows

theorem follows_foldl_step (history : List Event) : Follows history (history.foldl step empty) := by
  induction history using List.reverseRecOn with
  | nil => exact .empty
  | append_singleton history e ih =>
    rw [List.foldl_append]
    exact ih.step e

/-! ## What a table answers -/

/-- The table answers what the history says. -/
structure Refines (history : List Event) (t : SymbolTable) : Prop where
  lookup_iff : ∀ n d, t.lookup n = some d ↔ Current history d ∧ d.name = n
  contains_iff : ∀ n, t.contains n = true ↔ ∃ d, Current history d ∧ d.name = n
  /-- The names of the current declarations are counted, each once. -/
  size_eq : ∃ names : List String, names.Nodup ∧ t.size = names.length ∧
    ∀ n, n ∈ names ↔ ∃ d, Current history d ∧ d.name = n
  /-- Inserting a declaration gives the other file that its name is taken over from. -/
  insert_iff : ∀ d q, (t.insert d).2 = some q ↔
    ∃ owner, Current history owner ∧ owner.name = d.name ∧ owner.file = q ∧
      ¬ Path.Same owner.file d.file
  mem_declarationsIn : ∀ p d, d ∈ t.declarationsIn p ↔ Current history d ∧ Path.Same d.file p
  nodup_declarationsIn : ∀ p, (t.declarationsIn p).Nodup
  /-- The declarations of a file come in the order in which it first declared their names. -/
  declarationsIn_order : ∀ p,
    ((t.declarationsIn p).map (·.name)).Sublist (namesSince p history)
  removeFile_iff : ∀ p n d,
    (t.removeFile p).lookup n = some d ↔ t.lookup n = some d ∧ ¬ Path.Same d.file p

namespace Follows

variable {history : List Event} {t : SymbolTable} (h : Follows history t)
include h

theorem contains_iff (n : String) :
    t.contains n = true ↔ ∃ d, Current history d ∧ d.name = n := by
  simp only [contains_eq_isSome_lookup, Option.isSome_iff_exists, h.lookup_iff]

theorem insert_iff (d : Declaration) (q : Path) :
    (t.insert d).2 = some q ↔
      ∃ owner, Current history owner ∧ owner.name = d.name ∧ owner.file = q ∧
        ¬ Path.Same owner.file d.file := by
  rw [snd_insert, otherOwner?, Option.bind_eq_some_iff]
  refine exists_congr fun owner => ?_
  rw [h.lookup_iff, and_assoc]
  refine and_congr_right fun _ => and_congr_right fun _ => ?_
  by_cases hs : Path.Same owner.file d.file <;> simp [hs]

theorem mem_declarationsIn (p : Path) (d : Declaration) :
    d ∈ t.declarationsIn p ↔ Current history d ∧ Path.Same d.file p := by
  rw [declarationsIn, List.mem_filterMap]
  constructor
  · rintro ⟨n, -, hn⟩
    split at hn
    · next d' hd' =>
      split at hn
      · next hs =>
        obtain rfl := Option.some.inj hn
        exact ⟨((h.lookup_iff n _).mp hd').1, hs⟩
      · cases hn
    · cases hn
  · rintro ⟨hcurrent, hs⟩
    have hlookup : t.lookup d.name = some d := (h.lookup_iff d.name d).mpr ⟨hcurrent, rfl⟩
    exact ⟨d.name, h.mem_namesOf hlookup hs, by simp [hlookup, hs]⟩

/-- The names of the declarations of a file are those it lists and still has. -/
theorem map_name_declarationsIn (p : Path) :
    (t.declarationsIn p).map (·.name) =
      (namesSince p history).filter fun n =>
        (t.lookup n).any fun d => decide (Path.Same d.file p) := by
  rw [declarationsIn, List.map_filterMap, h.namesOf_eq, ← List.filterMap_eq_filter]
  refine List.filterMap_congr fun n _ => ?_
  cases hn : t.lookup n with
  | none => simp [Option.guard, hn]
  | some d =>
    obtain ⟨-, rfl⟩ := (h.lookup_iff n d).mp hn
    by_cases hs : Path.Same d.file p <;> simp [Option.guard, hn, hs]

theorem refines : Refines history t where
  lookup_iff := h.lookup_iff
  contains_iff := h.contains_iff
  size_eq := by
    refine ⟨t.symbols.keys, ?_, (List.length_map _).symm, fun n => ?_⟩
    · exact List.pairwise_map.mpr (t.symbols.ascending.imp And.right)
    · rw [← h.contains_iff, contains_eq_isSome_lookup, Table.mem_keys]
      rfl
  insert_iff := h.insert_iff
  mem_declarationsIn := h.mem_declarationsIn
  nodup_declarationsIn p := by
    refine List.Nodup.of_map (·.name) ?_
    rw [h.map_name_declarationsIn]
    exact (nodup_eraseDups _).filter _
  declarationsIn_order p := by
    rw [h.map_name_declarationsIn]
    exact List.filter_sublist
  removeFile_iff _ _ _ := h.lookup_removeFile_iff

end Follows

/-- After any calls, the table answers what their history says. -/
theorem refines_after (calls : List Call) : Refines (calls.flatMap Call.events) (after calls) := by
  rw [after_eq_foldl_step]
  exact (follows_foldl_step _).refines

end Recheck.SymbolTable
