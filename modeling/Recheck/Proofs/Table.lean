import Mathlib.Data.List.Induction
import Mathlib.Data.List.Pairwise
import Recheck.Table

/-!
# Tables as maps

A table is determined by what `get?` answers (`Table.ext_get?`), and each operation is described by
its effect on `get?`: `get?_put`, `get?_erase`. `mem_keys` relates the keys to it. A table is made
from its own entries (`ofList_entries`).
-/

namespace Recheck.Table

variable {α : Type}

@[simp] theorem get?_empty (key : String) : (empty : Table α).get? key = none := rfl

theorem find?_putEntry (key : String) (value : α) (es : List (String × α)) (k : String) :
    ((putEntry key value es).find? fun e => e.1 = k).map (·.2) =
      if key = k then some value else (es.find? fun e => e.1 = k).map (·.2) := by
  induction es with
  | nil => by_cases h : key = k <;> simp [putEntry, h]
  | cons e es ih =>
    rw [putEntry]
    by_cases he : e.1 = key
    · by_cases h : key = k <;> simp [he, h]
    · rw [if_neg he]
      by_cases hle : Text.le key e.1 = true
      · rw [if_pos hle]
        by_cases h : key = k <;> simp [h]
      · rw [if_neg hle, List.find?_cons, List.find?_cons]
        by_cases hk : e.1 = k
        · have h : key ≠ k := fun h => he (hk.trans h.symm)
          simp [hk, h]
        · simp only [hk, decide_false]
          exact ih

theorem get?_put (t : Table α) (key : String) (value : α) (k : String) :
    (t.put key value).get? k = if key = k then some value else t.get? k :=
  find?_putEntry key value t.entries k

theorem get?_erase (t : Table α) (key k : String) :
    (t.erase key).get? k = if key = k then none else t.get? k := by
  simp only [get?, erase, List.find?_filter]
  by_cases h : key = k
  · subst h
    rw [if_pos rfl, Option.map_eq_none_iff, List.find?_eq_none]
    simp
  · rw [if_neg h]
    congr 2
    funext e
    by_cases hk : e.1 = k
    · have : k ≠ key := fun hk' => h hk'.symm
      simp [hk, this]
    · simp [hk]

theorem contains_eq_isSome (t : Table α) (key : String) : t.contains key = (t.get? key).isSome := by
  rw [Bool.eq_iff_iff, contains, List.any_eq_true, get?, Option.isSome_map, List.find?_isSome]

theorem mem_keys {t : Table α} {key : String} : key ∈ t.keys ↔ (t.get? key).isSome = true := by
  rw [← contains_eq_isSome, contains, List.any_eq_true, keys, List.mem_map]
  simp only [decide_eq_true_eq]

/-- The entries are the pairs of a key and the value under it, since no key occurs twice. -/
theorem mem_entries {t : Table α} {key : String} {value : α} :
    (key, value) ∈ t.entries ↔ t.get? key = some value := by
  rw [get?, Option.map_eq_some_iff]
  constructor
  · intro h
    have hsome : (t.entries.find? fun e => e.1 = key).isSome = true :=
      List.find?_isSome.mpr ⟨(key, value), h, by simp⟩
    obtain ⟨e, he⟩ := Option.isSome_iff_exists.mp hsome
    have hmem := List.mem_of_find?_eq_some he
    have hkey : e.1 = key := by simpa using List.find?_some he
    refine ⟨e, he, ?_⟩
    by_contra hne
    have : Std.Symm fun a b : String × α => a.1 ≠ b.1 := ⟨fun _ _ h => h.symm⟩
    have hd : t.entries.Pairwise fun a b => a.1 ≠ b.1 := t.ascending.imp And.right
    exact hd.forall hmem h (fun heq => hne (by rw [heq])) hkey
  · rintro ⟨e, he, rfl⟩
    have hkey : e.1 = key := by simpa using List.find?_some he
    rw [← hkey]
    exact List.mem_of_find?_eq_some he

/-- Two tables with the same values under the same keys are equal. -/
theorem ext_get? {t t' : Table α} (h : ∀ key, t.get? key = t'.get? key) : t = t' := by
  have nodup : ∀ t : Table α, t.entries.Nodup := fun t =>
    t.ascending.imp fun {a b} hab (heq : a = b) => hab.2 (by rw [heq])
  have hperm : t.entries.Perm t'.entries := by
    rw [List.perm_ext_iff_of_nodup (nodup t) (nodup t')]
    rintro ⟨key, value⟩
    rw [mem_entries, mem_entries, h key]
  have hentries : t.entries = t'.entries :=
    hperm.eq_of_pairwise (fun a b _ _ hab hba => absurd (Text.le_antisymm hab.1 hba.1) hab.2)
      t.ascending t'.ascending
  cases t
  cases t'
  simp only at hentries
  simp only [hentries]

theorem mem_keys_foldl_put (es : List (String × α)) (t : Table α) (key : String) :
    key ∈ (es.foldl (fun t e => t.put e.1 e.2) t).keys ↔ key ∈ t.keys ∨ key ∈ es.map (·.1) := by
  induction es generalizing t with
  | nil => simp
  | cons e es ih =>
    rw [List.foldl_cons, ih, mem_keys, get?_put, mem_keys, List.map_cons, List.mem_cons]
    by_cases h : e.1 = key
    · simp [h]
    · have h' : key ≠ e.1 := fun h' => h h'.symm
      simp [h, h']

theorem mem_keys_ofList {es : List (String × α)} {key : String} :
    key ∈ (ofList es).keys ↔ key ∈ es.map (·.1) := by
  rw [ofList, mem_keys_foldl_put]
  simp [mem_keys]

/-! ## From entries -/

/-- A key that comes after all others is put at the end. -/
theorem putEntry_of_forall_lt {key : String} {value : α} {es : List (String × α)}
    (h : ∀ e ∈ es, Text.le e.1 key = true ∧ e.1 ≠ key) :
    putEntry key value es = es ++ [(key, value)] := by
  induction es with
  | nil => rfl
  | cons e es ih =>
    obtain ⟨hle, hne⟩ := h e List.mem_cons_self
    have hgt : ¬ Text.le key e.1 = true := fun hge => hne (Text.le_antisymm hle hge)
    rw [putEntry, if_neg hne, if_neg hgt, ih fun e' he' => h e' (List.mem_cons_of_mem e he'),
      List.cons_append]

theorem entries_ofList {es : List (String × α)}
    (h : es.Pairwise fun a b => Text.le a.1 b.1 = true ∧ a.1 ≠ b.1) : (ofList es).entries = es := by
  induction es using List.reverseRecOn with
  | nil => rfl
  | append_singleton es e ih =>
    obtain ⟨hes, -, hlast⟩ := List.pairwise_append.mp h
    have hput : (ofList (es ++ [e])).entries = putEntry e.1 e.2 (ofList es).entries := by
      rw [ofList, List.foldl_append]
      rfl
    rw [hput, ih hes, putEntry_of_forall_lt fun e' he' => hlast e' he' e List.mem_cons_self]

/-- A table is made from its own entries. -/
theorem ofList_entries (t : Table α) : ofList t.entries = t := by
  cases t with
  | mk es h =>
    have hes := entries_ofList h
    cases hofList : ofList es with
    | mk es' h' =>
      rw [hofList] at hes
      simp only at hes
      simp only [hes]

theorem mem_of_get?_ofList {es : List (String × α)} {key : String} {value : α}
    (h : (ofList es).get? key = some value) : (key, value) ∈ es := by
  induction es using List.reverseRecOn with
  | nil => cases h
  | append_singleton es e ih =>
    rw [ofList, List.foldl_append, List.foldl_cons, List.foldl_nil, get?_put] at h
    split at h
    · next hkey =>
      obtain rfl := hkey
      obtain rfl := Option.some.inj h
      simp
    · exact List.mem_append_left _ (ih h)

end Recheck.Table
