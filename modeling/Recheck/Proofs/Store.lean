import Recheck.Proofs.Path.Names
import Recheck.Proofs.Table
import Recheck.Store.Disk

/-!
# What the operations on a store change

A store is seen through the records it gives (`StoreData.get?`) and the files it lists as left
unresolved (`StoreData.pendingPaths`); each operation is described by its effect on the two. Paths
with the same key, which is the text shown for them, have the same record (`get?_congr`), and all
listed paths are texts (`mem_paths`, `mem_pendingPaths`). Writing a store to disk changes neither
(`data_flush`).
-/

namespace Recheck

theorem Record.ext {r r' : Record} (hhash : r.hash = r'.hash)
    (hmodified : r.modified = r'.modified) : r = r' := by
  cases r
  cases r'
  simp_all

theorem TextSet.mem_keys_ofTexts {texts : List String} {text : String} :
    text ∈ (TextSet.ofTexts texts).keys ↔ text ∈ texts := by
  rw [TextSet.ofTexts, Table.mem_keys_ofList]
  simp

namespace StoreData

@[simp] theorem get?_empty (p : Path) : ({} : StoreData).get? p = none := Table.get?_empty _

theorem get?_congr (d : StoreData) {p q : Path} (h : p.shown = q.shown) : d.get? p = d.get? q := by
  rw [get?, h, get?]

theorem get?_ofText (d : StoreData) (key : String) : d.get? (.ofText key) = d.files.get? key := by
  rw [get?, Path.shown_ofText]

/-- The paths that keys name. -/
theorem mem_map_ofText {keys : List String} {p : Path} :
    p ∈ keys.map Path.ofText ↔ p.IsText ∧ p.shown ∈ keys := by
  rw [List.mem_map]
  constructor
  · rintro ⟨key, hkey, rfl⟩
    exact ⟨Path.isText_ofText key, (Path.shown_ofText key).symm ▸ hkey⟩
  · exact fun ⟨hp, hkey⟩ => ⟨p.shown, hkey, hp.ofText_shown⟩

theorem mem_paths {d : StoreData} {p : Path} :
    p ∈ d.paths ↔ p.IsText ∧ (d.get? p).isSome = true := by
  rw [paths, mem_map_ofText, Table.mem_keys, get?]

theorem mem_pendingPaths {d : StoreData} {p : Path} :
    p ∈ d.pendingPaths ↔ p.IsText ∧ p.shown ∈ d.pending.keys :=
  mem_map_ofText

/-- Two stores that give the same records hold the same table. -/
theorem files_ext {d d' : StoreData} (h : ∀ p : Path, p.IsText → d.get? p = d'.get? p) :
    d.files = d'.files := by
  refine Table.ext_get? fun key => ?_
  rw [← get?_ofText, ← get?_ofText]
  exact h _ (Path.isText_ofText key)

theorem pending_ext {d d' : StoreData} (h : ∀ p, p ∈ d.pendingPaths ↔ p ∈ d'.pendingPaths) :
    d.pending = d'.pending := by
  refine Table.ext_get? fun key => ?_
  have hkey := h (.ofText key)
  simp only [mem_pendingPaths, Path.isText_ofText, Path.shown_ofText, true_and, Table.mem_keys]
    at hkey
  cases hd : d.pending.get? key <;> cases hd' : d'.pending.get? key <;> simp_all

end StoreData

namespace Store

@[simp] theorem data_change (s : Store) (d : StoreData) : (s.change d).data = d := rfl

theorem get?_put (s : Store) (p : Path) (r : Record) (q : Path) :
    (s.put p r).data.get? q = if p.shown = q.shown then some r else s.data.get? q := by
  simp only [put, data_change, StoreData.get?, Table.get?_put]

theorem get?_remove (s : Store) (p q : Path) :
    (s.remove p).data.get? q = if p.shown = q.shown then none else s.data.get? q := by
  rw [remove]
  split
  · simp only [data_change, StoreData.get?, Table.get?_erase]
  · next h =>
    rw [Table.contains_eq_isSome, Bool.not_eq_true, Option.isSome_eq_false_iff] at h
    split
    · next hpq => exact (s.data.get?_congr hpq).symm.trans (Option.isNone_iff_eq_none.mp h)
    · rfl

@[simp] theorem pendingPaths_remove (s : Store) (p : Path) :
    (s.remove p).data.pendingPaths = s.data.pendingPaths := by
  rw [remove]
  split <;> rfl

theorem get?_foldl_remove (ps : List Path) (s : Store) (q : Path) :
    (ps.foldl remove s).data.get? q =
      if q.shown ∈ ps.map Path.shown then none else s.data.get? q := by
  induction ps generalizing s with
  | nil => simp
  | cons p ps ih =>
    rw [List.foldl_cons, ih, get?_remove]
    by_cases h : q.shown ∈ ps.map Path.shown
    · simp only [h, if_true, List.map_cons, List.mem_cons_of_mem]
    · by_cases hp : p.shown = q.shown
      · simp [hp]
      · rw [if_neg h, if_neg hp, List.map_cons, if_neg]
        exact fun hmem => (List.mem_cons.mp hmem).elim (fun heq => hp heq.symm) h

/-- Pruning forgets exactly the records whose keys do not name one of the given files. -/
theorem get?_prune (s : Store) (live : List Path) (q : Path) :
    (s.prune live).1.data.get? q =
      if Path.memSame (.ofText q.shown) live then s.data.get? q else none := by
  have hstale : q.shown ∈ (s.paths.filter fun p => !Path.memSame p live).map Path.shown ↔
      (s.data.get? q).isSome = true ∧ Path.memSame (.ofText q.shown) live = false := by
    simp only [List.mem_map, List.mem_filter, paths, StoreData.mem_paths, Bool.not_eq_true']
    constructor
    · rintro ⟨p, ⟨⟨hp, hsome⟩, hlive⟩, hshown⟩
      rw [← hshown, hp.ofText_shown, ← s.data.get?_congr hshown]
      exact ⟨hsome, hlive⟩
    · rintro ⟨hsome, hlive⟩
      have hshown := Path.shown_ofText q.shown
      rw [← s.data.get?_congr hshown] at hsome
      exact ⟨.ofText q.shown, ⟨⟨Path.isText_ofText _, hsome⟩, hlive⟩, hshown⟩
  simp only [prune, get?_foldl_remove, hstale]
  by_cases hl : Path.memSame (.ofText q.shown) live = true
  · simp [hl]
  · by_cases hs : (s.data.get? q).isSome = true
    · simp [hl, hs]
    · have hn : s.data.get? q = none := by simpa using hs
      simp [hn]

@[simp] theorem pendingPaths_prune (s : Store) (live : List Path) :
    (s.prune live).1.data.pendingPaths = s.data.pendingPaths := by
  rw [prune]
  generalize (s.paths.filter fun p => !Path.memSame p live) = ps
  show (ps.foldl remove s).data.pendingPaths = _
  induction ps generalizing s with
  | nil => rfl
  | cons p ps ih => rw [List.foldl_cons, ih, pendingPaths_remove]

@[simp] theorem get?_setPending (s : Store) (ps : List Path) (q : Path) :
    (s.setPending ps).data.get? q = s.data.get? q := by
  simp only [setPending]
  split <;> rfl

/-- The files that a store lists as left unresolved are those that the keys of the given ones
name. -/
theorem mem_pendingPaths_setPending (s : Store) (ps : List Path) (q : Path) :
    q ∈ (s.setPending ps).data.pendingPaths ↔ ∃ p ∈ ps, .ofText p.shown = q := by
  have hkeys : (s.setPending ps).data.pending.keys = (TextSet.ofTexts (ps.map (·.shown))).keys := by
    simp only [setPending]
    split
    · next h => exact h.symm
    · rfl
  rw [StoreData.mem_pendingPaths, hkeys, TextSet.mem_keys_ofTexts, List.mem_map]
  constructor
  · rintro ⟨hq, p, hp, hshown⟩
    exact ⟨p, hp, by rw [hshown, hq.ofText_shown]⟩
  · rintro ⟨p, hp, rfl⟩
    exact ⟨Path.isText_ofText _, p, hp, (Path.shown_ofText _).symm⟩

@[simp] theorem get?_saveMetadata (s : Store) (m : RunMetadata) (q : Path) :
    (s.saveMetadata m).data.get? q = s.data.get? q := rfl

@[simp] theorem pendingPaths_saveMetadata (s : Store) (m : RunMetadata) :
    (s.saveMetadata m).data.pendingPaths = s.data.pendingPaths := rfl

theorem writeTo_ok {t t' : FileTree} {s s' : Store} {file : Path} {refusal : Option Refusal}
    (h : writeTo t s file refusal = (t', .ok s')) : s' = { s with file := some ⟨file, false⟩ } := by
  simp only [writeTo] at h
  split at h
  · simp at h
  · split at h
    · simp at h
    · split at h
      · simp at h
      · simp only [Prod.mk.injEq, Except.ok.injEq] at h
        exact h.2.symm

/-- Writing a store to disk leaves its content as it is. -/
theorem data_flush {t t' : FileTree} {s s' : Store} {refusal : Option Refusal}
    (h : flush t s refusal = (t', .ok s')) : s'.data = s.data := by
  simp only [flush] at h
  split at h
  · simp only [Prod.mk.injEq, Except.ok.injEq] at h
    rw [h.2]
  · split at h
    · rw [writeTo_ok h]
    · simp only [Prod.mk.injEq, Except.ok.injEq] at h
      rw [h.2]

end Store

end Recheck
