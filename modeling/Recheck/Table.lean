import Recheck.Text.Order

/-!
# Tables

A table holds values under text keys, in the order of the keys and with no key twice. Its entries
are a list, so two tables with the same values under the same keys are equal.
-/

namespace Recheck

/-- Values under text keys. -/
structure Table (α : Type) where
  entries : List (String × α)
  /-- The keys ascend. -/
  ascending : entries.Pairwise fun a b => Text.le a.1 b.1 = true ∧ a.1 ≠ b.1

namespace Table

variable {α : Type}

/-- The table without entries. -/
def empty : Table α := ⟨[], .nil⟩

instance : Inhabited (Table α) := ⟨empty⟩

/-- The number of entries. -/
def size (t : Table α) : Nat := t.entries.length

/-- The keys in order. -/
def keys (t : Table α) : List String := t.entries.map (·.1)

/-- The value under a key. -/
def get? (t : Table α) (key : String) : Option α :=
  (t.entries.find? fun e => e.1 = key).map (·.2)

/-- Whether there is a value under a key. -/
def contains (t : Table α) (key : String) : Bool := t.entries.any fun e => e.1 = key

/-- The entries with `value` under `key`. -/
def putEntry (key : String) (value : α) : List (String × α) → List (String × α)
  | [] => [(key, value)]
  | e :: rest =>
    if e.1 = key then (key, value) :: rest
    else if Text.le key e.1 then (key, value) :: e :: rest
    else e :: putEntry key value rest

theorem mem_putEntry {key : String} {value : α} {es : List (String × α)} {e : String × α}
    (h : e ∈ putEntry key value es) : e.1 = key ∨ e ∈ es := by
  induction es with
  | nil =>
    rw [putEntry, List.mem_singleton] at h
    exact .inl (by rw [h])
  | cons f es ih =>
    rw [putEntry] at h
    split at h
    · rcases List.mem_cons.mp h with rfl | h
      · exact .inl rfl
      · exact .inr (List.mem_cons_of_mem _ h)
    · split at h
      · rcases List.mem_cons.mp h with rfl | h
        · exact .inl rfl
        · exact .inr h
      · rcases List.mem_cons.mp h with rfl | h
        · exact .inr (List.mem_cons_self ..)
        · exact (ih h).imp_right (List.mem_cons_of_mem _)

theorem ascending_putEntry (key : String) (value : α) {es : List (String × α)}
    (h : es.Pairwise fun a b => Text.le a.1 b.1 = true ∧ a.1 ≠ b.1) :
    (putEntry key value es).Pairwise fun a b => Text.le a.1 b.1 = true ∧ a.1 ≠ b.1 := by
  induction es with
  | nil => simp [putEntry]
  | cons f es ih =>
    obtain ⟨hf, hes⟩ := List.pairwise_cons.mp h
    rw [putEntry]
    split
    · next hk =>
      refine List.pairwise_cons.mpr ⟨fun e he => ?_, hes⟩
      rw [← hk]
      exact hf e he
    · next hk =>
      split
      · next hle =>
        refine List.pairwise_cons.mpr ⟨fun e he => ?_, h⟩
        rcases List.mem_cons.mp he with rfl | he
        · exact ⟨hle, fun heq => hk heq.symm⟩
        · refine ⟨Text.le_trans hle (hf e he).1, fun heq => hk ?_⟩
          have hfe := (hf e he).1
          rw [show e.1 = key from heq.symm] at hfe
          exact Text.le_antisymm hfe hle
      · next hle =>
        refine List.pairwise_cons.mpr ⟨fun e he => ?_, ih hes⟩
        rcases mem_putEntry he with heq | he
        · rw [heq]
          exact ⟨(Text.le_total f.1 key).resolve_right hle, hk⟩
        · exact hf e he

/-- The table with `value` under `key`. -/
def put (t : Table α) (key : String) (value : α) : Table α :=
  ⟨putEntry key value t.entries, ascending_putEntry key value t.ascending⟩

/-- The table without a value under `key`. -/
def erase (t : Table α) (key : String) : Table α :=
  ⟨t.entries.filter fun e => e.1 ≠ key, t.ascending.filter _⟩

/-- The table of a list of entries; of two values under one key the later stays. -/
def ofList (entries : List (String × α)) : Table α :=
  entries.foldl (fun t e => t.put e.1 e.2) empty

end Table

end Recheck
