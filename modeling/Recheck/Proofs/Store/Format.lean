import Recheck.Proofs.Json
import Recheck.Proofs.Store
import Recheck.Proofs.Timestamp
import Recheck.Store.Disk

/-!
# Stores written and read

The text of a store is read as this store (`Store.parse?_text`) if its times, counts and years are
among those that the written form allows (`StoreData.InRange`). What was read from a text is within
these bounds (`StoreData.inRange_of_ofJson?`).
-/

namespace Recheck

theorem TextSet.ofTexts_keys (s : TextSet) : TextSet.ofTexts s.keys = s := by
  have hmap : (s.keys.map fun key => (key, ())) = s.entries := by
    rw [Table.keys, List.map_map]
    exact (List.map_congr_left fun _ _ => rfl).trans (List.map_id _)
  rw [TextSet.ofTexts, hmap, Table.ofList_entries]

/-! ## Bounds -/

/-- A time has 64 bits. -/
def TimeInRange (time : Int) : Prop :=
  -9223372036854775808 ≤ time ∧ time ≤ 9223372036854775807

/-- The time of a record has 64 bits. -/
def Record.InRange (r : Record) : Prop := TimeInRange r.modified

/-- The counts of a summary have 64 bits, and its year can be read. -/
def RunMetadata.InRange (m : RunMetadata) : Prop :=
  m.lastRun.YearInRange ∧ m.fileCount ≤ 18446744073709551615 ∧
    m.symbolCount ≤ 18446744073709551615

/-- A store whose written form can be read. -/
structure StoreData.InRange (d : StoreData) : Prop where
  files : ∀ e ∈ d.files.entries, e.2.InRange
  metadata : ∀ m ∈ d.metadata, m.InRange

/-! ## Writing and reading -/

theorem Json.mapM_eq_some {α β : Type} {f : α → Option β} {g : β → α} {bs : List β}
    (h : ∀ b ∈ bs, f (g b) = some b) : (bs.map g).mapM f = some bs := by
  induction bs with
  | nil => rfl
  | cons b bs ih =>
    rw [List.map_cons, List.mapM_cons, h b List.mem_cons_self,
      ih fun b' hb' => h b' (List.mem_cons_of_mem b hb')]
    rfl

theorem Json.exists_of_mem_mapM {α β : Type} {f : α → Option β} {as : List α} {bs : List β}
    (h : as.mapM f = some bs) : ∀ b ∈ bs, ∃ a ∈ as, f a = some b := by
  induction as generalizing bs with
  | nil =>
    obtain rfl : [] = bs := Option.some.inj h
    simp
  | cons a as ih =>
    rw [List.mapM_cons] at h
    obtain ⟨b, hb, h⟩ := Option.bind_eq_some_iff.mp h
    obtain ⟨bs', hbs', h⟩ := Option.bind_eq_some_iff.mp h
    obtain rfl := Option.some.inj h
    intro c hc
    rcases List.mem_cons.mp hc with rfl | hc
    · exact ⟨a, List.mem_cons_self, hb⟩
    · obtain ⟨a', ha', hc'⟩ := ih hbs' c hc
      exact ⟨a', List.mem_cons_of_mem a ha', hc'⟩

theorem Json.count?_nat {n : Nat} (h : n ≤ 18446744073709551615) :
    (Json.nat n).count? = some n := by
  have hrange : (0 : Int) ≤ n ∧ (n : Int) ≤ 18446744073709551615 := by omega
  rw [Json.count?, Json.nat, Json.integer?, if_pos hrange, Option.map_some, Int.toNat_natCast]

theorem Record.ofJson?_toJson {r : Record} (h : r.InRange) : Record.ofJson? r.toJson = some r := by
  have htime : (Json.int r.modified).int64? = some r.modified := if_pos h
  simp [Record.ofJson?, Record.toJson, Json.required?, Json.unique?, Json.text?, htime]

theorem RunMetadata.ofJson?_toJson {m : RunMetadata} (h : m.InRange) :
    RunMetadata.ofJson? m.toJson = some m := by
  obtain ⟨hyear, hfiles, hsymbols⟩ := h
  simp [RunMetadata.ofJson?, RunMetadata.toJson, Json.required?, Json.unique?, Json.text?,
    Timestamp.parse?_text hyear, Json.count?_nat hfiles, Json.count?_nat hsymbols]

namespace StoreData

theorem records?_toJson {d : StoreData} (h : d.InRange) :
    records? (.object (d.files.entries.map fun e => (e.1, e.2.toJson))) = some d.files := by
  have hread : (d.files.entries.map fun e => (e.1, e.2.toJson)).mapM
      (fun m => (Record.ofJson? m.2).map fun r => (m.1, r)) = some d.files.entries :=
    Json.mapM_eq_some fun e he => by
      rw [Record.ofJson?_toJson (h.files e he)]
      rfl
  rw [records?, hread, Option.map_some, Table.ofList_entries]

theorem texts?_texts (texts : List String) : (Json.texts texts).texts? = some texts :=
  Json.mapM_eq_some fun _ _ => rfl

theorem optional?_toJson {m : RunMetadata} (h : m.InRange) :
    RunMetadata.optional? m.toJson = some (some m) := by
  rw [RunMetadata.optional?, RunMetadata.ofJson?_toJson h, Option.map_some]
  exact fun heq => by cases heq

/-- The written form of a store is read as this store. -/
theorem ofJson?_toJson {d : StoreData} (h : d.InRange) : ofJson? d.toJson = some d := by
  have hversion : (Json.nat version).count? = some version := Json.count?_nat (by decide)
  have hrecords := records?_toJson h
  have hmetadata := h.metadata
  obtain ⟨files, metadata, pending⟩ := d
  cases metadata with
  | none =>
    simp [ofJson?, toJson, Json.required?, Json.unique?, hversion, hrecords, texts?_texts,
      TextSet.ofTexts_keys, RunMetadata.optional?]
  | some m =>
    simp [ofJson?, toJson, Json.required?, Json.unique?, hversion, hrecords, texts?_texts,
      TextSet.ofTexts_keys, optional?_toJson (hmetadata m rfl)]

/-- The written form of a store has no numerals but integers. -/
theorem writable_toJson (d : StoreData) : d.toJson.Writable := by
  have hrecord : ∀ r : Record, r.toJson.Writable := fun r => .object fun m hm => by
    simp only [List.mem_cons, List.not_mem_nil, or_false] at hm
    rcases hm with rfl | rfl
    · exact .string _
    · exact .integer _
  have hsummary : ∀ m : RunMetadata, m.toJson.Writable := fun m => .object fun m hm => by
    simp only [List.mem_cons, List.not_mem_nil, or_false] at hm
    rcases hm with rfl | rfl | rfl
    · exact .string _
    · exact .integer _
    · exact .integer _
  refine .object fun m hm => ?_
  simp only [List.mem_cons, List.not_mem_nil, or_false] at hm
  rcases hm with rfl | rfl | rfl | rfl
  · exact .integer _
  · refine .object fun m hm => ?_
    obtain ⟨e, -, rfl⟩ := List.mem_map.mp hm
    exact hrecord e.2
  · cases d.metadata with
    | none => exact .null
    | some m => exact hsummary m
  · refine .array fun item hitem => ?_
    obtain ⟨text, -, rfl⟩ := List.mem_map.mp hitem
    exact .string text

end StoreData

/-! ## Bounds of what was read -/

theorem Json.mem_range_of_integer? {low high n : Int} {j : Json}
    (h : j.integer? low high = some n) : low ≤ n ∧ n ≤ high := by
  cases j with
  | number value =>
    cases value with
    | integer k =>
      rw [Json.integer?] at h
      split at h
      · next hrange =>
        obtain rfl := Option.some.inj h
        exact hrange
      · cases h
    | decimal => cases h
  | _ => cases h

theorem Json.le_of_count? {j : Json} {n : Nat} (h : j.count? = some n) :
    n ≤ 18446744073709551615 := by
  obtain ⟨k, hk, rfl⟩ := Option.map_eq_some_iff.mp h
  have := Json.mem_range_of_integer? hk
  omega

theorem Record.inRange_of_ofJson? {j : Json} {r : Record} (h : Record.ofJson? j = some r) :
    r.InRange := by
  have hread : ∀ hash modified : Json,
      (hash.text?.bind fun text => modified.int64?.bind fun time => some (Record.mk text time)) =
        some r → r.InRange := by
    intro hash modified hread
    obtain ⟨text, -, hread⟩ := Option.bind_eq_some_iff.mp hread
    obtain ⟨time, htime, hread⟩ := Option.bind_eq_some_iff.mp hread
    obtain rfl := Option.some.inj hread
    exact Json.mem_range_of_integer? htime
  simp only [Record.ofJson?, Option.bind_eq_bind] at h
  split at h
  · obtain ⟨hash, -, h⟩ := Option.bind_eq_some_iff.mp h
    obtain ⟨modified, -, h⟩ := Option.bind_eq_some_iff.mp h
    exact hread hash modified h
  · exact hread _ _ h
  · cases h

theorem RunMetadata.inRange_of_ofJson? {j : Json} {m : RunMetadata}
    (h : RunMetadata.ofJson? j = some m) : m.InRange := by
  have hread : ∀ lastRun files symbols : Json,
      (lastRun.text?.bind fun text => (Timestamp.parse? text).bind fun time =>
        files.count?.bind fun fileCount => symbols.count?.bind fun symbolCount =>
          some (RunMetadata.mk time fileCount symbolCount)) = some m → m.InRange := by
    intro lastRun files symbols hread
    obtain ⟨text, -, hread⟩ := Option.bind_eq_some_iff.mp hread
    obtain ⟨time, htime, hread⟩ := Option.bind_eq_some_iff.mp hread
    obtain ⟨fileCount, hfiles, hread⟩ := Option.bind_eq_some_iff.mp hread
    obtain ⟨symbolCount, hsymbols, hread⟩ := Option.bind_eq_some_iff.mp hread
    obtain rfl := Option.some.inj hread
    exact ⟨Timestamp.yearInRange_of_parse? htime, Json.le_of_count? hfiles,
      Json.le_of_count? hsymbols⟩
  simp only [RunMetadata.ofJson?, Option.bind_eq_bind] at h
  split at h
  · obtain ⟨lastRun, -, h⟩ := Option.bind_eq_some_iff.mp h
    obtain ⟨files, -, h⟩ := Option.bind_eq_some_iff.mp h
    obtain ⟨symbols, -, h⟩ := Option.bind_eq_some_iff.mp h
    exact hread lastRun files symbols h
  · exact hread _ _ _ h
  · cases h

namespace StoreData

theorem inRange_of_records? {j : Json} {files : Table Record} (h : records? j = some files) :
    ∀ e ∈ files.entries, e.2.InRange := by
  intro e he
  cases j with
  | object members =>
    obtain ⟨es, hes, rfl⟩ := Option.map_eq_some_iff.mp h
    have hmem := Table.mem_of_get?_ofList (Table.mem_entries.mp he)
    obtain ⟨m, -, hm⟩ := Json.exists_of_mem_mapM hes _ hmem
    obtain ⟨r, hr, heq⟩ := Option.map_eq_some_iff.mp hm
    rw [← congrArg Prod.snd heq]
    exact Record.inRange_of_ofJson? hr
  | _ => cases h

theorem inRange_of_optional? {j : Json} {metadata : Option RunMetadata}
    (h : RunMetadata.optional? j = some metadata) : ∀ m ∈ metadata, m.InRange := by
  rw [RunMetadata.optional?.eq_def] at h
  split at h
  · obtain rfl := Option.some.inj h
    simp
  · obtain ⟨m, hm, rfl⟩ := Option.map_eq_some_iff.mp h
    rintro m' hm'
    obtain rfl := Option.some.inj hm'
    exact RunMetadata.inRange_of_ofJson? hm

/-- A store that was read can be written and read again. -/
theorem inRange_of_ofJson? {j : Json} {d : StoreData} (h : ofJson? j = some d) : d.InRange := by
  have hread : ∀ (version' files metadata : Json) (pending : Option Json),
      (version'.count?.bind fun n =>
        if n = version then
          (records? files).bind fun records => (RunMetadata.optional? metadata).bind fun summary =>
            (pending.getD (.array [])).texts?.bind fun texts =>
              some (StoreData.mk records summary (TextSet.ofTexts texts))
        else none) = some d → d.InRange := by
    intro version' files metadata pending hread
    obtain ⟨n, -, hread⟩ := Option.bind_eq_some_iff.mp hread
    split at hread
    · obtain ⟨records, hrecords, hread⟩ := Option.bind_eq_some_iff.mp hread
      obtain ⟨summary, hsummary, hread⟩ := Option.bind_eq_some_iff.mp hread
      obtain ⟨texts, -, hread⟩ := Option.bind_eq_some_iff.mp hread
      obtain rfl := Option.some.inj hread
      exact ⟨inRange_of_records? hrecords, inRange_of_optional? hsummary⟩
    · cases hread
  simp only [ofJson?, Option.bind_eq_bind] at h
  split at h
  · obtain ⟨version', -, h⟩ := Option.bind_eq_some_iff.mp h
    obtain ⟨files, -, h⟩ := Option.bind_eq_some_iff.mp h
    obtain ⟨metadata, -, h⟩ := Option.bind_eq_some_iff.mp h
    obtain ⟨pending, -, h⟩ := Option.bind_eq_some_iff.mp h
    exact hread version' files _ pending h
  · exact hread _ _ _ none h
  · exact hread _ _ _ _ h
  · cases h

end StoreData

/-- The text of a store is read as this store. -/
theorem Store.parse?_text {d : StoreData} (h : d.InRange) :
    (Json.parse? (Store.text d)).bind StoreData.ofJson? = some d := by
  rw [Store.text, Json.parse?_pretty d.writable_toJson, Option.bind_some,
    StoreData.ofJson?_toJson h]

end Recheck
