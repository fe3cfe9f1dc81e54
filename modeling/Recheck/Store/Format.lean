import Recheck.Json.Basic
import Recheck.Store.Basic

/-!
# The written form of a store

A store is written as a JSON object with a version, the records by path, the summary of the last run
and the unresolved files. When it is read, an object may have its members in any order and may have
more of them, but none of its own twice; a list of the members' values in order is read as well. A
store of another version is not read.
-/

namespace Recheck

/-- The version of the written form. -/
def StoreData.version : Nat := 1

/-! ## Writing -/

/-- The written form of a record. -/
def Record.toJson (r : Record) : Json :=
  .object [("content_hash", .string r.hash), ("modified_time_millis", Json.int r.modified)]

/-- The written form of a summary. -/
def RunMetadata.toJson (m : RunMetadata) : Json :=
  .object
    [("last_run_timestamp", .string m.lastRun.text), ("file_count", Json.nat m.fileCount),
      ("symbol_count", Json.nat m.symbolCount)]

/-- The written form of a store. -/
def StoreData.toJson (d : StoreData) : Json :=
  .object
    [("version", Json.nat StoreData.version),
      ("files", .object (d.files.entries.map fun e => (e.1, e.2.toJson))),
      ("metadata",
        match d.metadata with
        | some m => m.toJson
        | none => .null),
      ("pending", Json.texts d.pending.keys)]

/-! ## Reading -/

namespace Json

/-- The value of a member, absent or not; nothing if the name is repeated. -/
def unique? (members : List (String × Json)) (name : String) : Option (Option Json) :=
  match members.filter fun m => m.1 = name with
  | [] => some none
  | [m] => some (some m.2)
  | _ => none

/-- The value of a member that must be there once. -/
def required? (members : List (String × Json)) (name : String) : Option Json :=
  (unique? members name).join

/-- An integer of at least `low` and at most `high`. -/
def integer? (low high : Int) : Json → Option Int
  | number (.integer n) => if low ≤ n ∧ n ≤ high then some n else none
  | _ => none

/-- An integer of 64 bits. -/
def int64? : Json → Option Int := integer? (-9223372036854775808) 9223372036854775807

/-- A count of 64 bits. -/
def count? (j : Json) : Option Nat := (integer? 0 18446744073709551615 j).map Int.toNat

/-- A list of texts. -/
def texts? : Json → Option (List String)
  | array items => items.mapM text?
  | _ => none

end Json

/-- Reads a record. -/
def Record.ofJson? (j : Json) : Option Record := do
  let (hash, modified) ←
    match j with
    | .object members =>
      some
        (← Json.required? members "content_hash",
          ← Json.required? members "modified_time_millis")
    | .array [hash, modified] => some (hash, modified)
    | _ => none
  some ⟨← hash.text?, ← modified.int64?⟩

/-- Reads a summary. -/
def RunMetadata.ofJson? (j : Json) : Option RunMetadata := do
  let (lastRun, files, symbols) ←
    match j with
    | .object members =>
      some (← Json.required? members "last_run_timestamp", ← Json.required? members "file_count",
        ← Json.required? members "symbol_count")
    | .array [lastRun, files, symbols] => some (lastRun, files, symbols)
    | _ => none
  some ⟨← Timestamp.parse? (← lastRun.text?), ← files.count?, ← symbols.count?⟩

/-- Reads a summary that may be missing. -/
def RunMetadata.optional? : Json → Option (Option RunMetadata)
  | .null => some none
  | j => (RunMetadata.ofJson? j).map some

/-- Reads the records. Of two under one path the later counts. -/
def StoreData.records? : Json → Option (Table Record)
  | .object members =>
    (members.mapM fun m => (Record.ofJson? m.2).map fun r => (m.1, r)).map Table.ofList
  | _ => none

/-- Reads a store. -/
def StoreData.ofJson? (j : Json) : Option StoreData := do
  let (version, files, metadata, pending) ←
    match j with
    | .object members =>
      some (← Json.required? members "version", ← Json.required? members "files",
        (← Json.unique? members "metadata").getD .null, ← Json.unique? members "pending")
    | .array [version, files, metadata] => some (version, files, metadata, none)
    | .array [version, files, metadata, pending] => some (version, files, metadata, some pending)
    | _ => none
  if (← version.count?) = StoreData.version then
    some
      { files := ← StoreData.records? files
        metadata := ← RunMetadata.optional? metadata
        pending := TextSet.ofTexts (← (pending.getD (.array [])).texts?) }
  else none

end Recheck
