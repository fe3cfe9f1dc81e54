import Recheck.Analysis.Basic

/-!
# Run reports

A report describes one run as a JSON document with paths relative to the project root. It is written
to a new file named for its time.
-/

namespace Recheck

namespace Report

/-- A path in a report. -/
def pathText (root p : Path) : String :=
  String.ofList ((p.relativeTo root).shown.toList.map fun c => if c = '\\' then '/' else c)

/-- A diagnostic in a report. -/
def diagnostic (d : Diagnostic) : Json :=
  .object
    [("severity", .string d.severity.label), ("message", .string d.message),
      ("line",
        match d.line with
        | some n => Json.nat n
        | none => .null)]

/-- The number of diagnostics of a severity. -/
def count (severity : Severity) (ds : List Diagnostic) : Nat :=
  ds.countP fun d => d.severity = severity

/-- A resolved file in a report. -/
def file (root : Path) (r : FileResult) : Json :=
  .object
    [("path", .string (pathText root r.path)), ("changed", .bool r.changed),
      ("declarations", Json.texts (r.declarations.map (·.name))),
      ("errors", Json.nat (count .error r.diagnostics)),
      ("warnings", Json.nat (count .warning r.diagnostics)),
      ("diagnostics", .array (r.diagnostics.map diagnostic))]

/-- The counters in a report. -/
def statistics (s : Statistics) : Json :=
  .object
    [("total_files", Json.nat s.totalFiles), ("resolved_files", Json.nat s.resolvedFiles),
      ("cached_files", Json.nat s.cachedFiles), ("error_files", Json.nat s.errorFiles),
      ("elapsed_ms", Json.nat s.elapsedMillis),
      ("hash_computations", Json.nat s.hashComputations), ("quick_skips", Json.nat s.quickSkips)]

/-- The report of a run. -/
def ofAnalysis (now : Timestamp) (a : Analysis) : Json :=
  let root := a.project.root
  let rel := pathText root
  .object
    [("generated_at", .string now.text),
      ("package", .string a.project.packageName),
      ("order", Json.texts (a.order.map rel)),
      ("changed", Json.texts (Text.sort (a.changeSet.map rel))),
      ("files", .array (a.results.map (file root))),
      ("failures",
        .object (Table.ofList (a.failures.map fun e => (rel e.1, Json.string e.2))).entries),
      ("cycles", .array (a.cycles.map fun cycle => Json.texts (cycle.map rel))),
      ("external",
        .object (Table.ofList (a.external.map fun e => (rel e.1, Json.texts e.2))).entries),
      ("statistics", statistics a.statistics),
      ("cancelled", .bool a.cancelled)]

/-- The name of the file of a report. -/
def fileName (now : Timestamp) : String :=
  let pad (width n : Nat) : String := String.ofList (Timestamp.padded width n)
  "analysis-" ++ String.ofList (Timestamp.yearText now.year) ++ pad 2 now.month ++ pad 2 now.day ++
    "-" ++ pad 2 now.hour ++ pad 2 now.minute ++ pad 2 now.second ++ "-" ++
    pad 3 (now.nano / 1000000) ++ ".json"

/-- Writes a report into a directory, which is made if need be. Gives the tree that is left, and why
it could not be written. -/
def write (t : FileTree) (dir : Path) (now : Timestamp) (a : Analysis) :
    FileTree × Option OsError :=
  match t.makeDirs dir with
  | (t, some e) => (t, some e)
  | (t, none) =>
    match t.write (dir.join ⟨fileName now⟩) (Text.bytes (ofAnalysis now a).pretty) with
    | .ok t => (t, none)
    | .error e => (t, some e)

end Report

/-- What a run leaves behind once its report is written. A report that cannot be written is left
out. -/
def RunOutcome.withReport (o : RunOutcome) (config : Config) (now : Timestamp) : RunOutcome :=
  let dir := config.reportsPath o.analysis.project.root
  { o with tree := (Report.write o.tree dir now o.analysis).1 }

end Recheck
