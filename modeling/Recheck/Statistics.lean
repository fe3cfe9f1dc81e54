/-!
# Counters of a run

How many files a run looked at and what became of them.
-/

namespace Recheck

/-- The counters of one run. -/
structure Statistics where
  totalFiles : Nat := 0
  /-- Files of the change set that resolved. -/
  resolvedFiles : Nat := 0
  /-- Files outside the change set that resolved. -/
  cachedFiles : Nat := 0
  /-- Files that failed to resolve. -/
  errorFiles : Nat := 0
  elapsedMillis : Nat := 0
  hashComputations : Nat := 0
  quickSkips : Nat := 0

namespace Statistics

/-- The share of the examined files that needed no digest, zero if none was examined. -/
def skipRate (s : Statistics) : Float :=
  if s.hashComputations + s.quickSkips = 0 then 0.0
  else Float.ofNat s.quickSkips / Float.ofNat (s.hashComputations + s.quickSkips)

/-- A share in percent, as a whole number. A half goes to the even neighbour. -/
def percent (share : Float) : Nat :=
  let value := share * 100.0
  let low := value.floor.toUInt64.toNat
  let above := value - value.floor
  if above > 0.5 then low + 1
  else if above < 0.5 then low
  else if low % 2 = 0 then low else low + 1

end Statistics

end Recheck
