/-!
# Splitting texts

`Text.splitOn` cuts a list at every occurrence of a separator and keeps empty pieces, so joining the
pieces with the separator gives the list back.
-/

namespace Recheck

namespace Text

/-- The pieces between the separators `sep`, empty ones included; never an empty list. -/
def splitOn {α : Type} [DecidableEq α] (sep : α) : List α → List (List α)
  | [] => [[]]
  | c :: cs =>
    if c = sep then [] :: splitOn sep cs
    else
      match splitOn sep cs with
      | [] => [[c]]
      | piece :: pieces => (c :: piece) :: pieces

/-- What follows `start`, if the list begins with it. -/
def stripStart? {α : Type} [DecidableEq α] : List α → List α → Option (List α)
  | [], cs => some cs
  | _ :: _, [] => none
  | p :: ps, c :: cs => if p = c then stripStart? ps cs else none

/-- The pieces with `sep` between neighbours. -/
def join {α : Type} (sep : α) (pieces : List (List α)) : List α :=
  List.intercalate [sep] pieces

theorem splitOn_ne_nil {α : Type} [DecidableEq α] (sep : α) (cs : List α) :
    splitOn sep cs ≠ [] := by
  cases cs with
  | nil => simp [splitOn]
  | cons c cs =>
    rw [splitOn]
    split
    · simp
    · split <;> simp

end Text

end Recheck
