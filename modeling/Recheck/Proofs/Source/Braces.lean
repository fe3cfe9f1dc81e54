import Mathlib.Data.List.Basic
import Mathlib.Data.Nat.PSub
import Recheck.Source.Scan

/-!
# Matching braces

The braces of a text match if they form a balanced word (`Balanced`). A source can be scanned
exactly if the braces of its mask do (`exists_scan_iff`): what counts for the scan is how many
braces are open (`foldlM_pass`), and none is open at the end exactly if the braces form a balanced
word (`balanced_braces_iff`).
-/

namespace Recheck

namespace Source

/-- The words of braces in which each opening brace has its own closing one. -/
inductive Balanced : List Char → Prop where
  | nil : Balanced []
  | nest {inner rest : List Char} (hinner : Balanced inner) (hrest : Balanced rest) :
    Balanced ('\x7b' :: inner ++ '\x7d' :: rest)

/-- The braces of a text. -/
def braces (text : List Char) : List Char := text.filter fun c => c = '\x7b' || c = '\x7d'

/-! ## Open braces -/

/-- The number of open braces after a character, unless it closes one that is not open. -/
def openAfter (n : Nat) (c : Char) : Option Nat :=
  if c = '\x7b' then some (n + 1) else if c = '\x7d' then n.ppred else some n

theorem openAfter_of_ne {c : Char} (hopen : c ≠ '\x7b') (hclose : c ≠ '\x7d') (n : Nat) :
    openAfter n c = some n := by
  rw [openAfter, if_neg hopen, if_neg hclose]

/-- Characters that are no braces can be left out. -/
theorem foldlM_openAfter_filter {keep : Char → Bool}
    (hkeep : ∀ c, keep c = false → c ≠ '\x7b' ∧ c ≠ '\x7d') (text : List Char) (n : Nat) :
    (text.filter keep).foldlM openAfter n = text.foldlM openAfter n := by
  induction text generalizing n with
  | nil => rfl
  | cons c text ih =>
    cases hc : keep c with
    | true =>
      rw [List.filter_cons_of_pos hc, List.foldlM_cons, List.foldlM_cons]
      exact congrArg _ (funext ih)
    | false =>
      obtain ⟨hopen, hclose⟩ := hkeep c hc
      rw [List.filter_cons_of_neg (by simp [hc]), ih, List.foldlM_cons,
        openAfter_of_ne hopen hclose, Option.bind_eq_bind, Option.bind_some]

/-- A balanced word leaves the open braces as they are. -/
theorem Balanced.foldlM_openAfter {word : List Char} (h : Balanced word) (n : Nat) :
    word.foldlM openAfter n = some n := by
  induction h generalizing n with
  | nil => rfl
  | @nest inner rest _ _ hinner hrest =>
    have hopen : openAfter n '\x7b' = some (n + 1) := rfl
    have hclose : openAfter (n + 1) '\x7d' = some n := rfl
    simp only [List.cons_append, List.foldlM_cons, List.foldlM_append, Option.bind_eq_bind, hopen,
      Option.bind_some, hinner, hclose, hrest]

/-- The words that close `n` open braces and leave none: balanced words with `n` closing braces
between them. -/
def Closes : Nat → List Char → Prop
  | 0, word => Balanced word
  | n + 1, word =>
    ∃ inner rest, word = inner ++ '\x7d' :: rest ∧ Balanced inner ∧ Closes n rest

theorem closes_nest {n : Nat} {inner rest : List Char} (hinner : Balanced inner)
    (hrest : Closes n rest) : Closes n ('\x7b' :: inner ++ '\x7d' :: rest) := by
  cases n with
  | zero => exact Balanced.nest hinner hrest
  | succ n =>
    obtain ⟨inner', rest', rfl, hinner', hrest'⟩ := hrest
    exact ⟨'\x7b' :: inner ++ '\x7d' :: inner', rest', by simp, .nest hinner hinner', hrest'⟩

theorem closes_of_foldlM_openAfter {text : List Char} {n : Nat}
    (h : text.foldlM openAfter n = some 0) : Closes n (braces text) := by
  induction text generalizing n with
  | nil =>
    obtain rfl : n = 0 := Option.some.inj h
    exact Balanced.nil
  | cons c text ih =>
    rw [List.foldlM_cons, Option.bind_eq_bind] at h
    obtain ⟨m, hm, h⟩ := Option.bind_eq_some_iff.mp h
    have hrest := ih h
    by_cases hopen : c = '\x7b'
    · subst hopen
      obtain rfl : n + 1 = m := Option.some.inj hm
      obtain ⟨inner, rest, heq, hinner, hrest⟩ := hrest
      rw [braces, List.filter_cons_of_pos rfl, ← braces, heq]
      exact closes_nest hinner hrest
    · by_cases hclose : c = '\x7d'
      · subst hclose
        obtain rfl : m + 1 = n := Nat.ppred_eq_some.mp hm
        rw [braces, List.filter_cons_of_pos rfl, ← braces]
        exact ⟨[], _, rfl, .nil, hrest⟩
      · rw [openAfter_of_ne hopen hclose] at hm
        obtain rfl := Option.some.inj hm
        rwa [braces, List.filter_cons_of_neg (by simp [hopen, hclose]), ← braces]

/-- The braces of a text form a balanced word exactly if none is open at its end. -/
theorem balanced_braces_iff {text : List Char} :
    Balanced (braces text) ↔ text.foldlM openAfter 0 = some 0 := by
  have hkeep : ∀ c : Char, (decide (c = '\x7b') || decide (c = '\x7d')) = false →
      c ≠ '\x7b' ∧ c ≠ '\x7d' := by simp
  constructor
  · intro h
    rw [← foldlM_openAfter_filter hkeep]
    exact h.foldlM_openAfter 0
  · exact closes_of_foldlM_openAfter

/-! ## The scan -/

/-- The character that a mark is. -/
def Mark.char : Mark → Char
  | openBrace => '\x7b'
  | closeBrace => '\x7d'
  | semicolon => ';'

theorem Mark.char_of_ofChar? {c : Char} {mark : Mark} (h : ofChar? c = some mark) :
    mark.char = c := by
  rw [ofChar?] at h
  split at h
  · next hc =>
    obtain rfl := Option.some.inj h
    exact hc.symm
  · split at h
    · next hc =>
      obtain rfl := Option.some.inj h
      exact hc.symm
    · split at h
      · next hc =>
        obtain rfl := Option.some.inj h
        exact hc.symm
      · cases h

/-- The marks that end the segments of a text are those in it. -/
theorem map_char_segments (text : List Char) :
    (segments text).1.map (·.2.char) = text.filter fun c => (Mark.ofChar? c).isSome := by
  induction text with
  | nil => rfl
  | cons c text ih =>
    rw [segments, List.filter_cons, ← ih]
    cases hc : Mark.ofChar? c with
    | some mark =>
      simp only [Option.isSome_some, if_true, List.map_cons, Mark.char_of_ofChar? hc]
    | none => rcases segments text with ⟨_ | ⟨piece, pieces⟩, tail⟩ <;> rfl

/-- The marks of the segments open and close braces as the text does. -/
theorem foldlM_openAfter_segments (text : List Char) (n : Nat) :
    ((segments text).1.map (·.2.char)).foldlM openAfter n = text.foldlM openAfter n := by
  rw [map_char_segments]
  refine foldlM_openAfter_filter (fun c hc => ⟨?_, ?_⟩) text n <;> rintro rfl <;> cases hc

theorem Balanced.foldlM_segments {text : List Char} (h : Balanced (braces text)) :
    ((segments text).1.map (·.2.char)).foldlM openAfter 0 = some 0 := by
  rw [foldlM_openAfter_segments]
  exact balanced_braces_iff.mp h

/-- Passing a segment opens or closes the brace that ends it. -/
theorem braces_pass (file : Path) (s : ScanState) (piece : List Char × Mark) :
    (s.pass file piece).toOption.map (·.braces.length) =
      openAfter s.braces.length piece.2.char := by
  obtain ⟨segment, mark⟩ := piece
  obtain ⟨declarations, current, braces, newlines⟩ := s
  cases mark <;> rcases braces with _ | ⟨line, _ | ⟨outer, braces⟩⟩ <;> rfl

theorem foldlM_pass (file : Path) (pieces : List (List Char × Mark)) (s : ScanState) :
    (pieces.foldlM (ScanState.pass file) s).toOption.map (·.braces.length) =
      (pieces.map (·.2.char)).foldlM openAfter s.braces.length := by
  induction pieces generalizing s with
  | nil => rfl
  | cons piece pieces ih =>
    have hpass := braces_pass file s piece
    rw [List.foldlM_cons, List.map_cons, List.foldlM_cons, ← hpass]
    cases s.pass file piece with
    | error fault => rfl
    | ok next => exact ih next

/-- A source can be scanned exactly if the braces of its mask form a balanced word. -/
theorem exists_scan_iff {file : Path} {source : List Char} :
    (∃ declarations, scan file source = .ok declarations) ↔ Balanced (braces (mask source)) := by
  have hopen : ((segments (mask source)).1.foldlM (ScanState.pass file) {}).toOption.map
      (·.braces.length) = (mask source).foldlM openAfter 0 :=
    (foldlM_pass file _ {}).trans (foldlM_openAfter_segments (mask source) 0)
  rw [balanced_braces_iff, ← hopen, scan]
  cases (segments (mask source)).1.foldlM (ScanState.pass file) {} with
  | error fault => simp [Except.toOption]
  | ok s =>
    obtain ⟨declarations, current, braces, newlines⟩ := s
    cases braces <;> simp [Except.toOption]

end Source

end Recheck
