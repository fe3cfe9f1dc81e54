import Recheck.Json.Printer
import Recheck.Json.Reader
import Recheck.Proofs.Decimal

/-!
# Written values read back

What `Json.pretty` writes, `Json.parse?` reads (`parse?_pretty`), for values with integers as their
only numerals and nothing unreadable in them (`Writable`). A value is written as a text that tells
where it ends, except for a numeral, which must not be followed by more of one (`Ends`). The reader
needs no more fuel than there are characters.
-/

namespace Recheck.Json

/-! ## Strings -/

/-- An escaped control character. -/
theorem hex4?_control : ∀ n < 32,
    hex4? '0' '0' (Nat.digitChar (n / 16)) (Nat.digitChar (n % 16)) = some n := by
  decide

/-- A character with a short escape is read as one unit. -/
theorem units?_short {e c : Char} (hu : e ≠ 'u') (he : shortEscape? e = some c) (cs : List Char) :
    units? ('\\' :: e :: cs) = (units? cs).map fun r => (.char c :: r.1, r.2) := by
  rw [units?]
  · cases units? cs <;> simp [he]
  · exact fun _ _ _ _ _ heq => absurd heq hu

/-- A character that needs no escape is read as one unit. -/
theorem units?_plain {c : Char} (hquote : c ≠ '"') (hslash : c ≠ '\\') (hcontrol : ¬ c.toNat < 0x20)
    (cs : List Char) : units? (c :: cs) = (units? cs).map fun r => (.char c :: r.1, r.2) := by
  rw [units?]
  · cases units? cs <;> simp [hslash, hcontrol]
  all_goals simp [hquote, hslash]

/-- A control character without a short escape is read as one unit. -/
theorem units?_control {c : Char} (h : c.toNat < 0x20) (cs : List Char) :
    units? ('\\' :: 'u' :: '0' :: '0' :: Nat.digitChar (c.toNat / 16) ::
      Nat.digitChar (c.toNat % 16) :: cs) = (units? cs).map fun r => (.char c :: r.1, r.2) := by
  have hunit : unitOf c.toNat = .char c := by
    rw [unitOf, if_neg (by omega), Char.ofNat_toNat]
  rw [units?, hex4?_control c.toNat h]
  cases units? cs <;> simp [hunit]

/-- A written character is read as one unit. -/
theorem units?_escape (c : Char) (cs : List Char) :
    units? (escape c ++ cs) = (units? cs).map fun r => (.char c :: r.1, r.2) := by
  rw [escape]
  split
  · next h =>
    subst h
    exact units?_short (by decide) rfl cs
  split
  · next h =>
    subst h
    exact units?_short (by decide) rfl cs
  split
  · next h =>
    subst h
    exact units?_short (by decide) rfl cs
  split
  · next h =>
    subst h
    exact units?_short (by decide) rfl cs
  split
  · next h =>
    subst h
    exact units?_short (by decide) rfl cs
  split
  · next h =>
    obtain rfl : c = '\x08' := Char.toNat_inj.mp h
    exact units?_short (by decide) rfl cs
  split
  · next h =>
    obtain rfl : c = '\x0c' := Char.toNat_inj.mp h
    exact units?_short (by decide) rfl cs
  split
  · next h => exact units?_control h cs
  · next hquote hslash _ _ _ _ _ h => exact units?_plain hquote hslash h cs

theorem units?_quoted (cs rest : List Char) :
    units? (cs.flatMap escape ++ '"' :: rest) = some (cs.map .char, rest) := by
  induction cs with
  | nil => simp [units?]
  | cons c cs ih => rw [List.flatMap_cons, List.append_assoc, units?_escape, ih]; rfl

theorem textOf?_map_char (cs : List Char) : textOf? (cs.map .char) = some cs := by
  induction cs with
  | nil => rfl
  | cons c cs ih => rw [List.map_cons, textOf?, ih, Option.map_some]

/-! ## Numerals -/

/-- A text does not go on with a numeral. -/
def Ends (cs : List Char) : Prop :=
  ∀ c ∈ cs.head?, c.isDigit = false ∧ c ≠ '.' ∧ c ≠ 'e' ∧ c ≠ 'E'

theorem ends_cons {c : Char} (h : c.isDigit = false ∧ c ≠ '.' ∧ c ≠ 'e' ∧ c ≠ 'E')
    (cs : List Char) : Ends (c :: cs) := by
  intro c' hc'
  obtain rfl : c = c' := by simpa using hc'
  exact h

theorem isLeading_toDigits (n : Nat) :
    ((Nat.toDigits 10 n).isEmpty ||
      ((Nat.toDigits 10 n).head? == some '0' && decide ((Nat.toDigits 10 n).length > 1))) =
      false := by
  have hempty : (Nat.toDigits 10 n).isEmpty = false := by simp [Nat.toDigits_ne_nil]
  rw [hempty, Bool.false_or, Bool.and_eq_false_iff]
  rcases Nat.eq_zero_or_pos n with rfl | hpos
  · exact .inr rfl
  · exact .inl (beq_false_of_ne (Decimal.head?_toDigits_ne hpos))

theorem fraction?_of_ends {cs : List Char} (h : Ends cs) : fraction? cs = some (none, cs) := by
  rw [fraction?.eq_def]
  split
  · next rest => exact absurd rfl (h '.' rfl).2.1
  · rfl

theorem exponent?_of_ends {cs : List Char} (h : Ends cs) : exponent? cs = some (none, cs) := by
  cases cs with
  | nil => rfl
  | cons c cs =>
    obtain ⟨-, -, he, hE⟩ := h c rfl
    simp only [exponent?.eq_def, he, hE, or_self, if_false]

/-- The digits of a number after a sign, or none, are read as this number. -/
theorem number?_of_sign {cs rest : List Char} {negative : Bool} {n : Nat}
    (hsign : sign cs = (negative, Nat.toDigits 10 n ++ rest)) (h : Ends rest) :
    number? cs = some (.ofParts negative (Nat.toDigits 10 n) none none, rest) := by
  have hspan : Decimal.span (Nat.toDigits 10 n ++ rest) = (Nat.toDigits 10 n, rest) :=
    Decimal.span_append Decimal.isDigit_of_mem_toDigits fun c hc => (h c hc).1
  simp only [number?, hsign, hspan, isLeading_toDigits, fraction?_of_ends h, exponent?_of_ends h,
    Bool.false_eq_true, if_false]

theorem sign_of_isDigit {c : Char} (h : c.isDigit = true) (cs : List Char) :
    sign (c :: cs) = (false, c :: cs) := by
  rw [sign]
  rintro rest heq
  obtain rfl := (List.cons.inj heq).1
  cases h

/-- A written integer is read. -/
theorem number?_intText (n : Int) {rest : List Char} (h : Ends rest) :
    number? (intText n ++ rest) = some (.integer n, rest) := by
  rw [intText]
  split
  · next hneg =>
    rw [List.cons_append, number?_of_sign rfl h, Number.ofParts, Decimal.value_toDigits]
    have hzero : (n.natAbs == 0) = false := by simp; omega
    simp only [hzero, Bool.and_false, Bool.false_eq_true, if_false, if_true]
    rw [Int.ofNat_natAbs_of_nonpos (Int.le_of_lt hneg), Int.neg_neg]
  · next hneg =>
    have hsign : sign (Nat.toDigits 10 n.natAbs ++ rest) =
        (false, Nat.toDigits 10 n.natAbs ++ rest) := by
      obtain ⟨d, ds, hdigits, hd⟩ := Decimal.exists_cons_toDigits n.natAbs
      rw [hdigits]
      exact sign_of_isDigit hd _
    rw [number?_of_sign hsign h, Number.ofParts, Decimal.value_toDigits]
    simp only [Bool.false_and, Bool.false_eq_true, if_false]
    rw [Int.natAbs_of_nonneg (Int.not_lt.mp hneg)]

/-- The text of an integer starts with a digit or a minus sign. -/
theorem exists_cons_intText (n : Int) :
    ∃ c cs, intText n = c :: cs ∧ (c.isDigit = true ∨ c = '-') := by
  rw [intText]
  split
  · exact ⟨_, _, rfl, .inr rfl⟩
  · obtain ⟨d, ds, hdigits, hd⟩ := Decimal.exists_cons_toDigits n.natAbs
    exact ⟨d, ds, hdigits, .inl hd⟩

/-! ## Blanks -/

/-- A text starts with something other than a blank or a closing bracket or brace. -/
def Starts (cs : List Char) : Prop :=
  ∃ c cs', cs = c :: cs' ∧ isSpace c = false ∧ c ≠ ']' ∧ c ≠ '\x7d'

theorem Starts.append {cs : List Char} (h : Starts cs) (rest : List Char) :
    Starts (cs ++ rest) := by
  obtain ⟨c, cs', rfl, hc⟩ := h
  exact ⟨c, cs' ++ rest, rfl, hc⟩

theorem Starts.skipSpaces {cs : List Char} (h : Starts cs) : skipSpaces cs = cs := by
  obtain ⟨c, cs', rfl, hc, -⟩ := h
  exact List.dropWhile_cons_of_neg (by simp [hc])

theorem Starts.ne {cs : List Char} (h : Starts cs) {c : Char} (hc : c = ']' ∨ c = '\x7d')
    (rest : List Char) : cs ≠ c :: rest := by
  obtain ⟨c', cs', rfl, -, hbracket, hbrace⟩ := h
  rintro heq
  obtain rfl := (List.cons.inj heq).1
  exact hc.elim hbracket hbrace

theorem starts_number {c : Char} (h : c.isDigit = true ∨ c = '-') (cs : List Char) :
    Starts (c :: cs) := by
  have hne : ∀ {d : Char}, d.isDigit = false ∧ d ≠ '-' → c ≠ d := by
    rintro d ⟨hdigit, hminus⟩ rfl
    simp [hdigit, hminus] at h
  refine ⟨c, cs, rfl, ?_, hne (by decide), hne (by decide)⟩
  simp only [isSpace, Bool.or_eq_false_iff, beq_eq_false_iff_ne]
  exact ⟨⟨⟨hne (by decide), hne (by decide)⟩, hne (by decide)⟩, hne (by decide)⟩

theorem length_newLine (level : Nat) : (newLine level).length = 2 * level + 1 := by
  rw [newLine, List.length_cons, List.length_replicate]

theorem skipSpaces_newLine (level : Nat) (cs : List Char) :
    skipSpaces (newLine level ++ cs) = skipSpaces cs := by
  refine List.dropWhile_append_of_pos fun c hc => ?_
  rcases List.mem_cons.mp hc with rfl | hc
  · rfl
  · rw [List.eq_of_mem_replicate hc]
    rfl

/-- Blanks before a value do not count. -/
theorem value?_congr (fuel : Nat) {cs cs' : List Char} (h : skipSpaces cs = skipSpaces cs') :
    value? fuel cs = value? fuel cs' := by
  cases fuel with
  | zero => rw [value?, value?]
  | succ fuel => rw [value?, value?, h]

theorem items?_newLine (fuel level : Nat) (cs : List Char) :
    items? fuel (newLine level ++ cs) = items? fuel cs := by
  cases fuel with
  | zero => rw [items?, items?]
  | succ fuel => rw [items?, items?, value?_congr fuel (skipSpaces_newLine level cs)]

theorem members?_newLine (fuel level : Nat) (cs : List Char) :
    members? fuel (newLine level ++ cs) = members? fuel cs := by
  cases fuel with
  | zero => rw [members?, members?]
  | succ fuel => rw [members?, members?, skipSpaces_newLine]

/-! ## Values -/

/-- A value with integers as its only numerals and nothing unreadable in it. -/
inductive Writable : Json → Prop where
  | null : Writable null
  | bool (value : Bool) : Writable (bool value)
  | integer (n : Int) : Writable (number (.integer n))
  | string (text : String) : Writable (string text)
  | array {items : List Json} (h : ∀ item ∈ items, Writable item) : Writable (array items)
  | object {members : List (String × Json)} (h : ∀ m ∈ members, Writable m.2) :
    Writable (object members)

theorem starts_prettyChars {j : Json} (h : Writable j) (level : Nat) :
    Starts (prettyChars level j) := by
  cases h with
  | null => exact ⟨_, _, rfl, by decide⟩
  | bool value => cases value <;> exact ⟨_, _, rfl, by decide⟩
  | integer n =>
    obtain ⟨c, cs, hcs, hc⟩ := exists_cons_intText n
    rw [prettyChars, Number.chars, hcs]
    exact starts_number hc cs
  | string text => rw [prettyChars]; exact ⟨_, _, rfl, by decide⟩
  | @array items _ => cases items <;> (rw [prettyChars]; exact ⟨_, _, rfl, by decide⟩)
  | @object members _ =>
    cases members <;> (rw [prettyChars]; exact ⟨_, _, rfl, by decide⟩)

/-- What is written of a value is read as this value, with as much fuel as it has characters. -/
def ReadsBack (j : Json) : Prop :=
  ∀ level fuel rest, Ends rest → (prettyChars level j).length ≤ fuel →
    value? fuel (prettyChars level j ++ rest) = some (j, rest)

theorem ends_prettyItems (level : Nat) (items : List Json) (rest : List Char) :
    Ends (prettyItems level items ++ rest) := by
  cases items <;> (rw [prettyItems]; exact ends_cons (by decide) _)

theorem ends_prettyMembers (level : Nat) (members : List (String × Json)) (rest : List Char) :
    Ends (prettyMembers level members ++ rest) := by
  rcases members with _ | ⟨⟨name, value⟩, members⟩ <;>
    (rw [prettyMembers]; exact ends_cons (by decide) _)

/-! ### Reading one kind of value -/

theorem value?_number (fuel : Nat) {c : Char} (h : c.isDigit = true ∨ c = '-') (cs : List Char) :
    value? (fuel + 1) (c :: cs) = (number? (c :: cs)).map fun r => (number r.1, r.2) := by
  rw [value?, (starts_number h cs).skipSpaces]
  split
  all_goals try (next heq => obtain ⟨rfl, -⟩ := List.cons.inj heq; simp at h)
  cases number? (c :: cs) <;> rfl

theorem value?_quote (fuel : Nat) (s : String) (rest : List Char) :
    value? (fuel + 1) (quote s ++ rest) = some (string s, rest) := by
  rw [value?, show skipSpaces (quote s ++ rest) = quote s ++ rest from rfl, quote]
  simp only [List.cons_append, List.append_assoc, List.nil_append, units?_quoted, textOf?_map_char,
    String.ofList_toList]

theorem value?_bracket (fuel : Nat) {cs : List Char} (h : ∀ rest, skipSpaces cs ≠ ']' :: rest) :
    value? (fuel + 1) ('[' :: cs) =
      (items? fuel (skipSpaces cs)).map fun r => (array r.1, r.2) := by
  rw [value?, show skipSpaces ('[' :: cs) = '[' :: cs from rfl]
  simp only
  cases items? fuel (skipSpaces cs) <;> rfl

theorem value?_brace (fuel : Nat) {cs : List Char} (h : ∀ rest, skipSpaces cs ≠ '\x7d' :: rest) :
    value? (fuel + 1) ('\x7b' :: cs) =
      (members? fuel (skipSpaces cs)).map fun r => (objectOf r.1, r.2) := by
  rw [value?, show skipSpaces ('\x7b' :: cs) = '\x7b' :: cs from rfl]
  simp only
  cases members? fuel (skipSpaces cs) <;> rfl

theorem items?_prettyItems (level : Nat) (rest : List Char) {items : List Json} :
    ∀ (item : Json) (fuel : Nat), (∀ x ∈ item :: items, ReadsBack x) →
      (prettyChars (level + 1) item ++ prettyItems level items).length < fuel →
      items? fuel (prettyChars (level + 1) item ++ (prettyItems level items ++ rest)) =
        some (item :: items, rest) := by
  induction items with
  | nil =>
    intro item fuel h hfuel
    obtain ⟨fuel, rfl⟩ := Nat.exists_eq_succ_of_ne_zero (Nat.ne_zero_of_lt hfuel)
    rw [List.length_append] at hfuel
    rw [Nat.succ_eq_add_one, items?, h item List.mem_cons_self (level + 1) fuel _
      (ends_prettyItems level [] rest) (by omega), prettyItems]
    simp only [List.append_assoc, skipSpaces_newLine]
    rfl
  | cons next items ih =>
    intro item fuel h hfuel
    obtain ⟨fuel, rfl⟩ := Nat.exists_eq_succ_of_ne_zero (Nat.ne_zero_of_lt hfuel)
    rw [prettyItems] at hfuel ⊢
    simp only [List.length_append, List.length_cons, List.cons_append, List.append_assoc] at hfuel ⊢
    rw [Nat.succ_eq_add_one, items?, h item List.mem_cons_self (level + 1) fuel _
      (ends_cons (by decide) _) (by omega)]
    have hnext := ih next fuel (fun x hx => h x (List.mem_cons_of_mem item hx))
      (by rw [List.length_append]; omega)
    rw [← items?_newLine fuel (level + 1)] at hnext
    simp only [show ∀ cs, skipSpaces (',' :: cs) = ',' :: cs from fun _ => rfl, hnext]

/-- A name as it is read. -/
def readName (m : String × Json) : Option (List Char) × Json := (some m.1.toList, m.2)

theorem objectOf_readName (members : List (String × Json)) :
    objectOf (members.map readName) = object members := by
  have hnames : (members.map readName).mapM
      (fun (m : Option (List Char) × Json) => m.1.map fun cs => (String.ofList cs, m.2)) =
        some members := by
    induction members with
    | nil => rfl
    | cons m members ih =>
      rw [List.map_cons, List.mapM_cons, ih]
      simp [readName]
  rw [objectOf, hnames]

/-- A member is read, and what follows it decides how to go on. -/
theorem members?_member {fuel level : Nat} (name : String) {value : Json} {rest : List Char}
    (h : ReadsBack value) (hrest : Ends rest) (hfuel : (prettyChars level value).length ≤ fuel) :
    members? (fuel + 1) (quote name ++ (": ".toList ++ (prettyChars level value ++ rest))) =
      match skipSpaces rest with
      | '\x7d' :: rest => some ([readName (name, value)], rest)
      | ',' :: rest =>
        match members? fuel rest with
        | some (members, rest) => some (readName (name, value) :: members, rest)
        | none => none
      | _ => none := by
  have hvalue : value? fuel (' ' :: (prettyChars level value ++ rest)) = some (value, rest) := by
    rw [← h level fuel rest hrest hfuel]
    exact value?_congr fuel rfl
  rw [members?, quote]
  simp only [show ∀ cs, skipSpaces ('"' :: cs) = '"' :: cs from fun _ => rfl, List.cons_append,
    List.append_assoc, List.nil_append, units?_quoted]
  rw [show ∀ cs, skipSpaces (": ".toList ++ cs) = ':' :: ' ' :: cs from fun _ => rfl]
  simp only [hvalue, textOf?_map_char]
  rfl

/-- The members of an object are read to its end. -/
theorem members?_prettyMembers (level : Nat) (rest : List Char) {members : List (String × Json)} :
    ∀ (name : String) (value : Json) (fuel : Nat),
      (∀ m ∈ (name, value) :: members, ReadsBack m.2) →
      (prettyChars (level + 1) value ++ prettyMembers level members).length < fuel →
      members? fuel (quote name ++ (": ".toList ++ (prettyChars (level + 1) value ++
        (prettyMembers level members ++ rest)))) =
          some (((name, value) :: members).map readName, rest) := by
  induction members with
  | nil =>
    intro name value fuel h hfuel
    obtain ⟨fuel, rfl⟩ := Nat.exists_eq_succ_of_ne_zero (Nat.ne_zero_of_lt hfuel)
    have hvalue : ReadsBack value := h (name, value) List.mem_cons_self
    rw [List.length_append] at hfuel
    rw [Nat.succ_eq_add_one, members?_member name hvalue (ends_prettyMembers level [] rest)
      (by omega), prettyMembers, List.append_assoc, skipSpaces_newLine]
    rfl
  | cons next members ih =>
    intro name value fuel h hfuel
    obtain ⟨fuel, rfl⟩ := Nat.exists_eq_succ_of_ne_zero (Nat.ne_zero_of_lt hfuel)
    have hvalue : ReadsBack value := h (name, value) List.mem_cons_self
    rw [List.length_append] at hfuel
    rw [Nat.succ_eq_add_one, members?_member name hvalue (ends_prettyMembers level _ rest)
      (by omega)]
    rw [prettyMembers] at hfuel ⊢
    simp only [List.length_append, List.length_cons, List.cons_append, List.append_assoc] at hfuel ⊢
    have hnext := ih next.1 next.2 fuel (fun m hm => h m (List.mem_cons_of_mem _ hm))
      (by rw [List.length_append]; omega)
    rw [← members?_newLine fuel (level + 1)] at hnext
    simp only [show ∀ cs, skipSpaces (',' :: cs) = ',' :: cs from fun _ => rfl, hnext]
    rfl

/-- Every writable value reads back. -/
theorem readsBack {j : Json} (h : Writable j) : ReadsBack j := by
  induction h with
  | null =>
    rintro level (_ | fuel) rest - hfuel
    · simp [prettyChars] at hfuel
    · rw [prettyChars, value?]
      rfl
  | bool value =>
    rintro level (_ | fuel) rest - hfuel
    · cases value <;> simp [prettyChars] at hfuel
    · cases value <;> (rw [prettyChars, value?]; rfl)
  | integer n =>
    intro level fuel rest hrest hfuel
    have hread := number?_intText n hrest
    obtain ⟨c, cs, hcs, hc⟩ := exists_cons_intText n
    rw [prettyChars, Number.chars, hcs] at hfuel ⊢
    rw [hcs] at hread
    obtain ⟨fuel, rfl⟩ := Nat.exists_eq_succ_of_ne_zero (Nat.ne_zero_of_lt hfuel)
    rw [List.cons_append, Nat.succ_eq_add_one, value?_number fuel hc, ← List.cons_append, hread]
    rfl
  | string text =>
    rintro level (_ | fuel) rest - hfuel
    · simp [prettyChars, quote] at hfuel
    · rw [prettyChars, value?_quote]
  | @array items hitems ih =>
    intro level fuel rest hrest hfuel
    cases items with
    | nil =>
      obtain ⟨fuel, rfl⟩ := Nat.exists_eq_succ_of_ne_zero (Nat.ne_zero_of_lt hfuel)
      rw [prettyChars, Nat.succ_eq_add_one, value?]
      rfl
    | cons item items =>
      obtain ⟨fuel, rfl⟩ := Nat.exists_eq_succ_of_ne_zero (Nat.ne_zero_of_lt hfuel)
      rw [prettyChars] at hfuel ⊢
      simp only [List.length_append, List.length_cons, List.cons_append, List.append_assoc]
        at hfuel ⊢
      have hstarts := (starts_prettyChars (hitems item List.mem_cons_self) (level + 1)).append
        (prettyItems level items ++ rest)
      have hskip := (skipSpaces_newLine (level + 1) _).trans hstarts.skipSpaces
      have hbracket := fun rest' => hskip ▸ hstarts.ne (.inl rfl) rest'
      have hnewLine := length_newLine (level + 1)
      have hread := items?_prettyItems level rest item fuel ih (by rw [List.length_append]; omega)
      rw [Nat.succ_eq_add_one, value?_bracket fuel hbracket, hskip, hread]
      rfl
  | @object members hmembers ih =>
    intro level fuel rest hrest hfuel
    cases members with
    | nil =>
      obtain ⟨fuel, rfl⟩ := Nat.exists_eq_succ_of_ne_zero (Nat.ne_zero_of_lt hfuel)
      rw [prettyChars, Nat.succ_eq_add_one, value?]
      rfl
    | cons m members =>
      obtain ⟨fuel, rfl⟩ := Nat.exists_eq_succ_of_ne_zero (Nat.ne_zero_of_lt hfuel)
      rw [prettyChars] at hfuel ⊢
      simp only [List.length_append, List.length_cons, List.cons_append, List.append_assoc]
        at hfuel ⊢
      have hstarts : Starts (quote m.1 ++ (": ".toList ++ (prettyChars (level + 1) m.2 ++
          (prettyMembers level members ++ rest)))) := ⟨_, _, rfl, by decide⟩
      have hskip := (skipSpaces_newLine (level + 1) _).trans hstarts.skipSpaces
      have hbrace := fun rest' => hskip ▸ hstarts.ne (.inr rfl) rest'
      have hnewLine := length_newLine (level + 1)
      have hread := members?_prettyMembers level rest m.1 m.2 fuel ih
        (by rw [List.length_append]; omega)
      rw [Nat.succ_eq_add_one, value?_brace fuel hbrace, hskip, hread]
      exact congrArg (fun j => some (j, rest)) (objectOf_readName (m :: members))

/-- The text of a writable value is read as this value. -/
theorem parse?_pretty {j : Json} (h : Writable j) : parse? j.pretty = some j := by
  have hread := readsBack h 0 (2 * (prettyChars 0 j).length + 2) [] (by simp [Ends]) (by omega)
  rw [List.append_nil] at hread
  rw [parse?, pretty, String.toList_ofList, hread]
  rfl

end Recheck.Json
