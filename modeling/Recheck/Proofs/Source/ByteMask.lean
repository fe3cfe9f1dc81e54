import Mathlib.Data.Nat.PSub
import Recheck.Proofs.Source.Lexemes

/-!
# Masking bytes

The masker need not know where a character of more than one byte ends. It can pass the bytes of a
source one by one (`maskBytesFrom?`): the characters that it looks for have one byte each, and no
byte of a longer character is one of theirs. It counts the block comments that are open, and it
would stop if it had to close one where none is.

It never does, and it writes the bytes of the mask (`maskBytes?_encode`). Only a backslash parts the
bytes of a character, when it takes the first of them with it; the others are hidden after it.
-/

namespace Recheck

namespace Source

/-! ## The masker of bytes -/

/-- What a byte of a source lies in. -/
inductive ByteRegion where
  | code
  | lineComment
  /-- Block comments, and how many of them are open. -/
  | blockComment (nesting : Nat)
  | literal (quote : UInt8)
  | tripleLiteral (quote : UInt8)

/-- How the masker passes the byte at the head of a text. -/
structure ByteMove where
  /-- How many bytes are passed with it. -/
  more : Nat
  /-- Whether spaces are written instead. -/
  hidden : Bool
  /-- The region after them. -/
  region : ByteRegion

/-- The move of the masker at the bytes `b :: bytes`, unless it would have to close a comment that
is not open. -/
def ByteRegion.move? : ByteRegion → UInt8 → List UInt8 → Option ByteMove
  | .code, b, bytes =>
    some
      (if b = '/'.toUInt8 ∧ ['/'.toUInt8] <+: bytes then ⟨1, true, .lineComment⟩
      else if b = '/'.toUInt8 ∧ ['*'.toUInt8] <+: bytes then ⟨1, true, .blockComment 1⟩
      else if b = '\''.toUInt8 ∨ b = '"'.toUInt8 then
        if [b, b] <+: bytes then ⟨2, false, .tripleLiteral b⟩ else ⟨0, false, .literal b⟩
      else ⟨0, false, .code⟩)
  | .lineComment, b, _ => some ⟨0, true, if b = '\n'.toUInt8 then .code else .lineComment⟩
  | .blockComment nesting, b, bytes =>
    if b = '/'.toUInt8 ∧ ['*'.toUInt8] <+: bytes then some ⟨1, true, .blockComment (nesting + 1)⟩
    else if b = '*'.toUInt8 ∧ ['/'.toUInt8] <+: bytes then
      nesting.ppred.map fun left => ⟨1, true, if left = 0 then .code else .blockComment left⟩
    else some ⟨0, true, .blockComment nesting⟩
  | .literal q, b, _ =>
    some
      (if b = q ∨ b = '\n'.toUInt8 then ⟨0, false, .code⟩
      else if b = '\\'.toUInt8 then ⟨1, true, .literal q⟩
      else ⟨0, true, .literal q⟩)
  | .tripleLiteral q, b, bytes =>
    some
      (if b = '\\'.toUInt8 then ⟨1, true, .tripleLiteral q⟩
      else if b = q ∧ [q, q] <+: bytes then ⟨2, false, .code⟩
      else ⟨0, true, .tripleLiteral q⟩)

/-- The bytes that are written for those that a move passes. -/
def ByteMove.written (m : ByteMove) (bytes : List UInt8) : List UInt8 :=
  if m.hidden then bytes.map hideByte else bytes

/-- The masked form of bytes from a region on. -/
def maskBytesFrom? : ByteRegion → List UInt8 → Option (List UInt8)
  | _, [] => some []
  | r, b :: bytes =>
    (r.move? b bytes).bind fun m =>
      (maskBytesFrom? m.region (bytes.drop m.more)).map
        (m.written (b :: bytes.take m.more) ++ ·)
termination_by _ bytes => bytes.length
decreasing_by
  rw [List.length_drop, List.length_cons]
  omega

/-- The masked form of the bytes of a source. -/
def maskBytes? (bytes : List UInt8) : Option (List UInt8) := maskBytesFrom? .code bytes

/-! ## Bytes of characters -/

/-- A character of one byte. -/
def IsAscii (c : Char) : Prop := c.toNat < 0x80

instance (c : Char) : Decidable (IsAscii c) := inferInstanceAs (Decidable (c.toNat < 0x80))

variable {b : UInt8} {c d : Char} {cs : List Char}

theorem toNat_toUInt8 (h : IsAscii c) : c.toUInt8.toNat = c.toNat :=
  Nat.mod_eq_of_lt (Nat.lt_trans h (by decide))

theorem toUInt8_eq_iff (hc : IsAscii c) (hd : IsAscii d) : c.toUInt8 = d.toUInt8 ↔ c = d := by
  rw [← UInt8.toNat_inj, toNat_toUInt8 hc, toNat_toUInt8 hd, Char.toNat_inj]

theorem ne_toUInt8 (hb : 0x80 ≤ b.toNat) (hd : IsAscii d) : b ≠ d.toUInt8 := by
  rintro rfl
  rw [toNat_toUInt8 hd] at hb
  exact absurd hd (Nat.not_lt.mpr hb)

theorem encode_cons_of_isAscii (hc : IsAscii c) (cs : List Char) :
    encode (c :: cs) = c.toUInt8 :: encode cs := by
  have hc' : c.val.toNat ≤ 0x7f := Nat.le_of_lt_succ hc
  rw [encode_cons, String.utf8EncodeChar]
  simp only [if_pos hc']
  rfl

theorem le_of_mem_encodeChar (hc : ¬ IsAscii c) : ∀ b ∈ String.utf8EncodeChar c, 0x80 ≤ b.toNat :=
  fun _ hb => Text.le_of_mem_utf8EncodeChar (fun h => hc (Nat.lt_succ_of_le h)) hb

/-- Characters of one byte are found among the bytes where they are found in the text. -/
theorem map_prefix_encode {ds : List Char} (h : ∀ d ∈ ds, IsAscii d) (cs : List Char) :
    ds.map Char.toUInt8 <+: encode cs ↔ ds <+: cs := by
  induction ds generalizing cs with
  | nil => simp
  | cons d ds ih =>
    rw [List.forall_mem_cons] at h
    cases cs with
    | nil => simp [encode]
    | cons c cs =>
      by_cases hc : IsAscii c
      · rw [encode_cons_of_isAscii hc, List.map_cons, List.cons_prefix_cons, List.cons_prefix_cons,
          ih h.2, toUInt8_eq_iff h.1 hc]
      · have hne : d ≠ c := fun heq => hc (heq ▸ h.1)
        obtain ⟨b, bytes, hbytes⟩ := List.exists_cons_of_ne_nil (@String.utf8EncodeChar_ne_nil c)
        have hb : 0x80 ≤ b.toNat := le_of_mem_encodeChar hc b (by simp [hbytes])
        rw [encode_cons, hbytes, List.cons_append, List.map_cons, List.cons_prefix_cons,
          List.cons_prefix_cons]
        simp [hne, (ne_toUInt8 hb h.1).symm]

/-- The bytes of a text are read as that text. -/
theorem ofBytes?_encode (text : List Char) :
    Text.ofBytes? (encode text) = some (String.ofList text) := by
  have hbytes : encode text = Text.bytes (String.ofList text) := by
    rw [Text.bytes_eq_flatMap, String.toList_ofList, encode]
  rw [hbytes, Text.ofBytes?_bytes]

/-! ## Moves -/

/-- The region for the masker of bytes. -/
def Region.toBytes : Region → ByteRegion
  | .code => .code
  | .lineComment => .lineComment
  | .blockComment outer => .blockComment (outer + 1)
  | .literal q => .literal q.toUInt8
  | .tripleLiteral q => .tripleLiteral q.toUInt8

/-- The move for the masker of bytes. -/
def Move.toBytes (m : Move) : ByteMove := ⟨m.more, m.hidden, m.region.toBytes⟩

/-- Whether the region is hidden. -/
def Region.hides : Region → Bool
  | .code => false
  | _ => true

variable {r : Region}

theorem isAscii_of_isQuote (h : isQuote c) : IsAscii c := by
  rw [isQuote, Bool.or_eq_true, beq_iff_eq, beq_iff_eq] at h
  rcases h with rfl | rfl <;> decide

/-- At a character of one byte, both maskers make the same move. -/
theorem move?_of_isAscii (hr : r.Proper) (hc : IsAscii c) (cs : List Char) :
    r.toBytes.move? c.toUInt8 (encode cs) = some (r.move c cs).toBytes := by
  have heq : ∀ d, IsAscii d → (c.toUInt8 = d.toUInt8 ↔ c = d) := fun d hd => toUInt8_eq_iff hc hd
  have hone : ∀ d, IsAscii d → ([d.toUInt8] <+: encode cs ↔ [d] <+: cs) := fun d hd =>
    map_prefix_encode (List.forall_mem_singleton.mpr hd) cs
  have htwo : ∀ d, IsAscii d → ([d.toUInt8, d.toUInt8] <+: encode cs ↔ [d, d] <+: cs) :=
    fun d hd => @map_prefix_encode [d, d] (by simp [hd]) cs
  have hslash := heq '/' (by decide)
  have hstar := heq '*' (by decide)
  have hline := heq '\n' (by decide)
  have hescape := heq '\\' (by decide)
  cases r with
  | code =>
    have hquote : c.toUInt8 = '\''.toUInt8 ∨ c.toUInt8 = '"'.toUInt8 ↔ isQuote c := by
      rw [heq '\'' (by decide), heq '"' (by decide), isQuote, Bool.or_eq_true, beq_iff_eq,
        beq_iff_eq]
    simp only [Region.toBytes, ByteRegion.move?, Region.move, hslash, hone '/' (by decide),
      hone '*' (by decide), hquote, htwo c hc]
    split_ifs <;> rfl
  | lineComment =>
    simp only [Region.toBytes, ByteRegion.move?, Region.move, hline]
    split_ifs <;> rfl
  | blockComment outer =>
    simp only [Region.toBytes, ByteRegion.move?, Region.move, hslash, hstar, hone '/' (by decide),
      hone '*' (by decide), Nat.ppred_succ, Option.map_some]
    cases outer with
    | zero =>
      simp only [eq_self, if_true]
      split_ifs <;> rfl
    | succ outer => split_ifs <;> rfl
  | literal q =>
    simp only [Region.toBytes, ByteRegion.move?, Region.move, heq q (isAscii_of_isQuote hr), hline,
      hescape]
    split_ifs <;> rfl
  | tripleLiteral q =>
    simp only [Region.toBytes, ByteRegion.move?, Region.move, heq q (isAscii_of_isQuote hr),
      htwo q (isAscii_of_isQuote hr), hescape]
    split_ifs <;> rfl

/-- A byte of a longer character is passed alone. -/
theorem move?_of_le (hr : r.Proper) (hb : 0x80 ≤ b.toNat) (bytes : List UInt8) :
    r.toBytes.move? b bytes = some ⟨0, r.hides, r.toBytes⟩ := by
  have hne : ∀ d, IsAscii d → b ≠ d.toUInt8 := fun d hd => ne_toUInt8 hb hd
  have hslash := hne '/' (by decide)
  have hstar := hne '*' (by decide)
  have hline := hne '\n' (by decide)
  have hescape := hne '\\' (by decide)
  cases r with
  | code =>
    simp [Region.toBytes, ByteRegion.move?, Region.hides, hslash, hne '\'' (by decide),
      hne '"' (by decide)]
  | lineComment => simp [Region.toBytes, ByteRegion.move?, Region.hides, hline]
  | blockComment outer => simp [Region.toBytes, ByteRegion.move?, Region.hides, hslash, hstar]
  | literal q =>
    simp [Region.toBytes, ByteRegion.move?, Region.hides, hne q (isAscii_of_isQuote hr), hline,
      hescape]
  | tripleLiteral q =>
    simp [Region.toBytes, ByteRegion.move?, Region.hides, hne q (isAscii_of_isQuote hr), hescape]

/-- A character of more than one byte is passed alone. -/
theorem move_of_not_isAscii (hr : r.Proper) (hc : ¬ IsAscii c) (cs : List Char) :
    r.move c cs = ⟨0, r.hides, r⟩ := by
  have hne : ∀ d, IsAscii d → c ≠ d := fun d hd heq => hc (heq ▸ hd)
  have hslash := hne '/' (by decide)
  have hstar := hne '*' (by decide)
  have hline := hne '\n' (by decide)
  have hescape := hne '\\' (by decide)
  cases r with
  | code =>
    have hquote : ¬ isQuote c := fun h => hc (isAscii_of_isQuote h)
    simp [Region.move, Region.hides, hslash, hquote]
  | lineComment => simp [Region.move, Region.hides, hline]
  | blockComment outer => simp [Region.move, Region.hides, hslash, hstar]
  | literal q => simp [Region.move, Region.hides, hne q (isAscii_of_isQuote hr), hline, hescape]
  | tripleLiteral q =>
    simp [Region.move, Region.hides, hne q (isAscii_of_isQuote hr), hescape]

/-- A move passes only characters of one byte with the first, save behind a backslash. -/
theorem move_passes (hr : r.Proper) (c : Char) (cs : List Char) :
    (∀ d ∈ cs.take (r.move c cs).more, IsAscii d) ∨
      ∃ d rest, cs = d :: rest ∧ ¬ IsAscii d ∧ r.move c cs = ⟨1, true, r⟩ ∧ r.hides = true := by
  have hword : ∀ {ds : List Char}, (∀ d ∈ ds, IsAscii d) → ds <+: cs →
      ∀ d ∈ cs.take ds.length, IsAscii d := by
    rintro ds hds ⟨rest, rfl⟩
    rwa [List.take_left]
  have hone : (∀ d ∈ cs.take 1, IsAscii d) ∨ ∃ d rest, cs = d :: rest ∧ ¬ IsAscii d := by
    cases cs with
    | nil => exact .inl (by simp)
    | cons d rest =>
      by_cases hd : IsAscii d
      · exact .inl (List.forall_mem_singleton.mpr hd)
      · exact .inr ⟨d, rest, rfl, hd⟩
  have hslash : ∀ d ∈ ['/'], IsAscii d := List.forall_mem_singleton.mpr (by decide)
  have hstar : ∀ d ∈ ['*'], IsAscii d := List.forall_mem_singleton.mpr (by decide)
  have hquotes : ∀ {q : Char}, isQuote q → ∀ d ∈ [q, q], IsAscii d := by
    intro q hq
    simp [isAscii_of_isQuote hq]
  fun_cases Region.move r c cs with
  | case1 _ _ hline => exact .inl (hword hslash hline.2)
  | case2 _ _ _ hblock => exact .inl (hword hstar hblock.2)
  | case3 _ _ _ _ hq hfence => exact .inl (hword (hquotes hq) hfence)
  | case7 outer _ _ hopen => exact .inl (hword hstar hopen.2)
  | case8 outer _ _ _ hclose => exact .inl (hword hslash hclose.2)
  | case11 | case13 =>
    rcases hone with hone | ⟨d, rest, hcs, hd⟩
    · exact .inl hone
    · exact .inr ⟨d, rest, hcs, hd, rfl, rfl⟩
  | case14 q _ _ _ hfence => exact .inl (hword (hquotes hr) hfence.2)
  | _ => exact .inl (by simp)

/-! ## The mask -/

theorem maskBytesFrom?_cons {r : ByteRegion} {m : ByteMove} {bytes : List UInt8}
    (h : r.move? b bytes = some m) :
    maskBytesFrom? r (b :: bytes) =
      (maskBytesFrom? m.region (bytes.drop m.more)).map
        (m.written (b :: bytes.take m.more) ++ ·) := by
  rw [maskBytesFrom?, h, Option.bind_some]

/-- The bytes of a longer character, or some of them, are passed one by one. -/
theorem maskBytesFrom?_append (hr : r.Proper) {bytes : List UInt8}
    (h : ∀ b ∈ bytes, 0x80 ≤ b.toNat) (rest : List UInt8) :
    maskBytesFrom? r.toBytes (bytes ++ rest) =
      (maskBytesFrom? r.toBytes rest).map
        ((if r.hides then bytes.map hideByte else bytes) ++ ·) := by
  induction bytes with
  | nil => simp
  | cons b bytes ih =>
    rw [List.forall_mem_cons] at h
    rw [List.cons_append, maskBytesFrom?_cons (move?_of_le hr h.1 _), List.drop_zero, ih h.2,
      Option.map_map]
    congr 1
    funext rest
    cases r.hides <;> rfl

theorem encode_mask (m : Move) (c : Char) (cs : List Char) :
    encode (m.mask c cs) =
      m.toBytes.written (encode (c :: cs.take m.more)) ++
        encode (maskFrom m.region (cs.drop m.more)) := by
  rw [Move.mask, encode_append]
  congr 1
  change encode (if m.hidden then hide (c :: cs.take m.more) else _) = if m.hidden then _ else _
  split
  · exact encode_hide _
  · rfl

theorem take_drop_encode {n : Nat} (h : ∀ d ∈ cs.take n, IsAscii d) :
    (encode cs).take n = encode (cs.take n) ∧ (encode cs).drop n = encode (cs.drop n) := by
  induction n generalizing cs with
  | zero => exact ⟨rfl, rfl⟩
  | succ n ih =>
    cases cs with
    | nil => exact ⟨rfl, rfl⟩
    | cons c cs =>
      rw [List.take_succ_cons, List.forall_mem_cons] at h
      obtain ⟨htake, hdrop⟩ := ih h.2
      rw [encode_cons_of_isAscii h.1, List.take_succ_cons, List.take_succ_cons,
        encode_cons_of_isAscii h.1, htake]
      exact ⟨rfl, hdrop⟩

/-- A backslash takes the first byte of a longer character with it, and the others are hidden one
by one. -/
theorem maskBytesFrom?_escape (hr : r.Proper) (hc : IsAscii c) (hd : ¬ IsAscii d)
    (hmove : r.move c (d :: cs) = ⟨1, true, r⟩) (hhides : r.hides = true) :
    maskBytesFrom? r.toBytes (encode (c :: d :: cs)) =
      (maskBytesFrom? r.toBytes (encode cs)).map ((encode [c, d]).map hideByte ++ ·) := by
  have hlarge := le_of_mem_encodeChar hd
  obtain ⟨b, bytes, hbytes⟩ := List.exists_cons_of_ne_nil (@String.utf8EncodeChar_ne_nil d)
  rw [hbytes, List.forall_mem_cons] at hlarge
  have hdcs : encode (d :: cs) = b :: (bytes ++ encode cs) := by simp [encode, hbytes]
  have hcd : encode [c, d] = c.toUInt8 :: b :: bytes := by
    rw [encode_cons_of_isAscii hc, ← hbytes]
    simp [encode]
  have hfirst := move?_of_isAscii hr hc (d :: cs)
  rw [hmove, hdcs] at hfirst
  have htail := maskBytesFrom?_append hr hlarge.2 (encode cs)
  rw [if_pos hhides] at htail
  rw [encode_cons_of_isAscii hc, hdcs, maskBytesFrom?_cons hfirst, hcd]
  simp only [Move.toBytes, List.drop_succ_cons, List.drop_zero, htail, Option.map_map]
  rfl

/-- From each region on, the masker of bytes writes the bytes of the mask. -/
theorem maskBytesFrom?_encode (hr : r.Proper) (text : List Char) :
    maskBytesFrom? r.toBytes (encode text) = some (encode (maskFrom r text)) := by
  induction hn : text.length using Nat.strongRecOn generalizing r text with
  | ind n ih =>
    cases text with
    | nil => rw [maskFrom_nil, show encode [] = [] from rfl, maskBytesFrom?]
    | cons c cs =>
      rw [maskFrom_cons, encode_mask]
      by_cases hc : IsAscii c
      · rcases move_passes hr c cs with hascii | ⟨d, rest, rfl, hd, hmove, hhides⟩
        · obtain ⟨htake, hdrop⟩ := take_drop_encode hascii
          have hless : (cs.drop (r.move c cs).more).length < n := by
            rw [← hn, List.length_drop, List.length_cons]
            omega
          have hrest := ih _ hless (proper_move hr c cs) _ rfl
          rw [encode_cons_of_isAscii hc, maskBytesFrom?_cons (move?_of_isAscii hr hc cs),
            encode_cons_of_isAscii hc, ← htake]
          simp only [Move.toBytes, hdrop, hrest, Option.map_some]
        · have hless : rest.length < n := by
            rw [← hn, List.length_cons, List.length_cons]
            omega
          have hrest := ih _ hless hr rest rfl
          rw [maskBytesFrom?_escape hr hc hd hmove hhides, hrest, hmove]
          rfl
      · have hless : cs.length < n := by
          rw [← hn, List.length_cons]
          omega
        have hrest := ih _ hless hr cs rfl
        have hone : encode [c] = String.utf8EncodeChar c := List.append_nil _
        rw [encode_cons, maskBytesFrom?_append hr (le_of_mem_encodeChar hc), hrest,
          move_of_not_isAscii hr hc, List.take_zero, List.drop_zero, hone]
        rfl

/-- The masker of bytes never closes a comment that is not open, and it writes the mask. -/
theorem maskBytes?_encode (source : List Char) :
    maskBytes? (encode source) = some (encode (mask source)) :=
  maskBytesFrom?_encode (r := .code) trivial source

end Source

end Recheck
