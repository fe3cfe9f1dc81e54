import Mathlib.Data.List.Forall2
import Recheck.Proofs.Source.ByteMask
import Recheck.Proofs.Source.Lines

/-!
# Masking in place

The masker of bytes can do its work in a copy of the source. It goes over the source by offsets, and
over what it hides it writes spaces in the copy (`MaskState.step?`). What it has passed stands
before its offset in the copy, and behind it the copy is the source (`Aligned`). So the copy keeps
its length and its newlines, and a byte of it is that of the source or a space (`KeepsOffsets`).

The copy is not always a text: a character can be half hidden, when a backslash has taken only its
first byte or when a comment is being passed. But in code no character is half hidden (`Parted`),
and neither is one at the end, where the copy is the mask.
-/

namespace Recheck

namespace Source

/-! ## The copy -/

/-- Writes spaces over `count` bytes from an offset on, save newlines. -/
def blankBytes (buffer : List UInt8) (offset count : Nat) : List UInt8 :=
  buffer.take offset ++ ((buffer.drop offset).take count).map hideByte ++
    buffer.drop (offset + count)

/-- The masker at work. -/
structure MaskState where
  /-- What the offset lies in. -/
  region : ByteRegion
  /-- How many bytes of the source have been passed. -/
  offset : Nat
  /-- The copy of the source. -/
  buffer : List UInt8

namespace MaskState

/-- The masker before its first move. -/
def start (bytes : List UInt8) : MaskState := ⟨.code, 0, bytes⟩

/-- The next move over the source. There is none at its end, and none that closes a comment which is
not open. -/
def step? (bytes : List UInt8) (s : MaskState) : Option MaskState :=
  match bytes.drop s.offset with
  | [] => none
  | b :: rest =>
    (s.region.move? b rest).map fun m =>
      { region := m.region
        offset := s.offset + (m.more + 1)
        buffer := if m.hidden then blankBytes s.buffer s.offset (m.more + 1) else s.buffer }

/-- The masker comes to the state. -/
def Reached (bytes : List UInt8) : MaskState → Prop :=
  Relation.ReflTransGen (fun s s' => s.step? bytes = some s') (start bytes)

end MaskState

theorem blankBytes_append (written rest : List UInt8) (count : Nat) :
    blankBytes (written ++ rest) written.length count =
      written ++ ((rest.take count).map hideByte ++ rest.drop count) := by
  simp [blankBytes]

/-- The byte is kept or hidden. -/
def KeptOrHidden (b b' : UInt8) : Prop := b' = b ∨ b' = hideByte b

theorem ByteMove.keptOrHidden_written (m : ByteMove) (bytes : List UInt8) :
    List.Forall₂ KeptOrHidden bytes (m.written bytes) := by
  rw [ByteMove.written]
  split
  · exact List.forall₂_map_right_iff.mpr (List.forall₂_same.mpr fun b _ => .inr rfl)
  · exact List.forall₂_same.mpr fun b _ => .inl rfl

/-- The masker has written `written` in the copy, and `rest` of the source is left. -/
structure Aligned (bytes : List UInt8) (s : MaskState) (written rest : List UInt8) : Prop where
  drop_eq : bytes.drop s.offset = rest
  buffer_eq : s.buffer = written ++ rest
  kept : List.Forall₂ KeptOrHidden (bytes.take s.offset) written
  /-- The mask of the rest completes what is written. -/
  mask_eq : (maskBytesFrom? s.region rest).map (written ++ ·) = maskBytes? bytes

namespace Aligned

variable {bytes written rest : List UInt8} {s : MaskState}

theorem start (bytes : List UInt8) : Aligned bytes (.start bytes) [] bytes where
  drop_eq := rfl
  buffer_eq := rfl
  kept := .nil
  mask_eq := by
    simp [MaskState.start, maskBytes?]

theorem step {b : UInt8} (h : Aligned bytes s written (b :: rest)) {m : ByteMove}
    (hm : s.region.move? b rest = some m) :
    ∃ s', s.step? bytes = some s' ∧ s'.region = m.region ∧ s.offset < s'.offset ∧
      Aligned bytes s' (written ++ m.written (b :: rest.take m.more)) (rest.drop m.more) := by
  have hoffset : s.offset = written.length := by
    have hlt : s.offset < bytes.length := by
      have hlength := congrArg List.length h.drop_eq
      rw [List.length_drop, List.length_cons] at hlength
      omega
    rw [← h.kept.length_eq, List.length_take, Nat.min_eq_left (Nat.le_of_lt hlt)]
  have hstep : s.step? bytes = some
      { region := m.region
        offset := s.offset + (m.more + 1)
        buffer := if m.hidden then blankBytes s.buffer s.offset (m.more + 1) else s.buffer } := by
    rw [MaskState.step?, h.drop_eq]
    simp only [hm, Option.map_some]
  refine ⟨_, hstep, rfl, by simp, ?_, ?_, ?_, ?_⟩
  · rw [← List.drop_drop, h.drop_eq, List.drop_succ_cons]
  · rw [h.buffer_eq, hoffset, ByteMove.written, blankBytes_append, List.take_succ_cons,
      List.drop_succ_cons, List.append_assoc]
    split
    · rfl
    · rw [List.cons_append, List.take_append_drop]
  · rw [List.take_add, h.drop_eq, List.take_succ_cons]
    exact List.rel_append h.kept (m.keptOrHidden_written _)
  · rw [← h.mask_eq, maskBytesFrom?_cons hm, Option.map_map]
    congr 1
    funext tail
    exact List.append_assoc ..

/-- The copy is kept or hidden byte by byte. -/
theorem keptOrHidden (h : Aligned bytes s written rest) :
    List.Forall₂ KeptOrHidden bytes s.buffer := by
  have hrest : List.Forall₂ KeptOrHidden rest rest := List.forall₂_same.mpr fun b _ => .inl rfl
  rw [h.buffer_eq, ← List.take_append_drop s.offset bytes, h.drop_eq]
  exact List.rel_append h.kept hrest

end Aligned

/-! ## Half-hidden characters -/

/-- The rest starts with bytes of a character that is being passed, or with a character. What is
written is a text, in code together with the rest of the character. -/
def Parted (r : Region) (written rest : List UInt8) : Prop :=
  ∃ shown tail after, rest = tail ++ encode after ∧ (∀ b ∈ tail, 0x80 ≤ b.toNat) ∧
    (if r.hides then written else written ++ tail) = encode shown

variable {r : Region} {written rest tail : List UInt8} {b : UInt8}

theorem hideByte_of_le (hb : 0x80 ≤ b.toNat) : hideByte b = 0x20 := by
  refine if_neg ?_
  rintro rfl
  exact absurd hb (by decide)

/-- What a step from `r` makes of what is written and left. -/
def Continues (r : Region) (written : List UInt8) (b : UInt8) (rest : List UInt8) : Prop :=
  ∃ m r', r.toBytes.move? b rest = some m ∧ m.region = Region.toBytes r' ∧ r'.Proper ∧
    Parted r' (written ++ m.written (b :: rest.take m.more)) (rest.drop m.more)

/-- A byte of a longer character is passed alone. -/
theorem continues_of_le (hr : r.Proper) {shown after : List Char}
    (hlarge : ∀ x ∈ b :: tail, 0x80 ≤ x.toNat)
    (hwritten : (if r.hides then written else written ++ b :: tail) = encode shown) :
    Continues r written b (tail ++ encode after) := by
  rw [List.forall_mem_cons] at hlarge
  refine ⟨_, r, move?_of_le hr hlarge.1 _, rfl, hr, ?_⟩
  cases hhides : r.hides with
  | true =>
    have hspace : encode [' '] = [0x20] := rfl
    rw [hhides, if_pos rfl] at hwritten
    refine ⟨shown ++ [' '], tail, after, rfl, hlarge.2, ?_⟩
    rw [hhides, if_pos rfl, hwritten, encode_append, hspace]
    simp [ByteMove.written, hideByte_of_le hlarge.1]
  | false =>
    rw [hhides, if_neg Bool.false_ne_true] at hwritten
    refine ⟨shown, tail, after, rfl, hlarge.2, ?_⟩
    rw [hhides, if_neg Bool.false_ne_true, ← hwritten]
    simp [ByteMove.written]

/-- At a character of one byte the masker passes whole characters, save behind a backslash. -/
theorem continues_of_isAscii (hr : r.Proper) {c : Char} (hc : IsAscii c) {shown cs : List Char}
    (hwritten : written = encode shown) : Continues r written c.toUInt8 (encode cs) := by
  refine ⟨_, (r.move c cs).region, move?_of_isAscii hr hc cs, rfl, proper_move hr c cs, ?_⟩
  rcases move_passes hr c cs with hascii | ⟨d, rest, rfl, hd, hmove, hhides⟩
  · obtain ⟨htake, hdrop⟩ := take_drop_encode hascii
    have hpassed : c.toUInt8 :: (encode cs).take (r.move c cs).more =
        encode (c :: cs.take (r.move c cs).more) := by
      rw [encode_cons_of_isAscii hc, htake]
    refine ⟨shown ++ if (r.move c cs).hidden then hide (c :: cs.take (r.move c cs).more)
      else c :: cs.take (r.move c cs).more, [], cs.drop (r.move c cs).more, hdrop, by simp, ?_⟩
    rw [List.append_nil, ite_self, hwritten, encode_append, Move.toBytes, hpassed, ByteMove.written]
    split
    · rw [encode_hide]
    · rfl
  · -- The backslash takes the first byte of `d` with it, and the others are left.
    have hlarge := le_of_mem_encodeChar hd
    obtain ⟨x, bytes, hbytes⟩ := List.exists_cons_of_ne_nil (@String.utf8EncodeChar_ne_nil d)
    rw [hbytes, List.forall_mem_cons] at hlarge
    have hspace : encode [' '] = [hideByte x] := by
      rw [hideByte_of_le hlarge.1]
      rfl
    have hhidden : encode (hide [c]) = [hideByte c.toUInt8] := by
      rw [encode_hide, encode_cons_of_isAscii hc]
      rfl
    refine ⟨shown ++ hide [c] ++ [' '], bytes, rest, ?_, hlarge.2, ?_⟩
    · simp [hmove, Move.toBytes, encode_cons, hbytes]
    · rw [hmove, if_pos hhides, hwritten, encode_append, encode_append, hspace, hhidden]
      simp [Move.toBytes, ByteMove.written, encode_cons, hbytes]

/-- The masker can go on, and at most one character is parted again. -/
theorem Parted.continues (hr : r.Proper) (h : Parted r written (b :: rest)) :
    Continues r written b rest := by
  obtain ⟨shown, tail, after, hrest, hlarge, hwritten⟩ := h
  cases tail with
  | cons x tail =>
    obtain ⟨rfl, rfl⟩ := List.cons.inj hrest
    exact continues_of_le hr hlarge hwritten
  | nil =>
    rw [List.append_nil, ite_self] at hwritten
    cases after with
    | nil => cases hrest
    | cons c cs =>
      by_cases hc : IsAscii c
      · rw [List.nil_append, encode_cons_of_isAscii hc] at hrest
        obtain ⟨rfl, rfl⟩ := List.cons.inj hrest
        exact continues_of_isAscii hr hc hwritten
      · -- The bytes of the character are passed one by one, as those of one begun before.
        obtain ⟨x, bytes, hbytes⟩ := List.exists_cons_of_ne_nil (@String.utf8EncodeChar_ne_nil c)
        rw [List.nil_append, encode_cons, hbytes] at hrest
        obtain ⟨rfl, rfl⟩ := List.cons.inj hrest
        have hone : encode [c] = String.utf8EncodeChar c := List.append_nil _
        have hshown : (if r.hides then written else written ++ b :: bytes) =
            encode (if r.hides then shown else shown ++ [c]) := by
          split
          · exact hwritten
          · rw [hwritten, encode_append, hone, hbytes]
        exact continues_of_le hr (hbytes ▸ le_of_mem_encodeChar hc) hshown

/-! ## Reached states -/

namespace MaskState

/-- What is known of the states that the masker comes to. -/
theorem Reached.exists_aligned {source : List Char} {s : MaskState}
    (h : Reached (encode source) s) :
    ∃ r written rest, Region.Proper r ∧ s.region = r.toBytes ∧
      Aligned (encode source) s written rest ∧ Parted r written rest := by
  induction h with
  | refl =>
    exact ⟨.code, [], encode source, trivial, rfl, .start _, [], [], source, rfl, by simp, rfl⟩
  | @tail s s' _ hstep ih =>
    obtain ⟨r, written, rest, hr, hregion, haligned, hparted⟩ := ih
    cases rest with
    | nil =>
      rw [step?, haligned.drop_eq] at hstep
      cases hstep
    | cons b rest =>
      obtain ⟨m, r', hm, hregion', hr', hparted'⟩ := hparted.continues hr
      obtain ⟨s'', hstep', hregion'', -, haligned'⟩ := haligned.step (hregion ▸ hm)
      obtain rfl : s'' = s' := Option.some.inj (hstep'.symm.trans hstep)
      exact ⟨r', _, _, hr', hregion''.trans hregion', haligned', hparted'⟩

/-- The masker goes on until it has passed the source. -/
theorem Reached.exists_step {source : List Char} {s : MaskState} (h : Reached (encode source) s)
    (hoffset : s.offset < (encode source).length) :
    ∃ s', s.step? (encode source) = some s' ∧ s.offset < s'.offset := by
  obtain ⟨r, written, rest, hr, hregion, haligned, hparted⟩ := h.exists_aligned
  cases rest with
  | nil => exact absurd hoffset (Nat.not_lt.mpr (List.drop_eq_nil_iff.mp haligned.drop_eq))
  | cons b rest =>
    obtain ⟨m, r', hm, -⟩ := hparted.continues hr
    obtain ⟨s', hstep, -, hlt, -⟩ := haligned.step (hregion ▸ hm)
    exact ⟨s', hstep, hlt⟩

theorem exists_reached_end (source : List Char) :
    ∃ s, Reached (encode source) s ∧ (encode source).length ≤ s.offset := by
  suffices h : ∀ n s, Reached (encode source) s → (encode source).length - s.offset ≤ n →
      ∃ s, Reached (encode source) s ∧ (encode source).length ≤ s.offset by
    exact h _ (start (encode source)) .refl (Nat.le_refl _)
  intro n
  induction n with
  | zero => exact fun s hs hle => ⟨s, hs, by omega⟩
  | succ n ih =>
    intro s hs hle
    by_cases hoffset : s.offset < (encode source).length
    · obtain ⟨s', hstep, hlt⟩ := hs.exists_step hoffset
      exact ih s' (hs.tail hstep) (by omega)
    · exact ⟨s, hs, by omega⟩

/-- In code the copy is a text. -/
theorem Reached.exists_text {source : List Char} {s : MaskState} (h : Reached (encode source) s)
    (hcode : s.region = .code) : ∃ text, s.buffer = encode text := by
  obtain ⟨r, written, rest, -, hregion, haligned, hparted⟩ := h.exists_aligned
  obtain rfl : r = .code := by
    rw [hcode] at hregion
    cases r with
    | code => rfl
    | _ => cases hregion
  obtain ⟨shown, tail, after, rfl, -, hshown⟩ := hparted
  have hshown : written ++ tail = encode shown := hshown
  exact ⟨shown ++ after, by rw [haligned.buffer_eq, encode_append, ← hshown, List.append_assoc]⟩

-- Elsewhere it need not be: here a backslash has taken half of a character.
example : ∃ s, Reached (encode ['"', '\\', 'é', '"']) s ∧ Text.ofBytes? s.buffer = none :=
  ⟨_, .tail (.tail .refl rfl) rfl, by decide⟩

/-- At the end of the source the copy is the mask. -/
theorem Reached.buffer_eq_mask {source : List Char} {s : MaskState} (h : Reached (encode source) s)
    (hoffset : (encode source).length ≤ s.offset) : s.buffer = encode (mask source) := by
  obtain ⟨r, written, rest, -, -, haligned, -⟩ := h.exists_aligned
  obtain rfl : rest = [] := haligned.drop_eq.symm.trans (List.drop_eq_nil_of_le hoffset)
  have hmask := haligned.mask_eq
  rw [maskBytes?_encode, maskBytesFrom?, Option.map_some, Option.some.injEq] at hmask
  rw [haligned.buffer_eq, hmask]

end MaskState

/-! ## Offsets -/

/-- The bytes stand at the offsets of the source, with the same newlines, and those that differ are
spaces. -/
structure KeepsOffsets (bytes buffer : List UInt8) : Prop where
  length_eq : buffer.length = bytes.length
  newline_iff : ∀ i : Nat, buffer[i]? = some 0x0A ↔ bytes[i]? = some 0x0A
  kept_or_space : ∀ (i : Nat) b, buffer[i]? = some b → bytes[i]? = some b ∨ b = 0x20

theorem KeptOrHidden.newline_iff {b b' : UInt8} (h : KeptOrHidden b b') :
    b' = 0x0A ↔ b = 0x0A := by
  obtain rfl | rfl := h
  · rfl
  · rw [← beq_iff_eq, hideByte_eq_lineFeed, beq_iff_eq]

theorem KeptOrHidden.eq_or_space {b b' : UInt8} (h : KeptOrHidden b b') : b' = b ∨ b' = 0x20 := by
  obtain h | rfl := h
  · exact .inl h
  · rw [hideByte]
    split
    · exact .inl rfl
    · exact .inr rfl

theorem KeepsOffsets.cons {b b' : UInt8} {bytes buffer : List UInt8} (hb : KeptOrHidden b b')
    (h : KeepsOffsets bytes buffer) : KeepsOffsets (b :: bytes) (b' :: buffer) where
  length_eq := congrArg Nat.succ h.length_eq
  newline_iff i := by
    cases i with
    | zero => simpa using hb.newline_iff
    | succ i => simpa using h.newline_iff i
  kept_or_space i x hx := by
    cases i with
    | zero =>
      obtain rfl : b' = x := Option.some.inj hx
      exact hb.eq_or_space.imp_left fun heq => congrArg some heq.symm
    | succ i => exact h.kept_or_space i x hx

/-- Bytes that are kept or hidden one by one keep their offsets. -/
theorem keepsOffsets_of_forall₂ {bytes buffer : List UInt8}
    (h : List.Forall₂ KeptOrHidden bytes buffer) : KeepsOffsets bytes buffer := by
  induction h with
  | nil => exact ⟨rfl, fun _ => .rfl, fun _ _ => .inl⟩
  | cons hb _ ih => exact ih.cons hb

/-- The masker that writes in a copy of the source comes to its end, and there the copy is the mask.
At each step the copy keeps the offsets of the source, no comment is closed that is not open, and
in code the copy is a text. -/
theorem mask_keeps_offsets (source : List Char) :
    KeepsOffsets (encode source) (encode (mask source)) ∧
      LineIndex.ofText (mask source) = LineIndex.ofText source ∧
      (∃ s, MaskState.Reached (encode source) s ∧ (encode source).length ≤ s.offset) ∧
      ∀ s, MaskState.Reached (encode source) s →
        KeepsOffsets (encode source) s.buffer ∧
        (s.offset < (encode source).length →
          ∃ s', s.step? (encode source) = some s' ∧ s.offset < s'.offset) ∧
        (s.region = .code → ∃ text, Text.ofBytes? s.buffer = some text) ∧
        ((encode source).length ≤ s.offset →
          Text.ofBytes? s.buffer = some (String.ofList (mask source))) := by
  have hkeeps : ∀ s, MaskState.Reached (encode source) s →
      KeepsOffsets (encode source) s.buffer := by
    intro s hs
    obtain ⟨r, written, rest, -, -, haligned, -⟩ := hs.exists_aligned
    exact keepsOffsets_of_forall₂ haligned.keptOrHidden
  obtain ⟨last, hlast, hend⟩ := MaskState.exists_reached_end source
  refine ⟨hlast.buffer_eq_mask hend ▸ hkeeps last hlast, ofText_mask source, ⟨last, hlast, hend⟩,
    fun s hs => ⟨hkeeps s hs, hs.exists_step, fun hcode => ?_, fun hpassed => ?_⟩⟩
  · obtain ⟨text, htext⟩ := hs.exists_text hcode
    exact ⟨String.ofList text, by rw [htext, ofBytes?_encode]⟩
  · rw [hs.buffer_eq_mask hpassed, ofBytes?_encode]

end Source

end Recheck
