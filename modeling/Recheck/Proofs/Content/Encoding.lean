import Recheck.Proofs.Content
import Recheck.Text.Blank
import Recheck.Text.Utf8

/-!
# The normal form of a text

Contents that are valid UTF-8 are read as lists of characters. Line ends and ASCII blanks are one
byte each, and no byte of another character is one of them, so a text can be tidied before it is
encoded or after (`tidy_flatMap`), and texts whose encodings have the same normal form are the same
once they are tidied and trimmed (`trimmed_eq_of_normalize_eq`).
-/

namespace Recheck

/-! ## Encodings -/

namespace Text

/-- The characters of `Text.isAsciiBlank`. -/
def isAsciiBlankChar (c : Char) : Bool :=
  c == ' ' || c == '\t' || c == '\n' || c == '\x0c' || c == '\r'

@[elab_as_elim]
theorem isAsciiBlankChar_cases {motive : Char → Prop} {c : Char} (h : isAsciiBlankChar c)
    (space : motive ' ') (tab : motive '\t') (lineFeed : motive '\n') (formFeed : motive '\x0c')
    (carriageReturn : motive '\r') : motive c := by
  simp only [isAsciiBlankChar, Bool.or_eq_true, beq_iff_eq] at h
  rcases h with (((rfl | rfl) | rfl) | rfl) | rfl <;> assumption

theorem isBlank_of_isAsciiBlankChar {c : Char} (h : isAsciiBlankChar c) : isBlank c :=
  isAsciiBlankChar_cases h rfl rfl rfl rfl rfl

theorem bytes_eq_flatMap (s : String) : bytes s = s.toList.flatMap String.utf8EncodeChar := by
  have h : s.toUTF8 = (s.toList.flatMap String.utf8EncodeChar).toByteArray :=
    String.utf8Encode_toList.symm
  rw [bytes, h, List.data_toByteArray]

theorem bytes_injective {s t : String} (h : bytes s = bytes t) : s = t :=
  Option.some.inj (by rw [← ofBytes?_bytes, h, ofBytes?_bytes])

theorem eq_bytes_of_ofBytes? {bs : List UInt8} {s : String} (h : ofBytes? bs = some s) :
    bs = bytes s := by
  rw [ofBytes?, String.fromUTF8?] at h
  split at h
  · obtain rfl := Option.some.inj h
    rfl
  · cases h

theorem flatMap_encode_injective {cs ds : List Char}
    (h : cs.flatMap String.utf8EncodeChar = ds.flatMap String.utf8EncodeChar) : cs = ds := by
  have hs : String.ofList cs = String.ofList ds := by
    apply bytes_injective
    rw [bytes_eq_flatMap, bytes_eq_flatMap, String.toList_ofList, String.toList_ofList, h]
  rw [← String.toList_ofList (l := cs), hs, String.toList_ofList]

theorem isAsciiBlank_iff (b : UInt8) :
    isAsciiBlank b ↔ b.toNat ∈ [0x20, 0x09, 0x0A, 0x0C, 0x0D] := by
  simp [isAsciiBlank, ← UInt8.toNat_inj, or_assoc]

theorem le_toNat_ofNat (n : Nat) {base k : Nat} (hbase : 0x80 ≤ base) (hpos : 0 < k)
    (hk : base + k ≤ 0x100) : 0x80 ≤ (UInt8.ofNat (n % k + base)).toNat := by
  have hmod : n % k < k := Nat.mod_lt n hpos
  rw [UInt8.toNat_ofNat', Nat.mod_eq_of_lt (by omega)]
  omega

/-- All bytes of a character beyond ASCII are at least `0x80`. -/
theorem le_of_mem_utf8EncodeChar {c : Char} (hc : ¬ c.val.toNat ≤ 0x7f) {b : UInt8}
    (hb : b ∈ String.utf8EncodeChar c) : 0x80 ≤ b.toNat := by
  simp only [String.utf8EncodeChar, if_neg hc] at hb
  split at hb
  · simp only [List.mem_cons, List.not_mem_nil, or_false] at hb
    rcases hb with rfl | rfl <;> exact le_toNat_ofNat _ (by decide) (by decide) (by decide)
  · split at hb
    · simp only [List.mem_cons, List.not_mem_nil, or_false] at hb
      rcases hb with rfl | rfl | rfl <;>
        exact le_toNat_ofNat _ (by decide) (by decide) (by decide)
    · simp only [List.mem_cons, List.not_mem_nil, or_false] at hb
      rcases hb with rfl | rfl | rfl | rfl <;>
        exact le_toNat_ofNat _ (by decide) (by decide) (by decide)

/-- A byte that is a blank encodes a blank. -/
theorem isAsciiBlankChar_of_byte {c : Char} {b : UInt8} (hb : b ∈ String.utf8EncodeChar c)
    (hblank : isAsciiBlank b) : isAsciiBlankChar c := by
  rw [isAsciiBlank_iff] at hblank
  simp only [List.mem_cons, List.not_mem_nil, or_false] at hblank
  by_cases hv : c.val.toNat ≤ 0x7f
  · simp only [String.utf8EncodeChar, if_pos hv, List.mem_singleton] at hb
    obtain rfl := hb
    rw [UInt8.toNat_ofNat', Nat.mod_eq_of_lt (by omega)] at hblank
    have hc : ∀ d : Char, c.val.toNat = d.val.toNat → c = d :=
      fun d hd => Char.ext (UInt32.toNat_inj.mp hd)
    rcases hblank with h | h | h | h | h
    · rw [hc ' ' h]; rfl
    · rw [hc '\t' h]; rfl
    · rw [hc '\n' h]; rfl
    · rw [hc '\x0c' h]; rfl
    · rw [hc '\r' h]; rfl
  · have hlarge := le_of_mem_utf8EncodeChar hv hb
    omega

end Text

namespace Content

namespace Symbols

/-! ## Spellings -/

variable {α β : Type} {σ : Symbols α} {τ : Symbols β} {spell : α → List β}

/-- Each blank is spelled by one blank, the line ends and no others by the line ends. All else is
spelled without blanks. -/
structure Spells (σ : Symbols α) (τ : Symbols β) (spell : α → List β) : Prop where
  blank : ∀ c, σ.isBlank c → ∃ b, spell c = [b] ∧ τ.isBlank b ∧
    (b = τ.lineFeed ↔ c = σ.lineFeed) ∧ (b = τ.carriageReturn ↔ c = σ.carriageReturn)
  solid : ∀ c, σ.isBlank c = false → spell c ≠ [] ∧ ∀ b ∈ spell c, τ.isBlank b = false

namespace Spells

theorem lineFeed (h : Spells σ τ spell) : spell σ.lineFeed = [τ.lineFeed] := by
  obtain ⟨b, hb, -, hlf, -⟩ := h.blank σ.lineFeed σ.isBlank_lineFeed
  rw [hb, hlf.mpr rfl]

theorem head?_flatMap (h : Spells σ τ spell) (cs : List α) :
    (cs.flatMap spell).head? = some τ.lineFeed ↔ cs.head? = some σ.lineFeed := by
  cases cs with
  | nil => simp
  | cons c cs =>
    rw [List.flatMap_cons]
    cases hc : σ.isBlank c with
    | true =>
      obtain ⟨b, hb, -, hlf, -⟩ := h.blank c hc
      simp [hb, hlf]
    | false =>
      obtain ⟨hne, hsolid⟩ := h.solid c hc
      obtain ⟨b, bs, hb⟩ := List.exists_cons_of_ne_nil hne
      have hlf : b ≠ τ.lineFeed := by
        rintro rfl
        have hlf := hsolid τ.lineFeed (hb ▸ List.mem_cons_self)
        simp [τ.isBlank_lineFeed] at hlf
      have hlf' : c ≠ σ.lineFeed := by
        rintro rfl
        simp [σ.isBlank_lineFeed] at hc
      simp [hb, hlf, hlf']

theorem flatMap_eq_nil (h : Spells σ τ spell) (cs : List α) : cs.flatMap spell = [] ↔ cs = [] := by
  cases cs with
  | nil => simp
  | cons c cs =>
    cases hc : σ.isBlank c with
    | true =>
      obtain ⟨b, hb, -⟩ := h.blank c hc
      simp [hb]
    | false => simp [(h.solid c hc).1]

/-- A list can be tidied before it is spelled or after. -/
theorem tidy_flatMap [DecidableEq α] [DecidableEq β] (h : Spells σ τ spell) (cs : List α) :
    τ.tidy (cs.flatMap spell) = (σ.tidy cs).flatMap spell := by
  induction cs with
  | nil => rfl
  | cons c cs ih =>
    rw [List.flatMap_cons]
    cases hc : σ.isBlank c with
    | false =>
      obtain ⟨-, hsolid⟩ := h.solid c hc
      have hone : ∀ d ∈ [c], σ.isBlank d = false := by simpa using hc
      have htidy := σ.tidy_solid_append hone cs
      rw [List.cons_append, List.nil_append] at htidy
      rw [τ.tidy_solid_append hsolid, ih, htidy, List.cons_append, List.nil_append,
        List.flatMap_cons]
    | true =>
      obtain ⟨b, hb, hblank, hlf, hcr⟩ := h.blank c hc
      rw [hb, List.cons_append, List.nil_append]
      simp only [tidy, ih, hc, hblank, hlf, hcr, h.head?_flatMap, h.flatMap_eq_nil]
      repeat' split
      all_goals simp [h.lineFeed, hb]

theorem dropWhile_flatMap (h : Spells σ τ spell) (cs : List α) :
    (cs.flatMap spell).dropWhile τ.isBlank = (cs.dropWhile σ.isBlank).flatMap spell := by
  induction cs with
  | nil => rfl
  | cons c cs ih =>
    rw [List.flatMap_cons]
    cases hc : σ.isBlank c with
    | false =>
      obtain ⟨hne, hsolid⟩ := h.solid c hc
      obtain ⟨b, bs, hb⟩ := List.exists_cons_of_ne_nil hne
      have hsolid' : ¬ τ.isBlank b := by simp [hsolid b (hb ▸ List.mem_cons_self)]
      rw [List.dropWhile_cons_of_neg (by simp [hc]), List.flatMap_cons, hb, List.cons_append,
        List.dropWhile_cons_of_neg hsolid']
    | true =>
      obtain ⟨b, hb, hblank, -⟩ := h.blank c hc
      rw [List.dropWhile_cons_of_pos hc, hb, List.cons_append, List.nil_append,
        List.dropWhile_cons_of_pos hblank, ih]

end Spells

/-! ## Texts -/

/-- The symbols of a text. -/
def chars : Symbols Char := ⟨'\n', '\r', Text.isAsciiBlankChar, by decide, by decide, by decide⟩

theorem spells_utf8 : Spells chars bytes String.utf8EncodeChar where
  blank := by
    intro c hc
    refine Text.isAsciiBlankChar_cases hc ?_ ?_ ?_ ?_ ?_ <;>
      exact ⟨_, rfl, by decide, by decide, by decide⟩
  solid := by
    intro c hc
    refine ⟨String.utf8EncodeChar_ne_nil, fun b hb => Bool.eq_false_iff.mpr fun hblank => ?_⟩
    have hchar : chars.isBlank c = true := Text.isAsciiBlankChar_of_byte hb hblank
    simp [hchar] at hc

end Symbols

/-- A text tidied, without the blanks at its start. -/
def trimmed (cs : List Char) : List Char := (Symbols.chars.tidy cs).dropWhile Text.isAsciiBlankChar

theorem normalize_bytes (s : String) :
    normalize (Text.bytes s) = (trimmed s.toList).flatMap String.utf8EncodeChar := by
  rw [normalize_eq, Text.bytes_eq_flatMap, Symbols.spells_utf8.tidy_flatMap]
  exact Symbols.spells_utf8.dropWhile_flatMap _

/-- Texts with the same normal form are the same once they are tidied and trimmed. -/
theorem trimmed_eq_of_normalize_eq {s t : String}
    (h : normalize (Text.bytes s) = normalize (Text.bytes t)) :
    trimmed s.toList = trimmed t.toList := by
  rw [normalize_bytes, normalize_bytes] at h
  exact Text.flatMap_encode_injective h

end Content

end Recheck
