import Mathlib.Data.List.Basic
import Recheck.Path
import Recheck.Proofs.Content.Encoding
import Recheck.Proofs.Path

/-!
# Paths that are texts

A path is a text if it is the encoding of one (`Path.IsText`). Then it can be told from what is
shown of it (`isText_iff`). Encoding a text leaves its slashes where they are and adds none
(`splitOn_encoding`), so what is made of such paths by taking them apart and joining them is a text
again (`IsText.join`, `IsText.of_parent?`).
-/

namespace Recheck

namespace Text

/-! ## Raw texts -/

@[simp] theorem rawBytes_raw (bs : List UInt8) : rawBytes (raw bs) = bs := by
  have hbyte : Char.toUInt8 ∘ Char.ofUInt8 = id := by
    funext b
    exact UInt8.toUInt8_toUInt32 b
  rw [rawBytes, raw, String.toList_ofList, List.map_map, hbyte, List.map_id]

@[simp] theorem decoded?_encoded (s : String) : decoded? (encoded s) = some s := by
  rw [decoded?, encoded, rawBytes_raw, ofBytes?_bytes]

@[simp] theorem shown_encoded (s : String) : shown (encoded s) = s := by
  rw [shown, decoded?_encoded, Option.getD_some]

/-! ## Encodings -/

/-- The encoding of characters, with one character for each byte. -/
def encoding (cs : List Char) : List Char := (encoded (String.ofList cs)).toList

theorem ofList_encoding (cs : List Char) :
    String.ofList (encoding cs) = encoded (String.ofList cs) := String.ofList_toList

theorem encoding_toList (s : String) : encoding s.toList = (encoded s).toList := by
  rw [encoding, String.ofList_toList]

theorem encoding_injective {cs ds : List Char} (h : encoding cs = encoding ds) : cs = ds := by
  have hshown := congrArg shown (String.toList_inj.mp h)
  rw [shown_encoded, shown_encoded] at hshown
  simpa using congrArg String.toList hshown

/-- A text that is its own encoding is the encoding of no other. -/
theorem encoding_eq_iff {cs ds : List Char} (h : encoding ds = ds) : encoding cs = ds ↔ cs = ds :=
  ⟨fun heq => encoding_injective (heq.trans h.symm), fun heq => by rw [heq, h]⟩

theorem encoding_eq_flatMap (cs : List Char) :
    encoding cs = cs.flatMap fun c => (String.utf8EncodeChar c).map Char.ofUInt8 := by
  rw [encoding, encoded, raw, String.toList_ofList, bytes_eq_flatMap, String.toList_ofList,
    List.map_flatMap]

@[simp] theorem encoding_nil : encoding [] = [] := encoding_eq_flatMap []

theorem encoding_append (cs ds : List Char) : encoding (cs ++ ds) = encoding cs ++ encoding ds := by
  simp only [encoding_eq_flatMap, List.flatMap_append]

theorem encoding_cons (c : Char) (cs : List Char) :
    encoding (c :: cs) = encoding [c] ++ encoding cs :=
  encoding_append [c] cs

/-- An ASCII character is its own encoding. -/
theorem encoding_ascii {c : Char} (h : c.val.toNat ≤ 0x7f) : encoding [c] = [c] := by
  rw [encoding_eq_flatMap, List.flatMap_singleton, String.utf8EncodeChar, if_pos h, List.map_cons,
    List.map_nil]
  refine congrArg (fun d => [d]) (Char.ext (UInt32.toNat_inj.mp ?_))
  show (UInt8.ofNat c.val.toNat).toUInt32.toNat = c.val.toNat
  rw [UInt8.toNat_toUInt32, UInt8.toNat_ofNat', Nat.mod_eq_of_lt (by omega)]

/-- No other character has an ASCII character in its encoding. -/
theorem not_mem_encoding {c d : Char} (hd : d.val.toNat ≤ 0x7f) (hne : c ≠ d) :
    d ∉ encoding [c] := by
  by_cases hc : c.val.toNat ≤ 0x7f
  · simpa [encoding_ascii hc] using Ne.symm hne
  · rw [encoding_eq_flatMap, List.flatMap_singleton]
    intro hmem
    obtain ⟨b, hb, rfl⟩ := List.mem_map.mp hmem
    have hlarge := le_of_mem_utf8EncodeChar hc hb
    rw [show (Char.ofUInt8 b).val.toNat = b.toNat from UInt8.toNat_toUInt32 b] at hd
    omega

/-- An encoding starts with a slash if the text does. -/
theorem head?_encoding_eq_slash_iff {cs : List Char} :
    (encoding cs).head? = some '/' ↔ cs.head? = some '/' := by
  cases cs with
  | nil => rw [encoding_nil]
  | cons c cs =>
    rw [encoding_cons, List.head?_cons, Option.some.injEq]
    by_cases hc : c = '/'
    · subst hc
      rw [encoding_ascii (by decide)]
      simp
    · refine iff_of_false (fun hhead => not_mem_encoding (by decide) hc ?_) hc
      have hne : encoding [c] ≠ [] := fun hnil => by
        simpa using encoding_injective (hnil.trans encoding_nil.symm)
      rw [List.head?_append_of_ne_nil _ hne] at hhead
      exact List.mem_of_head? hhead

theorem splitOn_append_of_not_mem {α : Type} [DecidableEq α] {sep : α} {front : List α}
    (h : sep ∉ front) (cs : List α) :
    splitOn sep (front ++ cs) = (splitOn sep cs).modifyHead (front ++ ·) := by
  induction front with
  | nil =>
    rw [List.nil_append]
    cases splitOn sep cs <;> rfl
  | cons c front ih =>
    obtain ⟨hc, hfront⟩ := not_or.mp (List.mem_cons.not.mp h)
    rw [List.cons_append, splitOn, if_neg (Ne.symm hc), ih hfront]
    cases hsplit : splitOn sep cs with
    | nil => exact absurd hsplit (splitOn_ne_nil sep cs)
    | cons piece pieces => rfl

theorem splitOn_eq {α : Type} [DecidableEq α] (sep : α) (cs : List α) :
    splitOn sep cs = cs.splitOn sep := by
  induction cs with
  | nil => rfl
  | cons c cs ih =>
    rw [List.splitOn_cons_eq_if_modifyHead, ← ih, splitOn]
    simp only [beq_iff_eq]
    split
    · rfl
    · split
      · next h => exact absurd h (splitOn_ne_nil sep cs)
      · next h => rw [h, List.modifyHead_cons]

theorem join_splitOn {α : Type} [DecidableEq α] (sep : α) (cs : List α) :
    join sep (splitOn sep cs) = cs := by
  rw [splitOn_eq, join, List.intercalate_splitOn]

/-- Text and encoding are cut at the same slashes. -/
theorem splitOn_encoding (cs : List Char) :
    splitOn '/' (encoding cs) = (splitOn '/' cs).map encoding := by
  induction cs with
  | nil => rfl
  | cons c cs ih =>
    rw [encoding_cons]
    by_cases hc : c = '/'
    · subst hc
      rw [encoding_ascii (by decide), List.singleton_append, splitOn, if_pos rfl, splitOn,
        if_pos rfl, ih, List.map_cons, encoding_nil]
    · rw [splitOn_append_of_not_mem (not_mem_encoding (by decide) hc), ih, splitOn, if_neg hc]
      cases hsplit : splitOn '/' cs with
      | nil => exact absurd hsplit (splitOn_ne_nil '/' cs)
      | cons piece pieces =>
        rw [List.map_cons, List.modifyHead_cons, List.map_cons, encoding_cons c piece]

/-- Characters that are the encoding of others. -/
def IsEncoding (cs : List Char) : Prop := ∃ ds, encoding ds = cs

namespace IsEncoding

theorem nil : IsEncoding [] := ⟨[], encoding_nil⟩

theorem append {cs ds : List Char} (hcs : IsEncoding cs) (hds : IsEncoding ds) :
    IsEncoding (cs ++ ds) := by
  obtain ⟨cs, rfl⟩ := hcs
  obtain ⟨ds, rfl⟩ := hds
  exact ⟨cs ++ ds, encoding_append cs ds⟩

theorem slash_cons {cs : List Char} (h : IsEncoding cs) : IsEncoding ('/' :: cs) :=
  append ⟨['/'], encoding_ascii (by decide)⟩ h

theorem of_mem_splitOn {cs piece : List Char} (h : IsEncoding cs) (hp : piece ∈ splitOn '/' cs) :
    IsEncoding piece := by
  obtain ⟨cs, rfl⟩ := h
  rw [splitOn_encoding] at hp
  obtain ⟨piece, -, rfl⟩ := List.mem_map.mp hp
  exact ⟨piece, rfl⟩

theorem join {pieces : List (List Char)} (h : ∀ piece ∈ pieces, IsEncoding piece) :
    IsEncoding (Text.join '/' pieces) := by
  induction pieces with
  | nil => exact .nil
  | cons piece rest ih =>
    have hpiece := h piece List.mem_cons_self
    have hrest := ih fun piece' hp => h piece' (List.mem_cons_of_mem _ hp)
    cases rest with
    | nil => simpa [Text.join] using hpiece
    | cons next rest =>
      rw [join_cons_cons]
      exact hpiece.append hrest.slash_cons

end IsEncoding

end Text

namespace Path

open Text (IsEncoding)

@[simp] theorem shown_ofText (s : String) : (ofText s).shown = s := Text.shown_encoded s

/-- A path that a text names. -/
def IsText (p : Path) : Prop := ∃ s, p = ofText s

theorem isText_ofText (s : String) : (ofText s).IsText := ⟨s, rfl⟩

theorem isText_iff {p : Path} : p.IsText ↔ ofText p.shown = p := by
  constructor
  · rintro ⟨s, rfl⟩
    rw [shown_ofText]
  · exact fun h => ⟨p.shown, h.symm⟩

instance (p : Path) : Decidable p.IsText := decidable_of_iff _ isText_iff.symm

theorem IsText.ofText_shown {p : Path} (h : p.IsText) : ofText p.shown = p := isText_iff.mp h

theorem IsText.shown_inj {p q : Path} (hp : p.IsText) (hq : q.IsText) :
    p.shown = q.shown ↔ p = q :=
  ⟨fun h => by rw [← hp.ofText_shown, h, hq.ofText_shown], fun h => by rw [h]⟩

/-- The text shown for a path names it, and it is shown for no other one of the files. -/
structure OwnKey (files : List Path) (p : Path) : Prop where
  isText : p.IsText
  unique : ∀ f ∈ files, f.shown = p.shown → f = p

instance (files : List Path) (p : Path) : Decidable (p.OwnKey files) :=
  decidable_of_iff (p.IsText ∧ ∀ f ∈ files, f.shown = p.shown → f = p)
    ⟨fun ⟨htext, hunique⟩ => ⟨htext, hunique⟩, fun ⟨htext, hunique⟩ => ⟨htext, hunique⟩⟩

/-- Among texts, every text is its own key. -/
theorem IsText.ownKey {files : List Path} {p : Path} (h : p.IsText)
    (hfiles : ∀ f ∈ files, f.IsText) : p.OwnKey files :=
  ⟨h, fun f hf hshown => ((hfiles f hf).shown_inj h).mp hshown⟩

theorem ext_toList {p q : Path} (h : p.text.toList = q.text.toList) : p = q := by
  cases p
  cases q
  exact congrArg Path.mk (String.toList_inj.mp h)

theorem isText_iff_isEncoding {p : Path} : p.IsText ↔ IsEncoding p.text.toList := by
  constructor
  · rintro ⟨s, rfl⟩
    exact ⟨s.toList, Text.encoding_toList s⟩
  · rintro ⟨cs, hcs⟩
    exact ⟨String.ofList cs, ext_toList hcs.symm⟩

section

variable {p q : Path}

theorem IsText.join (hp : p.IsText) (hq : q.IsText) : (p.join q).IsText := by
  rw [isText_iff_isEncoding] at hp hq ⊢
  rw [Path.join]
  split
  · exact hq
  · split
    · rw [String.toList_append]
      exact hp.append hq
    · rw [String.toList_append, String.toList_append, List.append_assoc]
      exact hp.append hq.slash_cons

theorem IsText.isEncoding_of_mem_body (hp : p.IsText) {piece : List Char}
    (h : piece ∈ p.layout.body) : IsEncoding piece := by
  rw [isText_iff_isEncoding] at hp
  rw [layout] at h
  split at h
  · next rest hcs =>
    have hmem : piece ∈ Text.splitOn '/' p.text.toList := by
      rw [hcs, Text.splitOn, if_pos rfl]
      exact List.mem_cons_of_mem _ h
    exact hp.of_mem_splitOn hmem
  · split at h
    · next hsplit => exact hp.of_mem_splitOn (hsplit ▸ List.mem_cons_of_mem _ h)
    · exact hp.of_mem_splitOn h

theorem isText_path {l : Layout} (h : ∀ piece ∈ l.body, IsEncoding piece) : l.path.IsText := by
  have hbody : IsEncoding (String.ofList (Text.join '/' l.body)).toList := by
    rw [String.toList_ofList]
    exact .join h
  rw [isText_iff_isEncoding, Layout.path]
  split
  · rw [String.toList_append]
    exact hbody.slash_cons
  · split
    · exact ⟨['.'], by decide⟩
    · rw [String.toList_append]
      exact Text.IsEncoding.append ⟨['.', '/'], by decide⟩ hbody
  · exact hbody

theorem IsText.of_parent? (hp : p.IsText) {dir : Path} (h : p.parent? = some dir) :
    dir.IsText := by
  rw [parent?] at h
  split at h
  · next last rest hrest =>
    obtain rfl := Option.some.inj h
    refine isText_path fun piece hpiece => hp.isEncoding_of_mem_body ?_
    have hmem : piece ∈ (trimBodyEnd p.layout.body).reverse := by
      rw [hrest]
      exact List.mem_cons_of_mem _
        (List.mem_reverse.mp (Text.mem_of_mem_dropRightWhile _ hpiece))
    exact Text.mem_of_mem_dropRightWhile _ (List.mem_reverse.mp hmem)
  · split at h
    · obtain rfl := Option.some.inj h
      exact ⟨"", rfl⟩
    · cases h

theorem IsText.isEncoding_of_name_mem (hp : p.IsText) {name : String}
    (h : .name name ∈ p.components) : IsEncoding name.toList := by
  rw [components, List.mem_append] at h
  rcases h with h | h
  · rw [layout] at h
    split at h
    · simp at h
    · split at h <;> simp at h
  · obtain ⟨piece, hpiece, heq⟩ := List.mem_map.mp h
    rw [stepOf] at heq
    split at heq
    · cases heq
    · obtain rfl : String.ofList piece = name := by simpa using heq
      rw [String.toList_ofList]
      exact hp.isEncoding_of_mem_body (List.mem_of_mem_filter hpiece)

theorem path_layout (p : Path) : p.layout.path = p := by
  refine ext_toList ?_
  rw [layout]
  split
  · next rest hcs =>
    simp [Layout.path, Text.join_splitOn, hcs]
  · split
    · next rest hsplit =>
      have htext := Text.join_splitOn '/' p.text.toList
      rw [hsplit] at htext
      cases rest with
      | nil => exact htext
      | cons piece rest =>
        rw [Text.join_cons_cons] at htext
        rw [Layout.path, ← htext]
        simp
    · rw [Layout.path, String.toList_ofList, Text.join_splitOn]

theorem isText_of_names (h : ∀ name, .name name ∈ p.components → IsEncoding name.toList) :
    p.IsText := by
  rw [← path_layout p]
  refine isText_path fun piece hpiece => ?_
  by_cases hstep : isStep piece = true
  · have hmem : stepOf piece ∈ p.components :=
      List.mem_append_right _ (List.mem_map_of_mem (List.mem_filter.mpr ⟨hpiece, hstep⟩))
    rw [stepOf] at hmem
    split at hmem
    · next hup => exact hup ▸ ⟨['.', '.'], by decide⟩
    · simpa using h _ hmem
  · obtain rfl | rfl : piece = [] ∨ piece = ['.'] := by
      simpa [isStep, ← or_iff_not_imp_left] using hstep
    · exact .nil
    · exact ⟨['.'], by decide⟩

theorem IsText.of_same (hp : p.IsText) {q : Path} (h : Same p q) : q.IsText :=
  isText_of_names fun _ hname => hp.isEncoding_of_name_mem (h ▸ hname)

end

end Path

end Recheck
