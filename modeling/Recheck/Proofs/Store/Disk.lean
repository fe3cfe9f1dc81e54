import Recheck.Proofs.FileTree.Edit
import Recheck.Proofs.Store.Format

/-!
# Store files on disk

A store is written beside its place and then moved there. A flush that fails leaves the store file
as it was, whatever it has done before, and one that succeeds leaves a file from which the store is
loaded (`load_writeTo`). It can fail because of what is in the way, and at every step because the
system refuses to go on. This supposes that the cache directory is usable (`Usable`): no `..` of its
path steps back from something that is missing, since a flush would make it and so change what the
path leads to; and the file beside is not one that can be written but not read, since moving it
would leave a store file that cannot be read.
-/

namespace Recheck

namespace FileTree

variable {dir : Path} {name : String}

theorem isAbsolute_iff {p : Path} : p.isAbsolute = true ↔ .root ∈ p.components := by
  rw [Path.isAbsolute, beq_iff_eq]
  constructor
  · intro h
    obtain ⟨cs, hcs⟩ := List.head?_eq_some_iff.mp h
    rw [Path.components, Path.layout_absolute hcs]
    exact List.mem_cons_self
  · exact Path.head?_of_root_mem

theorem nameIn_join (hname : ProperName name) (hspell : spellsDir (dir.join ⟨name⟩) = false) :
    NameIn dir name (dir.join ⟨name⟩) := by
  have hsteps := dir.components_join_name hname
  refine ⟨?_, hsteps, hspell⟩
  rw [Bool.eq_iff_iff, isAbsolute_iff, isAbsolute_iff, hsteps]
  simp

end FileTree

namespace Store

variable {t t' : FileTree} {dir : Path}

theorem draftOf_fileIn (dir : Path) : draftOf (fileIn dir) = dir.join ⟨"cache.json.tmp"⟩ := by
  simp only [draftOf, fileIn, Path.join, show (Path.mk "cache.json").isAbsolute = false from rfl,
    show (Path.mk "cache.json.tmp").isAbsolute = false from rfl, Bool.false_eq_true, if_false]
  split
  · rw [String.append_assoc]
    rfl
  · rw [String.append_assoc]
    rfl

theorem spellsDir_join {name : String} (hrel : (Path.mk name).isAbsolute = false) {c : Char}
    (cs : List Char) (hname : name.toList = cs ++ [c]) (hc : c ≠ '/' ∧ c ≠ '.') :
    FileTree.spellsDir (dir.join ⟨name⟩) = false := by
  have hend : ∃ front, (dir.join ⟨name⟩).text.toList = front ++ [c] := by
    rw [Path.join, if_neg (by simp [hrel])]
    split
    · exact ⟨dir.text.toList ++ cs, by simp [String.toList_append, hname]⟩
    · exact ⟨dir.text.toList ++ '/' :: cs, by simp [String.toList_append, hname]⟩
  obtain ⟨front, hfront⟩ := hend
  rw [FileTree.spellsDir, hfront, List.reverse_concat]
  split
  · next heq => exact absurd (List.cons.inj heq).1 hc.1
  · next heq => exact absurd (List.cons.inj heq).1 hc.2
  · rfl

theorem nameIn_fileIn (dir : Path) : FileTree.NameIn dir "cache.json" (fileIn dir) :=
  FileTree.nameIn_join (by decide) (spellsDir_join rfl "cache.jso".toList rfl (by decide))

theorem nameIn_draft (dir : Path) :
    FileTree.NameIn dir "cache.json.tmp" (draftOf (fileIn dir)) := by
  rw [draftOf_fileIn]
  exact FileTree.nameIn_join (by decide) (spellsDir_join rfl "cache.json.tm".toList rfl (by decide))

/-! ## Loading -/

/-- The content of the store file decides what is loaded. -/
theorem load_eq (t : FileTree) (file : Path) :
    load t file =
      (((t.read file).toOption.bind Text.ofBytes?).bind fun text =>
        (Json.parse? text).bind StoreData.ofJson?).getD {} := by
  rw [load, FileTree.readText]
  cases t.read file with
  | error e => rfl
  | ok content =>
    simp only [Except.toOption, Option.bind_some]
    cases Text.ofBytes? content <;> rfl

theorem load_congr {file : Path}
    (h : ∀ content, t'.read file = .ok content ↔ t.read file = .ok content) :
    load t' file = load t file := by
  have hread : (t'.read file).toOption = (t.read file).toOption := by
    cases hcontent : t.read file with
    | ok content => rw [(h content).mpr hcontent]
    | error e =>
      cases hcontent' : t'.read file with
      | error e' => rfl
      | ok content' => rw [(h content').mp hcontent'] at hcontent; cases hcontent
  rw [load_eq, load_eq, hread]

theorem load_of_read {file : Path} {d : StoreData} (hd : d.InRange)
    (h : t.read file = .ok (Text.bytes (text d))) : load t file = d := by
  rw [load_eq, h, Except.toOption, Option.bind_some, Text.ofBytes?_bytes, Option.bind_some,
    parse?_text hd, Option.getD_some]

/-- What was loaded can be written and loaded again. -/
theorem inRange_load (t : FileTree) (file : Path) : (load t file).InRange := by
  rw [load_eq]
  cases hread : ((t.read file).toOption.bind Text.ofBytes?).bind fun text =>
      (Json.parse? text).bind StoreData.ofJson? with
  | none => exact ⟨by simp [Table.empty], by simp⟩
  | some d =>
    obtain ⟨text, -, hparse⟩ := Option.bind_eq_some_iff.mp hread
    obtain ⟨j, -, hj⟩ := Option.bind_eq_some_iff.mp hparse
    exact StoreData.inRange_of_ofJson? hj

/-! ## Writing -/

/-- Where the store is written first, there is no file that cannot be read. -/
def draftReadable (t : FileTree) (dir : Path) : Bool :=
  match t.stat (draftOf (fileIn dir)) with
  | .ok (.file _ _ readable) => readable
  | _ => true

theorem draftReadable_iff :
    draftReadable t dir = true ↔
      ∀ content time, t.stat (draftOf (fileIn dir)) ≠ .ok (.file content time false) := by
  rw [draftReadable]
  cases t.stat (draftOf (fileIn dir)) with
  | error e => simp
  | ok entry =>
    cases entry with
    | dir => simp
    | file content time readable => simp

/-- A tree in which a store can be kept in a cache directory. -/
structure Usable (dir : Path) (t : FileTree) : Prop where
  rooted : t.Rooted
  settled : t.Settled dir
  draft : draftReadable t dir = true

instance (dir : Path) (t : FileTree) : Decidable (Usable dir t) :=
  decidable_of_iff (t.Rooted ∧ t.Settled dir ∧ draftReadable t dir = true)
    ⟨fun h => ⟨h.1, h.2.1, h.2.2⟩, fun h => ⟨h.rooted, h.settled, h.draft⟩⟩

section Changes

variable (ht : t.Rooted) (ht' : t'.Rooted) (hdir : t'.workDir = t.workDir)
include ht ht' hdir

/-- The way to the directory and what is at the target of the file decide what is loaded. -/
theorem load_eq_of_bare (hpass : t'.Passable dir ↔ t.Passable dir)
    (h : ∀ content, t'.bare (t.target (fileIn dir)) = some (.file content 0 true) ↔
      t.bare (t.target (fileIn dir)) = some (.file content 0 true)) :
    load t' (fileIn dir) = load t (fileIn dir) := by
  refine load_congr fun content => ?_
  rw [ht'.read_eq_ok_iff (nameIn_fileIn dir), ht.read_eq_ok_iff (nameIn_fileIn dir),
    FileTree.target_congr hdir, hpass, h]

theorem draftReadable_of_bare (hdraft : draftReadable t dir = true)
    (hpass : t'.Passable dir ↔ t.Passable dir)
    (h : ∀ content, t'.bare (t.target (draftOf (fileIn dir))) = some (.file content 0 false) →
      t.bare (t.target (draftOf (fileIn dir))) = some (.file content 0 false)) :
    draftReadable t' dir = true := by
  rw [draftReadable_iff] at hdraft ⊢
  intro content time hstat
  obtain ⟨hok, hway, hget⟩ := (ht'.stat_eq_ok_iff (nameIn_draft dir)).mp hstat
  rw [FileTree.target_congr hdir] at hget
  obtain ⟨time', hget'⟩ := FileTree.bare_eq_file_iff.mp
    (h content (FileTree.bare_eq_file_iff.mpr ⟨time, hget⟩))
  exact hdraft content time'
    ((ht.stat_eq_ok_iff (nameIn_draft dir)).mpr ⟨hok, hpass.mp hway, hget'⟩)

end Changes

theorem target_draft_apart (t : FileTree) (dir : Path) :
    ¬ t.target (draftOf (fileIn dir)) <+: t.target (fileIn dir) := by
  rw [(nameIn_fileIn dir).target_eq, (nameIn_draft dir).target_eq, List.prefix_append_right_inj]
  decide

theorem target_draft_ne (t : FileTree) (dir : Path) :
    t.target (fileIn dir) ≠ t.target (draftOf (fileIn dir)) :=
  fun heq => target_draft_apart t dir (heq ▸ List.prefix_rfl)

/-- In the second tree the directory is usable, and the store is loaded as from the first. -/
structure Kept (dir : Path) (t t' : FileTree) : Prop where
  usable : Usable dir t'
  load_eq : load t' (fileIn dir) = load t (fileIn dir)

section Writing

variable (ht : Usable dir t)
include ht

theorem kept_makeDirs (p : Path) : Kept dir t (t.makeDirs p).1 := by
  have hgrows := FileTree.grows_makeDirs t p
  have hrooted := hgrows.rooted ht.rooted
  have hpass := hgrows.passable_iff ht.settled
  exact ⟨⟨hrooted, hgrows.settled ht.settled,
    draftReadable_of_bare ht.rooted hrooted hgrows.workDir_eq ht.draft hpass fun _ =>
      hgrows.bare_eq_file_iff.mp⟩,
    load_eq_of_bare ht.rooted hrooted hgrows.workDir_eq hpass fun _ => hgrows.bare_eq_file_iff⟩

theorem kept_write {content : List UInt8} (h : t.write (draftOf (fileIn dir)) content = .ok t') :
    Kept dir t t' ∧ t'.bare (t'.target (draftOf (fileIn dir))) = some (.file content 0 true) := by
  obtain ⟨⟨place, hplace⟩, readable, hplaced, hreadable⟩ := ht.rooted.placed_write h
  obtain rfl : readable = true :=
    hreadable.resolve_right fun ⟨old, time, hstat⟩ => draftReadable_iff.mp ht.draft old time hstat
  have hway : t.Passable dir := (nameIn_draft dir).passable_of_resolve hplace
  have hway' : t'.Passable dir := hway.mono hplaced.workDir_eq fun _ => hplaced.dir
  have hpass := iff_of_true hway' hway
  refine ⟨⟨⟨hplaced.rooted, hway'.settled, ?_⟩, ?_⟩, ?_⟩
  · refine draftReadable_of_bare ht.rooted hplaced.rooted hplaced.workDir_eq ht.draft hpass
      fun content' h' => ?_
    rw [hplaced.bare_self] at h'
    cases h'
  · refine load_eq_of_bare ht.rooted hplaced.rooted hplaced.workDir_eq hpass fun content' => ?_
    rw [hplaced.bare_other _ (target_draft_ne t dir)]
  · rw [FileTree.target_congr hplaced.workDir_eq]
    exact hplaced.bare_self

theorem read_moveFile {content : List UInt8}
    (hcontent : t.bare (t.target (draftOf (fileIn dir))) = some (.file content 0 true))
    (h : t.moveFile (draftOf (fileIn dir)) (fileIn dir) = .ok t') :
    Usable dir t' ∧ t'.read (fileIn dir) = .ok content := by
  obtain ⟨⟨place, hplace⟩, hplaced⟩ :=
    ht.rooted.placed_moveFile hcontent (target_draft_apart t dir) h
  have hdir : t'.workDir = t.workDir := hplaced.workDir_eq
  have hway : t.Passable dir := (nameIn_fileIn dir).passable_of_resolve hplace
  have hway' : t'.Passable dir := hway.mono hdir fun _ hl =>
    hplaced.dir (ht.rooted.dir_drop hcontent hl)
  refine ⟨⟨hplaced.rooted, hway'.settled, draftReadable_iff.mpr fun content' time hstat => ?_⟩, ?_⟩
  · -- The draft has been moved away.
    have hget := ((hplaced.rooted.stat_eq_ok_iff (nameIn_draft dir)).mp hstat).2.2
    have hbare := FileTree.bare_eq_file_iff.mpr ⟨time, hget⟩
    have hne : t.target (draftOf (fileIn dir)) ≠ [] := by
      rw [(nameIn_draft dir).target_eq]
      simp
    rw [FileTree.target_congr hdir, hplaced.bare_other _ (target_draft_ne t dir).symm,
      FileTree.bare_drop t hne, if_pos List.prefix_rfl] at hbare
    cases hbare
  · rw [hplaced.rooted.read_eq_ok_iff (nameIn_fileIn dir), FileTree.target_congr hdir]
    exact ⟨(FileTree.resolve_eq_ok hplace).1, hway', hplaced.bare_self⟩

theorem kept_makeDirs_refusal (refusal : Option Refusal) (p : Path) :
    Kept dir t (Refusal.makeDirs refusal t p).1 := by
  unfold Refusal.makeDirs
  split
  · exact kept_makeDirs ht _
  · exact kept_makeDirs ht p

/-- Writing the draft keeps the store file, however much of the draft is written. -/
theorem kept_write_refusal {refusal : Option Refusal} {content : List UInt8}
    {cause : Option OsError}
    (h : Refusal.write refusal t (draftOf (fileIn dir)) content = (t', cause)) :
    Kept dir t t' ∧
      (cause = none →
        t'.bare (t'.target (draftOf (fileIn dir))) = some (.file content 0 true)) := by
  have hsame : Kept dir t t := ⟨ht, rfl⟩
  unfold Refusal.write at h
  split at h
  · -- The draft is not opened.
    obtain ⟨rfl, rfl⟩ := Prod.mk.inj h
    exact ⟨hsame, fun hnone => by cases hnone⟩
  · -- The draft is cut off.
    split at h
    · obtain ⟨rfl, rfl⟩ := Prod.mk.inj h
      exact ⟨hsame, fun hnone => by cases hnone⟩
    · next hwrite =>
      obtain ⟨rfl, rfl⟩ := Prod.mk.inj h
      exact ⟨(kept_write ht hwrite).1, fun hnone => by cases hnone⟩
  · split at h
    · obtain ⟨rfl, rfl⟩ := Prod.mk.inj h
      exact ⟨hsame, fun hnone => by cases hnone⟩
    · next hwrite =>
      obtain ⟨rfl, rfl⟩ := Prod.mk.inj h
      exact ⟨(kept_write ht hwrite).1, fun _ => (kept_write ht hwrite).2⟩

theorem read_move_refusal {refusal : Option Refusal} {content : List UInt8}
    (hcontent : t.bare (t.target (draftOf (fileIn dir))) = some (.file content 0 true))
    (h : Refusal.move refusal t (draftOf (fileIn dir)) (fileIn dir) = .ok t') :
    Usable dir t' ∧ t'.read (fileIn dir) = .ok content := by
  unfold Refusal.move at h
  split at h
  · cases h
  · exact read_moveFile ht hcontent h

/-- An attempt to write a store in a cache directory leaves the directory usable. If it succeeds the
store is loaded, otherwise what was loaded before, whatever the system has refused. -/
theorem load_writeTo {s : Store} {refusal : Option Refusal} {result : Except StoreError Store}
    (hs : s.data.InRange) (h : writeTo t s (fileIn dir) refusal = (t', result)) :
    Usable dir t' ∧
      load t' (fileIn dir) = if result.isOk then s.data else load t (fileIn dir) := by
  have hmade := kept_makeDirs_refusal ht refusal ((fileIn dir).parent?.getD ⟨""⟩)
  rw [writeTo] at h
  split at h
  · next t₁ cause hdirs =>
    obtain ⟨rfl, rfl⟩ := Prod.mk.inj h
    rw [hdirs] at hmade
    exact ⟨hmade.usable, hmade.load_eq⟩
  · next t₁ hdirs =>
    rw [hdirs] at hmade
    split at h
    · next t₂ cause hwrite =>
      obtain ⟨rfl, rfl⟩ := Prod.mk.inj h
      obtain ⟨hwritten, -⟩ := kept_write_refusal hmade.usable hwrite
      exact ⟨hwritten.usable, hwritten.load_eq.trans hmade.load_eq⟩
    · next t₂ hwrite =>
      obtain ⟨hwritten, hcontent⟩ := kept_write_refusal hmade.usable hwrite
      split at h
      · obtain ⟨rfl, rfl⟩ := Prod.mk.inj h
        exact ⟨hwritten.usable, hwritten.load_eq.trans hmade.load_eq⟩
      · next t₃ hmove =>
        obtain ⟨rfl, rfl⟩ := Prod.mk.inj h
        obtain ⟨husable, hread⟩ := read_move_refusal hwritten.usable (hcontent rfl) hmove
        exact ⟨husable, load_of_read hs hread⟩

end Writing

end Store

end Recheck
