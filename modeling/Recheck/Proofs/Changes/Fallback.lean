import Recheck.Proofs.Changes

/-!
# Records of unreadable files

A file that cannot be read is remembered under the digest of a mark made from its path, with the
time zero. Once the file can be read the record is compared like any other
(`FileCheck.isChanged_run_fallback`): it passes for a file of the time zero, which is what every
time before 1970 counts as, and for a file that has the mark as its content. For every other file
the return of its content is noticed (`Changes.fallback_noticed`).
-/

namespace Recheck

/-- The bytes whose digest stands for a file that cannot be read. -/
def Path.unreadableMark (p : Path) : List UInt8 := Text.bytes "unreadable:" ++ Text.bytes p.shown

theorem Entry.modifiedMillis_file_eq_zero_iff {content : List UInt8} {modified : Int}
    {readable : Bool} :
    (Entry.file content modified readable).modifiedMillis = 0 ↔ modified ≤ 0 := by
  rw [Entry.modifiedMillis, Entry.modified]
  split <;> omega

theorem FileTree.read_of_stat {t : FileTree} {p : Path} {content : List UInt8} {modified : Int}
    (hs : t.stat p = .ok (.file content modified true)) : t.read p = .ok content := by
  rw [FileTree.read, hs]
  rfl

/-- The digest does not give the content and the mark of the path one value, unless the normal form
of the content is the mark. -/
def Digest.TellsMark (digest : Digest) (content : List UInt8) (p : Path) : Prop :=
  digest.hex (Content.normalize content) = digest.hex p.unreadableMark →
    Content.normalize content = p.unreadableMark

/-- The record of an unreadable file passes for a readable one of the time zero, or with the mark as
its content, and for no other. -/
theorem FileCheck.isChanged_run_fallback {digest : Digest} {t : FileTree} {p : Path}
    {content : List UInt8} {modified : Int} (hs : t.stat p = .ok (.file content modified true))
    (hdigest : digest.TellsMark content p) :
    (run digest t (some (fallback digest p)) p).isChanged = false ↔
      modified ≤ 0 ∨ Content.normalize content = p.unreadableMark := by
  rw [isChanged_eq_false_iff]
  simp only [Option.some.injEq, exists_eq_left', Record.Passes, hs, FileTree.read_of_stat hs,
    Except.ok.injEq]
  refine or_congr ?_ ?_
  · exact eq_comm.trans Entry.modifiedMillis_file_eq_zero_iff
  · exact ⟨fun h => hdigest h.symm, fun h => congrArg digest.hex h.symm⟩

namespace Changes

section Detect

variable {digest : Digest} {t : FileTree} {g : Graph} {missing : List (Path × List Path)}
  {files : List Path} {data : StoreData} {p : Path} {content : List UInt8} {modified : Int}

/-- A file that was remembered as unreadable and can be read again is in the change set, unless its
time counts as zero or its content is the mark of its path. -/
theorem fallback_noticed (hp : p ∈ files)
    (hrecord : data.get? p = some (FileCheck.fallback digest p))
    (hs : t.stat p = .ok (.file content modified true)) (hdigest : digest.TellsMark content p) :
    (detect digest t g missing files data).contains p = true ∨
      modified ≤ 0 ∨ Content.normalize content = p.unreadableMark := by
  rw [← FileCheck.isChanged_run_fallback hs hdigest, or_iff_not_imp_right, Bool.not_eq_false]
  intro hchanged
  rw [← hrecord] at hchanged
  exact (spreadFrom_detect.contains_iff p).mpr
    ⟨p, .changed hp hchanged, Graph.Affects.of_same (Path.Same.refl p)⟩

end Detect

namespace Fallback

/-- A digest without collisions: the bytes themselves. -/
def plain : Digest := ⟨fun bytes => String.ofList (bytes.map Char.ofUInt8)⟩

theorem plain_injective : Function.Injective plain.hex := by
  intro bytes bytes' h
  refine List.map_injective_iff.mpr (fun b b' hb => ?_) (String.ofList_injective h)
  exact UInt8.toUInt32_inj.mp (congrArg Char.val hb)

/-- A store that remembers the file `/a` as unreadable. -/
def data : StoreData := { files := Table.ofList [("/a", FileCheck.fallback plain ⟨"/a"⟩)] }

/-- A tree in which the file `/a` can be read. -/
def tree (content : String) (modified : Int) : FileTree :=
  { entries := [(["a"], .file (Text.bytes content) modified true)] }

/-- The changes in such a tree. -/
def changes (content : String) (modified : Int) : Changes :=
  detect plain (tree content modified) Graph.empty [] [⟨"/a"⟩] data

end Fallback

section Sample

open Fallback

theorem fallback_noticed_sample :
    data.get? ⟨"/a"⟩ = some (FileCheck.fallback plain ⟨"/a"⟩) ∧
      (tree "class A {}" 5).stat ⟨"/a"⟩ = .ok (.file (Text.bytes "class A {}") 5 true) ∧
      plain.TellsMark (Text.bytes "class A {}") ⟨"/a"⟩ ∧
      (changes "class A {}" 5).contains ⟨"/a"⟩ = true := by
  have hrecord : data.get? ⟨"/a"⟩ = some (FileCheck.fallback plain ⟨"/a"⟩) := by decide +kernel
  have hs : (tree "class A {}" 5).stat ⟨"/a"⟩ = .ok (.file (Text.bytes "class A {}") 5 true) := rfl
  have hdigest : plain.TellsMark (Text.bytes "class A {}") ⟨"/a"⟩ := fun h => plain_injective h
  have hnoticed : (changes "class A {}" 5).contains ⟨"/a"⟩ = true ∨ _ :=
    fallback_noticed List.mem_cons_self hrecord hs hdigest
  exact ⟨hrecord, hs, hdigest, hnoticed.resolve_right (by decide +kernel)⟩

/-- The record of an unreadable file passes for a file from before 1970, and for a file whose
content is the mark of its path. -/
theorem fallback_passes :
    Function.Injective plain.hex ∧ data.get? ⟨"/a"⟩ = some (FileCheck.fallback plain ⟨"/a"⟩) ∧
      (tree "class A {}" (-1)).Readable ⟨"/a"⟩ ∧
      (changes "class A {}" (-1)).contains ⟨"/a"⟩ = false ∧
      (tree "unreadable:/a" 5).Readable ⟨"/a"⟩ ∧
      (changes "unreadable:/a" 5).contains ⟨"/a"⟩ = false :=
  ⟨plain_injective, by decide +kernel, ⟨_, rfl⟩, by decide +kernel, ⟨_, rfl⟩, by decide +kernel⟩

end Sample

end Changes

end Recheck
