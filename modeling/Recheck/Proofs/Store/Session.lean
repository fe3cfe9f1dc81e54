import Recheck.Proofs.Store
import Recheck.Proofs.Store.Disk

/-!
# Using a store on disk

A session opens the store of a cache directory, changes and flushes it. A flush can fail because of
what is in the way, and at every step because the system refuses to go on, say since the disk is
full when a part of the file is written. The store that would be opened at any time holds what the
store held when it was last flushed with success, or when it was opened (`openIn_run`). This is not
so if the cache directory is not usable (`openIn_run_unusable`). If its path steps back by `..` from
a directory that is missing, a flush makes this directory, even one that fails later, and then the
path can lead to another store. If the file beside the store file cannot be read, neither can the
store file that is made of it.

A tree has no links, so nothing is said of a cache directory with one. A link beside the store file
that leads to it would be moved to its place and then lead to itself.
-/

namespace Recheck.Store

/-! ## Calls -/

/-- A call that changes a store. -/
inductive Call where
  | put (p : Path) (r : Record)
  | setHash (p : Path) (hash : String)
  | setModified (p : Path) (time : Int)
  | remove (p : Path)
  | setPending (paths : List Path)
  | saveMetadata (m : RunMetadata)

namespace Call

/-- The store after a call. -/
def apply (s : Store) : Call → Store
  | put p r => s.put p r
  | setHash p hash => s.setHash p hash
  | setModified p time => s.setModified p time
  | remove p => s.remove p
  | setPending paths => s.setPending paths
  | saveMetadata m => s.saveMetadata m

/-- Times and counts have 64 bits, and years can be read. -/
def InRange : Call → Prop
  | put _ r => r.InRange
  | setModified _ time => TimeInRange time
  | saveMetadata m => m.InRange
  | _ => True

/-- A call changes the store, which is noted, or leaves it as it is. -/
theorem apply_cases (c : Call) (s : Store) : c.apply s = s ∨ ∃ d, c.apply s = s.change d := by
  cases c with
  | put p r => exact .inr ⟨_, rfl⟩
  | setHash p hash => exact .inr ⟨_, rfl⟩
  | setModified p time =>
    simp only [apply, Store.setModified]
    cases s.hash? p with
    | none => exact .inl rfl
    | some hash => exact .inr ⟨_, rfl⟩
  | remove p =>
    simp only [apply, Store.remove]
    split
    · exact .inr ⟨_, rfl⟩
    · exact .inl rfl
  | setPending paths =>
    simp only [apply, Store.setPending]
    split
    · exact .inl rfl
    · exact .inr ⟨_, rfl⟩
  | saveMetadata m => exact .inr ⟨_, rfl⟩

/-- Stores with the same content have the same content after a call. -/
theorem data_congr (c : Call) {s s' : Store} (h : s.data = s'.data) :
    (c.apply s).data = (c.apply s').data := by
  obtain ⟨data, file⟩ := s
  obtain ⟨data', file'⟩ := s'
  obtain rfl : data = data' := h
  cases c with
  | put p r => rfl
  | setHash p hash => rfl
  | setModified p time =>
    have hhash : hash? ⟨data, file⟩ p = hash? ⟨data, file'⟩ p := rfl
    simp only [apply, Store.setModified, hhash]
    cases hash? ⟨data, file'⟩ p <;> rfl
  | remove p =>
    simp only [apply, Store.remove]
    split <;> rfl
  | setPending paths =>
    simp only [apply, Store.setPending]
    split <;> rfl
  | saveMetadata m => rfl

theorem inRange_put {d : StoreData} (hd : d.InRange) {r : Record} (hr : r.InRange) (key : String) :
    StoreData.InRange { d with files := d.files.put key r } := by
  refine ⟨fun e he => ?_, hd.metadata⟩
  have hget := Table.mem_entries.mp (show (e.1, e.2) ∈ (d.files.put key r).entries from he)
  rw [Table.get?_put] at hget
  split at hget
  · rw [← Option.some.inj hget]
    exact hr
  · exact hd.files e (Table.mem_entries.mpr hget)

/-- Calls keep the bounds of the written form. -/
theorem inRange_apply {c : Call} (hc : c.InRange) {s : Store} (hs : s.data.InRange) :
    (c.apply s).data.InRange := by
  cases c with
  | put p r => exact inRange_put hs hc p.shown
  | setHash p hash =>
    refine inRange_put hs ?_ p.shown
    have htime : TimeInRange ((s.modified? p).getD 0) := by
      rw [modified?, Store.get?]
      cases hget : s.data.get? p with
      | none => exact ⟨by decide, by decide⟩
      | some r => exact hs.files (p.shown, r) (Table.mem_entries.mpr hget)
    exact htime
  | setModified p time =>
    have htime : TimeInRange time := hc
    simp only [apply, Store.setModified]
    cases s.hash? p with
    | none => exact hs
    | some hash => exact inRange_put hs (r := ⟨hash, time⟩) htime p.shown
  | remove p =>
    simp only [apply, Store.remove]
    split
    · exact ⟨fun e he => hs.files e (List.mem_of_mem_filter he), hs.metadata⟩
    · exact hs
  | setPending paths =>
    simp only [apply, Store.setPending]
    split
    · exact hs
    · exact ⟨hs.files, hs.metadata⟩
  | saveMetadata m =>
    refine ⟨hs.files, fun m' hm' => ?_⟩
    obtain rfl : m = m' := Option.some.inj hm'
    exact hc

end Call

/-! ## Sessions -/

/-- A store in use. -/
structure Session where
  tree : FileTree
  store : Store
  /-- A store in memory with the same content at the start and the same calls. -/
  mirror : Store
  /-- The content of the store when it was last flushed with success, or opened. -/
  saved : StoreData

/-- What can happen in a session. -/
inductive Event where
  | call (c : Call)
  /-- A flush, to which the system may put an end. -/
  | flush (refusal : Option Refusal)

/-- Calls stay within the bounds of the written form. -/
def Event.InRange : Event → Prop
  | call c => c.InRange
  | flush _ => True

namespace Session

/-- The session that opens the store in a cache directory. -/
def start (t : FileTree) (dir : Path) : Session where
  tree := t
  store := openIn t dir
  mirror := { data := (openIn t dir).data }
  saved := (openIn t dir).data

/-- The session after an event. -/
def step (s : Session) : Event → Session
  | .call c => { s with store := c.apply s.store, mirror := c.apply s.mirror }
  | .flush refusal =>
    match Store.flush s.tree s.store refusal with
    | (t, .ok store) => { s with tree := t, store, saved := store.data }
    | (t, .error _) => { s with tree := t }

/-- The session after some events. -/
def run (s : Session) (events : List Event) : Session := events.foldl step s

/-- What holds throughout a session. -/
structure Sound (dir : Path) (s : Session) : Prop where
  usable : Usable dir s.tree
  load_eq : load s.tree (fileIn dir) = s.saved
  /-- Unless a change was noted, the store is as it was saved. -/
  file_eq : ∃ dirty, s.store.file = some ⟨fileIn dir, dirty⟩ ∧
    (dirty = false → s.store.data = s.saved)
  inRange : s.store.data.InRange
  mirror_eq : s.mirror.data = s.store.data

theorem sound_start {t : FileTree} {dir : Path} (ht : Usable dir t) : Sound dir (start t dir) where
  usable := ht
  load_eq := rfl
  file_eq := ⟨false, rfl, fun _ => rfl⟩
  inRange := inRange_load t (fileIn dir)
  mirror_eq := rfl

section Steps

variable {dir : Path} {s : Session} (h : Sound dir s)
include h

theorem Sound.call {c : Call} (hc : c.InRange) : Sound dir (s.step (.call c)) where
  usable := h.usable
  load_eq := h.load_eq
  file_eq := by
    obtain ⟨dirty, hfile, hclean⟩ := h.file_eq
    simp only [step]
    rcases c.apply_cases s.store with hsame | ⟨d, hchange⟩
    · rw [hsame]
      exact ⟨dirty, hfile, hclean⟩
    · rw [hchange, change, hfile]
      exact ⟨true, rfl, fun hfalse => by cases hfalse⟩
  inRange := Call.inRange_apply hc h.inRange
  mirror_eq := c.data_congr h.mirror_eq

/-- After a flush the store file holds the store if the flush succeeded, and what it held before
otherwise. -/
theorem Sound.load_flush {refusal : Option Refusal} {t : FileTree}
    {result : Except StoreError Store}
    (hflush : Store.flush s.tree s.store refusal = (t, result)) :
    Usable dir t ∧ load t (fileIn dir) = if result.isOk then s.store.data else s.saved := by
  obtain ⟨dirty, hfile, hclean⟩ := h.file_eq
  rw [Store.flush, hfile] at hflush
  dsimp only at hflush
  split at hflush
  · rw [← h.load_eq]
    exact load_writeTo h.usable h.inRange hflush
  · next hdirty =>
    -- Nothing has changed, so the store is as it was saved.
    obtain ⟨rfl, rfl⟩ := Prod.mk.inj hflush
    exact ⟨h.usable, h.load_eq.trans (hclean (Bool.eq_false_iff.mpr hdirty)).symm⟩

theorem Sound.flush_ok {refusal : Option Refusal} {t : FileTree} {store : Store}
    (hflush : Store.flush s.tree s.store refusal = (t, .ok store)) :
    store = { s.store with file := some ⟨fileIn dir, false⟩ } := by
  obtain ⟨dirty, hfile, -⟩ := h.file_eq
  rw [Store.flush, hfile] at hflush
  dsimp only at hflush
  split at hflush
  · exact writeTo_ok hflush
  · next hdirty =>
    rw [Bool.not_eq_true] at hdirty
    rw [← hdirty, ← hfile]
    exact (Except.ok.inj (Prod.mk.inj hflush).2).symm

theorem Sound.flush (refusal : Option Refusal) : Sound dir (s.step (.flush refusal)) := by
  rw [step]
  split
  · next t store hflush =>
    obtain ⟨husable, hload⟩ := h.load_flush hflush
    obtain rfl := h.flush_ok hflush
    exact ⟨husable, hload, ⟨false, rfl, fun _ => rfl⟩, h.inRange, h.mirror_eq⟩
  · next t e hflush =>
    obtain ⟨husable, hload⟩ := h.load_flush hflush
    exact ⟨husable, hload, h.file_eq, h.inRange, h.mirror_eq⟩

theorem Sound.step {event : Event} (hevent : event.InRange) : Sound dir (s.step event) := by
  cases event with
  | call c => exact h.call hevent
  | flush refusal => exact h.flush refusal

/-- What holds at the start of a session holds at its end. -/
theorem Sound.run {events : List Event} (hevents : ∀ event ∈ events, event.InRange) :
    Sound dir (s.run events) := by
  induction events generalizing s with
  | nil => exact h
  | cons event events ih =>
    exact ih (h.step (hevents event List.mem_cons_self)) fun event' hevent' =>
      hevents event' (List.mem_cons_of_mem _ hevent')

end Steps

end Session

/-- After any session that starts in a tree with a usable cache directory, whatever flushes failed
in it:
* the store that would be opened holds what was last flushed with success, or opened;
* if another flush succeeds, the store that would then be opened holds the present content;
* the store answers as one in memory with the same calls. -/
theorem openIn_run {t : FileTree} {dir : Path} (ht : Usable dir t) {events : List Event}
    (hevents : ∀ event ∈ events, event.InRange) {s : Session}
    (hs : (Session.start t dir).run events = s) :
    (openIn s.tree dir).data = s.saved ∧
      (∀ refusal t' store, flush s.tree s.store refusal = (t', .ok store) →
        store.data = s.store.data ∧ (openIn t' dir).data = s.store.data) ∧
      (∀ p, s.store.get? p = s.mirror.get? p) ∧ s.store.paths = s.mirror.paths ∧
      s.store.pending = s.mirror.pending ∧ s.store.data.metadata = s.mirror.data.metadata := by
  have hsound : s.Sound dir := hs ▸ (Session.sound_start ht).run hevents
  refine ⟨hsound.load_eq, fun refusal t' store hflush => ?_, fun p => ?_, ?_, ?_, ?_⟩
  · exact ⟨data_flush hflush, (hsound.load_flush hflush).2⟩
  · rw [get?, get?, hsound.mirror_eq]
  · rw [paths, paths, hsound.mirror_eq]
  · rw [pending, pending, hsound.mirror_eq]
  · rw [hsound.mirror_eq]

deriving instance DecidableEq for Table, StoreData

namespace Scenario

/-- A store file with a record, which is not in the form in which it is written. -/
def laidOut : FileTree where
  entries :=
    [(["sub"], .dir 0), (["cache"], .dir 0),
      (["cache", "cache.json"],
        .file (Text.bytes "[1, \x7b\"/x\": [\"aa\", 5]\x7d, null]") 0 true)]

def cacheDir : Path := ⟨"sub/../cache"⟩

/-- The disk is full after some bytes. -/
def fullAfter (count : Nat) : Refusal := ⟨.writeDraft count, .noSpace⟩

/-- Two flushes that are cut off, one that succeeds, one that is refused, and a change after it. -/
def retried : List Event :=
  [.call (.put ⟨"/a"⟩ ⟨"00", 1⟩), .flush (some (fullAfter 7)),
    .flush (some ⟨.moveDraft, .permissionDenied⟩), .call (.setPending [⟨"/b"⟩]), .flush none,
    .call (.remove ⟨"/x"⟩), .flush (some (fullAfter 0)), .call (.remove ⟨"/a"⟩)]

def afterRetries : Session := (Session.start laidOut cacheDir).run retried

end Scenario

open Scenario in
theorem openIn_run_retried :
    Usable cacheDir laidOut ∧ (openIn afterRetries.tree cacheDir).data = afterRetries.saved ∧
      afterRetries.tree.read (draftOf (fileIn cacheDir)) = .ok [] ∧
      afterRetries.saved.paths = [⟨"/a"⟩, ⟨"/x"⟩] ∧ afterRetries.saved.pendingPaths = [⟨"/b"⟩] ∧
      afterRetries.store.paths = [] ∧ afterRetries.store.paths = afterRetries.mirror.paths := by
  have husable : Usable cacheDir laidOut := by decide +kernel
  have hevents : ∀ event ∈ retried, event.InRange := by
    simp [retried, Event.InRange, Call.InRange, Record.InRange, TimeInRange]
  have hafter : (Session.start laidOut cacheDir).run retried = afterRetries := rfl
  obtain ⟨hopen, -, -, hpaths, -⟩ := openIn_run husable hevents hafter
  exact ⟨husable, hopen, by decide +kernel, by decide +kernel, by decide +kernel,
    by decide +kernel, hpaths⟩

namespace Scenario

/-- A store with a record, and a directory in the way of the next one. -/
def oldStore : FileTree where
  entries :=
    [(["old"], .dir 0),
      (["old", "cache.json"],
        .file (Text.bytes "[1, \x7b\"/x\": [\"aa\", 5]\x7d, null]") 0 true),
      (["old", "cache.json.tmp"], .dir 0)]

/-- The path leads nowhere, until a flush makes the directory `new`. -/
def backDir : Path := ⟨"new/../old"⟩

/-- No store, and a file in its way that can be written but not read. -/
def hiddenDraft : FileTree where
  entries :=
    [(["sub"], .dir 0), (["cache"], .dir 0), (["cache", "cache.json.tmp"], .file [] 0 false)]

def putAndFlush : List Event := [.call (.put ⟨"/y"⟩ ⟨"bb", 7⟩), .flush none]

def afterBack : Session := (Session.start oldStore backDir).run putAndFlush

def afterHidden : Session := (Session.start hiddenDraft cacheDir).run putAndFlush

end Scenario

open Scenario in
/-- In the first session the flush fails, in the second it succeeds. -/
theorem openIn_run_unusable :
    (¬ oldStore.Settled backDir ∧ afterBack.saved.paths = [] ∧
      (openIn afterBack.tree backDir).paths = [⟨"/x"⟩]) ∧
    (draftReadable hiddenDraft cacheDir = false ∧ afterHidden.saved.paths = [⟨"/y"⟩] ∧
      (openIn afterHidden.tree cacheDir).paths = []) := by
  decide +kernel

end Recheck.Store
