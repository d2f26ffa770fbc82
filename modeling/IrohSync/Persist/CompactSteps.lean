import IrohSync.Lib.Machine
import IrohSync.Persist.Compaction
import IrohSync.Persist.Session

/-!
# Compaction step by step

The program points of a compaction between its file operations.  Every operation
may succeed or fail, and the program may crash at every point.  While all
operations succeed the steps lead to the result of {lit}`FileChangeStore.compact`.

Beside the files as the program sees them stand the bytes of each that have left
the program's buffer, and those that were synced.  A crash leaves a file as it is
if all of it was synced, and otherwise it may leave anything.

Main results:

- Theorem {lit}`run_ok_eq_compact`: the steps refine the compaction.
- Theorem {lit}`Progress.next`: until the last rename the main log is left alone.
- Theorem {lit}`Synced.next`: what is synced at which point.
- Theorem {lit}`compact_atomic`: the main log at every point of every run.
-/

namespace IrohSync

open FileIo Framing Loop Machine

/-! ## Program points -/

/-- What the copy loop holds between two records. -/
structure CopyState where
  source : Nat
  writer : FileHandle
  pos : Nat
  newOffset : Nat
  recordNumber : Nat

/-- A program point of a compaction, with the values that it holds there. -/
inductive CompactPoint where
  | openSource
  | createTemp (source : Nat)
  | createHeader (source : Nat) (writer : FileHandle)
  | writeHeader (source : Nat) (writer header : FileHandle)
  | copy (c : CopyState)
  | copyFlush (c : CopyState)
  | flush (writer : FileHandle) (newOffset : Nat)
  | finalize (writer : FileHandle) (newOffset : Nat)
  | sync (writer : FileHandle) (newOffset : Nat)
  | renameTemp (newOffset : Nat)
  | renameCompacted (newOffset : Nat)
  | clearIndex (newOffset : Nat)
  | setTail (newOffset : Nat)
  | returned (result : Except Error Nat)

/-- A store and a compaction of it. -/
structure CompactRun where
  store : FileChangeStore
  point : CompactPoint

/-- Put a changed directory in a store. -/
def FileChangeStore.withDisk (s : FileChangeStore) (d : Disk) : FileChangeStore :=
  { s with disk := d }

/-- The next step if its operation succeeds.  The reader looks at the source as it
is at that moment. -/
def CompactRun.proceed (keepFromOffset : Nat) (r : CompactRun) : CompactRun :=
  let s := r.store
  match r.point with
  | .openSource =>
      match s.disk.entries logName with
      | some source => ⟨s, .createTemp source⟩
      | none =>
          ⟨s, .returned (.error (.other ("failed to open source file: " ++
            IoError.missing.message)))⟩
  | .createTemp source =>
      let temp := s.disk.create compactingName
      ⟨s.withDisk temp.1, .createHeader source temp.2⟩
  | .createHeader source writer =>
      let headerFile := s.disk.create compactingName
      ⟨s.withDisk headerFile.1, .writeHeader source writer headerFile.2⟩
  | .writeHeader source writer header =>
      ⟨s.withDisk (IrohSync.writeHeader s.disk header).1, .copy ⟨source, writer, 0, 0, 0⟩⟩
  | .copy c =>
      match (compactLoop keepFromOffset).pass
        ⟨⟨s.disk.content c.source, c.pos⟩, s.disk, c.writer, c.newOffset, c.recordNumber⟩ with
      | .next c' =>
          let copied : CopyState :=
            ⟨c.source, c'.writer, c'.reader.pos, c'.newOffset, c'.recordNumber⟩
          ⟨s.withDisk c'.disk,
            if c'.recordNumber % 10000 = 0 then .copyFlush copied else .copy copied⟩
      | .done (c', .ok ()) => ⟨s.withDisk c'.disk, .flush c'.writer c'.newOffset⟩
      | .done (c', .error e) => ⟨s.withDisk c'.disk, .returned (.error e)⟩
  | .copyFlush c => ⟨s, .copy c⟩
  | .flush writer newOffset => ⟨s, .finalize writer newOffset⟩
  | .finalize writer newOffset => ⟨s, .sync writer newOffset⟩
  | .sync _ newOffset => ⟨s, .renameTemp newOffset⟩
  | .renameTemp newOffset =>
      match s.disk.rename compactingName compactedName with
      | .ok d => ⟨s.withDisk d, .renameCompacted newOffset⟩
      | .error e => ⟨s, .returned (.error (.other ("failed to rename temp: " ++ e.message)))⟩
  | .renameCompacted newOffset =>
      match s.disk.rename compactedName logName with
      | .ok d => ⟨s.withDisk d, .clearIndex newOffset⟩
      | .error e =>
          ⟨s, .returned (.error (.other ("failed to rename compacted: " ++ e.message)))⟩
  | .clearIndex newOffset => ⟨{ s with index := [] }, .setTail newOffset⟩
  | .setTail newOffset => ⟨{ s with tailOffset := newOffset }, .returned (.ok newOffset)⟩
  | .returned result => ⟨s, .returned result⟩

/-- The error that a failing operation is reported with, at the points that do
one. -/
def CompactPoint.failure (e : IoError) : CompactPoint → Option Error
  | .openSource => some (.other ("failed to open source file: " ++ e.message))
  | .createTemp _ => some (.other ("failed to create temp file: " ++ e.message))
  | .createHeader _ _ => some (.other ("failed to create header file: " ++ e.message))
  | .writeHeader _ _ _ => some (.ofIo e)
  | .copy _ => some (.other ("write error: " ++ e.message))
  | .copyFlush _ => some (.other ("flush error: " ++ e.message))
  | .flush _ _ => some (.other ("flush error: " ++ e.message))
  | .finalize _ _ => some (.other ("finalization error: " ++ e.message))
  | .sync _ _ => some (.other ("sync error: " ++ e.message))
  | .renameTemp _ => some (.other ("failed to rename temp: " ++ e.message))
  | .renameCompacted _ => some (.other ("failed to rename compacted: " ++ e.message))
  | .clearIndex _ => none
  | .setTail _ => none
  | .returned _ => none

/-- The handles on the temporary file that a point holds. -/
def CompactPoint.handles : CompactPoint → List FileHandle
  | .createHeader _ writer => [writer]
  | .writeHeader _ writer header => [writer, header]
  | .copy c => [c.writer]
  | .copyFlush c => [c.writer]
  | .flush writer _ => [writer]
  | .finalize writer _ => [writer]
  | .sync writer _ => [writer]
  | _ => []

/-- The directory with some bytes in the temporary file, if a handle is on it. -/
def CompactRun.leaving (r : CompactRun) (left : Bytes) : Disk :=
  match r.point.handles with
  | writer :: _ => r.store.disk.setContent writer.ino left
  | [] => r.store.disk

/-- How the operation of a step ends: it succeeds, it fails and leaves some bytes
in the temporary file, or it is a read that fails, after which the temporary file
is removed. -/
inductive Outcome where
  | ok
  | fail (e : IoError) (left : Bytes)
  | readFails (e : IoError)

/-- One step of a compaction. -/
def CompactRun.next (keepFromOffset : Nat) (r : CompactRun) : Outcome → CompactRun
  | .ok => r.proceed keepFromOffset
  | .fail e left =>
      match r.point.failure e with
      | some err => ⟨r.store.withDisk (r.leaving left), .returned (.error err)⟩
      | none => r.proceed keepFromOffset
  | .readFails e =>
      match r.point with
      | .copy _ =>
          ⟨r.store.withDisk (r.store.disk.remove compactingName),
            .returned (.error (readFailed e))⟩
      | _ => r.proceed keepFromOffset

/-- The steps of a compaction. -/
def compaction (keepFromOffset : Nat) : Machine CompactRun Outcome Unit where
  next := CompactRun.next keepFromOffset
  answer _ _ := ()

/-- A number of steps whose operations all succeed. -/
def CompactRun.proceedFor (keepFromOffset : Nat) (r : CompactRun) (n : Nat) : CompactRun :=
  (CompactRun.proceed keepFromOffset)^[n] r

/-! ## The steps refine the compaction -/

theorem logName_ne_compactingName : logName ≠ compactingName := by
  decide

theorem logName_ne_compactedName : logName ≠ compactedName := by
  decide

@[simp]
theorem withDisk_disk (s : FileChangeStore) (d : Disk) : (s.withDisk d).disk = d :=
  rfl

@[simp]
theorem withDisk_withDisk (s : FileChangeStore) (d d' : Disk) :
    (s.withDisk d).withDisk d' = s.withDisk d' :=
  rfl

theorem proceedFor_add (k : Nat) (r : CompactRun) (m n : Nat) :
    r.proceedFor k (m + n) = (r.proceedFor k m).proceedFor k n := by
  unfold CompactRun.proceedFor
  rw [Nat.add_comm, Function.iterate_add_apply]

/-- What one pass of the copy loop does: it writes some bytes and goes on, or it
ends without an error. -/
theorem compactLoop_pass (k : Nat) (c : Compaction) :
    (∃ c' bytes, (compactLoop k).pass c = .next c' ∧ c'.reader.data = c.reader.data ∧
      (c'.disk, c'.writer) = c.disk.write c.writer bytes) ∨
    (compactLoop k).pass c = .done (c, .ok ()) := by
  simp only [compactLoop]
  cases hread : c.reader.readExact 4 with
  | error e =>
      rw [(Reader.readExact_eq_error hread).1]
      exact Or.inr rfl
  | ok result =>
      rcases result with ⟨lenBuf, reader⟩
      have hreader := (Reader.readExact_eq_ok hread).2.2
      cases hbody : reader.readExact (le.read lenBuf) with
      | error e =>
          right
          obtain rfl := (Reader.readExact_eq_error hbody).1
          simp [IoError.eof, hbody]
      | ok result =>
          rcases result with ⟨changeBuf, reader'⟩
          have hreader' := (Reader.readExact_eq_ok hbody).2.2
          have hdata : reader'.data = c.reader.data := by rw [hreader', hreader]
          left
          simp only [hbody]
          split_ifs
          · refine ⟨_, lenBuf ++ changeBuf, rfl, hdata, ?_⟩
            simp [Disk.write_write]
          · exact ⟨_, [], rfl, hdata, by simp⟩

/-- The steps of the copy loop lead to its result. -/
theorem proceedFor_copy (k : Nat) (s : FileChangeStore) {source : Nat} {c : Compaction}
    (hsource : c.disk.content source = c.reader.data) (hne : source ≠ c.writer.ino) :
    ∃ n c', (compactLoop k).run c = (c', .ok ()) ∧
      CompactRun.proceedFor k ⟨s.withDisk c.disk, .copy
          ⟨source, c.writer, c.reader.pos, c.newOffset, c.recordNumber⟩⟩ n =
        ⟨s.withDisk c'.disk, .flush c'.writer c'.newOffset⟩ := by
  induction hmeasure : (compactLoop k).measure c using Nat.strongRecOn generalizing c with
  | _ measure ih =>
      have hproceed : CompactRun.proceedFor k ⟨s.withDisk c.disk, .copy
          ⟨source, c.writer, c.reader.pos, c.newOffset, c.recordNumber⟩⟩ 1 =
          match (compactLoop k).pass c with
          | .next c' =>
              ⟨s.withDisk c'.disk,
                if c'.recordNumber % 10000 = 0 then
                  .copyFlush ⟨source, c'.writer, c'.reader.pos, c'.newOffset, c'.recordNumber⟩
                else .copy ⟨source, c'.writer, c'.reader.pos, c'.newOffset, c'.recordNumber⟩⟩
          | .done (c', .ok ()) => ⟨s.withDisk c'.disk, .flush c'.writer c'.newOffset⟩
          | .done (c', .error e) => ⟨s.withDisk c'.disk, .returned (.error e)⟩ := by
        simp only [CompactRun.proceedFor, Function.iterate_one, CompactRun.proceed,
          withDisk_disk, withDisk_withDisk, hsource]
      rcases compactLoop_pass k c with ⟨c', bytes, hpass, hdata, hwrite⟩ | hpass
      · have hlt := (compactLoop k).decreases hpass
        have hdisk : c'.disk = (c.disk.write c.writer bytes).1 := congrArg Prod.fst hwrite
        have hwriter : c'.writer = (c.disk.write c.writer bytes).2 := congrArg Prod.snd hwrite
        have hino : c'.writer.ino = c.writer.ino := by rw [hwriter, Disk.write_ino]
        have hsource' : c'.disk.content source = c'.reader.data := by
          rw [hdisk, Disk.content_write_of_ne hne, hsource, hdata]
        rcases ih _ (hmeasure ▸ hlt) hsource' (hino ▸ hne) rfl with ⟨n, c'', hrun, hsteps⟩
        rw [hpass] at hproceed
        have hrun' : (compactLoop k).run c = (c'', .ok ()) := by
          rw [(compactLoop k).run_next c' hpass, hrun]
        by_cases hround : c'.recordNumber % 10000 = 0
        · -- every 10000 records the writer is flushed once more
          refine ⟨1 + (1 + n), c'', hrun', ?_⟩
          rw [proceedFor_add, hproceed]
          simp only [if_pos hround]
          rw [proceedFor_add, ← hsteps]
          rfl
        · refine ⟨1 + n, c'', hrun', ?_⟩
          rw [proceedFor_add, hproceed]
          simp only [if_neg hround]
          exact hsteps
      · refine ⟨1, c, (compactLoop k).run_done _ hpass, ?_⟩
        rw [hproceed, hpass]

/-- The steps behind the copy loop. -/
theorem proceedFor_flush (k : Nat) (s : FileChangeStore) (writer : FileHandle)
    (newOffset : Nat) :
    ∃ n, CompactRun.proceedFor k ⟨s, .flush writer newOffset⟩ n =
      match s.disk.rename compactingName compactedName with
      | .error e =>
          ⟨s, .returned (.error (.other ("failed to rename temp: " ++ e.message)))⟩
      | .ok renamed =>
          match renamed.rename compactedName logName with
          | .error e =>
              ⟨s.withDisk renamed,
                .returned (.error (.other ("failed to rename compacted: " ++ e.message)))⟩
          | .ok replaced =>
              ⟨{ s with disk := replaced, index := [], tailOffset := newOffset },
                .returned (.ok newOffset)⟩ := by
  have hsync : CompactRun.proceedFor k ⟨s, .flush writer newOffset⟩ 3 =
      ⟨s, .renameTemp newOffset⟩ :=
    rfl
  cases htemp : s.disk.rename compactingName compactedName with
  | error e =>
      refine ⟨3 + 1, ?_⟩
      rw [proceedFor_add, hsync]
      simp [CompactRun.proceedFor, CompactRun.proceed, htemp]
  | ok renamed =>
      have hrenamed : CompactRun.proceedFor k ⟨s, .renameTemp newOffset⟩ 1 =
          ⟨s.withDisk renamed, .renameCompacted newOffset⟩ := by
        simp [CompactRun.proceedFor, CompactRun.proceed, htemp]
      cases hcompacted : renamed.rename compactedName logName with
      | error e =>
          refine ⟨3 + (1 + 1), ?_⟩
          rw [proceedFor_add, hsync, proceedFor_add, hrenamed]
          simp [CompactRun.proceedFor, CompactRun.proceed, hcompacted]
      | ok replaced =>
          refine ⟨3 + (1 + 3), ?_⟩
          rw [proceedFor_add, hsync, proceedFor_add, hrenamed]
          simp [CompactRun.proceedFor, CompactRun.proceed, hcompacted,
            FileChangeStore.withDisk]

/-- While all operations succeed the steps lead to the result of the compaction. -/
theorem run_ok_eq_compact (k : Nat) (s : FileChangeStore) :
    ∃ n, CompactRun.proceedFor k ⟨s, .openSource⟩ n =
      ⟨(s.compact k).1, .returned (s.compact k).2⟩ := by
  cases hentry : s.disk.entries logName with
  | none =>
      refine ⟨1, ?_⟩
      have hlog : s.log = none := by
        simp [FileChangeStore.log, Disk.readFile, hentry]
      simp [CompactRun.proceedFor, CompactRun.proceed, hentry, FileChangeStore.compact, hlog]
  | some source =>
      have hlog : s.log = some (s.disk.content source) := Disk.readFile_of_entry hentry
      have hne := logName_ne_compactingName
      rcases s.disk.create_handle compactingName with ⟨htemp, _, hpos, _⟩
      have hkeeps := Disk.keeps_create (d := s.disk) hne
      generalize hcreated : s.disk.create compactingName = temp at *
      rcases temp with ⟨d, writer⟩
      simp only at htemp hpos hkeeps
      have hlogEntry : d.entries logName = some source := hkeeps.entries.trans hentry
      have hino : source ≠ writer.ino := by
        rintro rfl
        exact hne (d.entries_inj hlogEntry htemp)
      have hsecond := Disk.create_of_entry htemp
      generalize hheaded :
        writeHeader (d.setContent writer.ino []) ⟨writer.ino, 0, false⟩ = headed at *
      have hcontent : headed.1.content source = s.disk.content source := by
        rw [← hheaded, writeHeader, Disk.content_write_of_ne (h := ⟨writer.ino, 0, false⟩) hino]
        exact (Function.update_of_ne hino _ _).trans (hkeeps.content source hentry)
      have hstart : CompactRun.proceedFor k ⟨s, .openSource⟩ 4 =
          ⟨s.withDisk headed.1, .copy ⟨source, writer, 0, 0, 0⟩⟩ := by
        simp [CompactRun.proceedFor, CompactRun.proceed, hentry, hcreated, hsecond, hheaded]
      rcases proceedFor_copy k s (c := ⟨⟨s.disk.content source, 0⟩, headed.1, writer, 0, 0⟩)
        hcontent hino with ⟨n, c', hrun, hcopied⟩
      rcases proceedFor_flush k (s.withDisk c'.disk) c'.writer c'.newOffset with ⟨m, hflushed⟩
      refine ⟨4 + (n + m), ?_⟩
      rw [proceedFor_add, hstart, proceedFor_add, hcopied, hflushed]
      simp only [FileChangeStore.compact, hlog, hcreated, hsecond, hheaded, hrun, withDisk_disk]
      cases c'.disk.rename compactingName compactedName with
      | error e => rfl
      | ok renamed =>
          simp only
          cases renamed.rename compactedName logName with
          | error e => rfl
          | ok replaced => rfl

/-! ## The main log at every point -/

/-- The main log has been replaced. -/
def CompactPoint.Replaced : CompactPoint → Prop
  | .clearIndex _ => True
  | .setTail _ => True
  | .returned (.ok _) => True
  | _ => False

/-- A compaction has not touched the main log nor anything else of the store, and
its handles are on the temporary file. -/
structure Intact (before s : FileChangeStore) (p : CompactPoint) : Prop where
  keeps : before.disk.Keeps s.disk logName
  tailOffset : s.tailOffset = before.tailOffset
  index : s.index = before.index
  buffer : s.buffer = before.buffer
  temp : ∀ f ∈ p.handles, s.disk.entries compactingName = some f.ino

/-- Either the log has been replaced or everything is as before. -/
def Progress (before : FileChangeStore) (r : CompactRun) : Prop :=
  r.point.Replaced ∨ Intact before r.store r.point

theorem intact_start (s : FileChangeStore) : Intact s s .openSource where
  keeps := Disk.Keeps.refl _ _
  tailOffset := rfl
  index := rfl
  buffer := rfl
  temp := by simp [CompactPoint.handles]

/-- The main log is not the temporary file. -/
theorem Intact.log_ne {before s : FileChangeStore} {p : CompactPoint} (h : Intact before s p)
    {f : FileHandle} (hf : f ∈ p.handles) : s.disk.entries logName ≠ some f.ino :=
  Disk.entries_ne logName_ne_compactingName (h.temp f hf)

/-- A change of the directory that leaves the main log alone. -/
theorem Intact.withDisk {before s : FileChangeStore} {p p' : CompactPoint} {d : Disk}
    (h : Intact before s p) (hkeeps : s.disk.Keeps d logName)
    (htemp : ∀ f ∈ p'.handles, d.entries compactingName = some f.ino) :
    Intact before (s.withDisk d) p' where
  keeps := h.keeps.trans hkeeps
  tailOffset := h.tailOffset
  index := h.index
  buffer := h.buffer
  temp := htemp

/-- A step that only moves on. -/
theorem Intact.moveOn {before s : FileChangeStore} {p p' : CompactPoint}
    (h : Intact before s p) (hsub : p'.handles ⊆ p.handles) : Intact before s p' :=
  h.withDisk (Disk.Keeps.refl _ _) fun f hf => h.temp f (hsub hf)

/-- One pass of the copy loop. -/
theorem Intact.copy {before s : FileChangeStore} {c : CopyState} (k : Nat)
    (h : Intact before s (.copy c)) : Progress before (CompactRun.proceed k ⟨s, .copy c⟩) := by
  right
  simp only [CompactRun.proceed]
  rcases compactLoop_pass k
    ⟨⟨s.disk.content c.source, c.pos⟩, s.disk, c.writer, c.newOffset, c.recordNumber⟩ with
    ⟨c', bytes, hpass, _, hwrite⟩ | hpass
  · have hdisk : c'.disk = (s.disk.write c.writer bytes).1 := congrArg Prod.fst hwrite
    have hwriter : c'.writer = (s.disk.write c.writer bytes).2 := congrArg Prod.snd hwrite
    have hino : c'.writer.ino = c.writer.ino := by rw [hwriter, Disk.write_ino]
    have htemp : c'.disk.entries compactingName = some c'.writer.ino := by
      rw [hdisk, Disk.write_entries, hino]
      exact h.temp c.writer (List.mem_singleton_self _)
    simp only [hpass]
    refine h.withDisk ?_ ?_
    · rw [hdisk]
      exact Disk.keeps_write (h.log_ne (List.mem_singleton_self _))
    · intro f hf
      have hf' : f = c'.writer := by
        split_ifs at hf <;> exact List.mem_singleton.mp hf
      rw [hf', htemp]
  · simp only [hpass]
    exact h.withDisk (Disk.Keeps.refl _ _) h.temp

/-- A step whose operation succeeds leaves everything as it is, up to the last
rename. -/
theorem Intact.proceed {before : FileChangeStore} (k : Nat) {r : CompactRun}
    (h : Intact before r.store r.point) : Progress before (r.proceed k) := by
  rcases r with ⟨s, p⟩
  cases p with
  | openSource =>
      right
      simp only [CompactRun.proceed]
      cases s.disk.entries logName with
      | none => exact h.moveOn (List.nil_subset _)
      | some source => exact h.moveOn (List.nil_subset _)
  | createTemp source =>
      right
      refine h.withDisk (Disk.keeps_create logName_ne_compactingName) ?_
      intro f hf
      obtain rfl := List.mem_singleton.mp hf
      exact (s.disk.create_handle compactingName).1
  | createHeader source writer =>
      right
      -- the second handle is on the same inode
      have htemp := h.temp writer (List.mem_singleton_self _)
      simp only [CompactRun.proceed, Disk.create_of_entry htemp]
      refine h.withDisk (Disk.keeps_setContent (h.log_ne (List.mem_singleton_self _))) ?_
      intro f hf
      rcases List.mem_cons.mp hf with rfl | hf
      · exact htemp
      · obtain rfl := List.mem_singleton.mp hf
        exact htemp
  | writeHeader source writer header =>
      right
      have hheader : header ∈ (CompactPoint.writeHeader source writer header).handles :=
        List.mem_cons_of_mem _ (List.mem_singleton_self _)
      refine h.withDisk (Disk.keeps_write (h.log_ne hheader)) ?_
      intro f hf
      rw [IrohSync.writeHeader, Disk.write_entries]
      exact h.temp f (List.mem_singleton.mp hf ▸ List.mem_cons_self)
  | copy c => exact h.copy k
  | copyFlush c => exact Or.inr (h.moveOn (List.Subset.refl _))
  | flush writer newOffset => exact Or.inr (h.moveOn (List.Subset.refl _))
  | finalize writer newOffset => exact Or.inr (h.moveOn (List.Subset.refl _))
  | sync writer newOffset => exact Or.inr (h.moveOn (List.nil_subset _))
  | renameTemp newOffset =>
      right
      simp only [CompactRun.proceed]
      cases hrename : s.disk.rename compactingName compactedName with
      | error e => exact h.moveOn (List.nil_subset _)
      | ok d =>
          exact h.withDisk (Disk.keeps_rename logName_ne_compactingName
            logName_ne_compactedName hrename)
            (by simp [CompactPoint.handles])
  | renameCompacted newOffset =>
      simp only [CompactRun.proceed]
      cases s.disk.rename compactedName logName with
      | error e => exact Or.inr (h.moveOn (List.nil_subset _))
      | ok d => exact Or.inl trivial
  | clearIndex newOffset => exact Or.inl trivial
  | setTail newOffset => exact Or.inl trivial
  | returned result => exact Or.inr h

/-- The temporary file may hold anything. -/
theorem Intact.leaving {before : FileChangeStore} {r : CompactRun}
    (h : Intact before r.store r.point) (left : Bytes) :
    r.store.disk.Keeps (r.leaving left) logName := by
  unfold CompactRun.leaving
  split
  · rename_i writer rest hhandles
    exact Disk.keeps_setContent (h.log_ne (hhandles ▸ List.mem_cons_self))
  · exact Disk.Keeps.refl _ _

theorem replaced_proceed (k : Nat) {r : CompactRun} (h : r.point.Replaced) :
    (r.proceed k).point.Replaced := by
  rcases r with ⟨s, p⟩
  cases p with
  | clearIndex newOffset => trivial
  | setTail newOffset => trivial
  | returned result => exact h
  | _ => exact h.elim

/-- Until the log is replaced no step touches it, whether its operation succeeds
or fails. -/
theorem Progress.next {before : FileChangeStore} (k : Nat) {r : CompactRun}
    (h : Progress before r) (outcome : Outcome) : Progress before (r.next k outcome) := by
  have hproceed : Progress before (r.proceed k) := by
    rcases h with hreplaced | hintact
    · exact Or.inl (replaced_proceed k hreplaced)
    · exact hintact.proceed k
  rcases r with ⟨s, p⟩
  cases outcome with
  | ok => exact hproceed
  | fail e left =>
      simp only [CompactRun.next]
      cases hfailure : p.failure e with
      | none => exact hproceed
      | some err =>
          rcases h with hreplaced | hintact
          · cases p with
            | clearIndex newOffset => contradiction
            | setTail newOffset => contradiction
            | returned result => contradiction
            | _ => exact hreplaced.elim
          · exact Or.inr (hintact.withDisk (hintact.leaving left)
              (by simp [CompactPoint.handles]))
  | readFails e =>
      simp only [CompactRun.next]
      cases p with
      | copy c =>
          rcases h with hreplaced | hintact
          · exact hreplaced.elim
          · exact Or.inr (hintact.withDisk (Disk.keeps_remove logName_ne_compactingName)
              (by simp [CompactPoint.handles]))
      | _ => exact hproceed

/-! ## Runs -/

/-- A compaction that has returned stays where it is. -/
theorem run_returned (k : Nat) {r : CompactRun} {result : Except Error Nat}
    (hpoint : r.point = .returned result) (outcomes : List Outcome) :
    (compaction k).run r outcomes = r := by
  have hnext : ∀ outcome, r.next k outcome = r := by
    rcases r with ⟨s, p⟩
    obtain rfl : p = .returned result := hpoint
    intro outcome
    cases outcome <;> rfl
  induction outcomes with
  | nil => rfl
  | cons outcome outcomes ih =>
      have hfirst : (compaction k).next r outcome = r := hnext outcome
      rw [run_cons, hfirst, ih]

theorem proceedFor_returned (k : Nat) {r : CompactRun} {result : Except Error Nat}
    (hpoint : r.point = .returned result) (n : Nat) : r.proceedFor k n = r := by
  have hproceed : r.proceed k = r := by
    rcases r with ⟨s, p⟩
    obtain rfl : p = .returned result := hpoint
    rfl
  exact Function.iterate_fixed hproceed n

/-- A run has either met no failure or has returned an error. -/
theorem run_proceeds (k : Nat) (r : CompactRun) (outcomes : List Outcome) :
    (∃ n, (compaction k).run r outcomes = r.proceedFor k n) ∨
      ∃ e, ((compaction k).run r outcomes).point = .returned (.error e) := by
  induction outcomes generalizing r with
  | nil => exact Or.inl ⟨0, rfl⟩
  | cons outcome outcomes ih =>
      have hnext : r.next k outcome = r.proceed k ∨
          ∃ e, (r.next k outcome).point = .returned (.error e) := by
        cases outcome with
        | ok => exact Or.inl rfl
        | fail e left =>
            simp only [CompactRun.next]
            cases r.point.failure e with
            | none => exact Or.inl rfl
            | some err => exact Or.inr ⟨err, rfl⟩
        | readFails e =>
            simp only [CompactRun.next]
            cases r.point with
            | copy c => exact Or.inr ⟨_, rfl⟩
            | _ => exact Or.inl rfl
      rw [run_cons]
      rcases hnext with hproceed | ⟨e, he⟩
      · have hfirst : (compaction k).next r outcome = r.proceed k := hproceed
        rw [hfirst]
        rcases ih (r.proceed k) with ⟨n, hn⟩ | herror
        · exact Or.inl ⟨n + 1, hn⟩
        · exact Or.inr herror
      · right
        have hfirst : (compaction k).next r outcome = r.next k outcome := rfl
        refine ⟨e, ?_⟩
        rw [hfirst, run_returned k he]
        exact he

/-- Once the log is replaced it is the one that the compaction leaves. -/
theorem log_of_replaced (k : Nat) (s : FileChangeStore) {n : Nat}
    (hreplaced : (CompactRun.proceedFor k ⟨s, .openSource⟩ n).point.Replaced) :
    (∃ m, (s.compact k).2 = .ok m) ∧
      (CompactRun.proceedFor k ⟨s, .openSource⟩ n).store.log = (s.compact k).1.log := by
  rcases run_ok_eq_compact k s with ⟨N, hN⟩
  generalize hr : CompactRun.proceedFor k ⟨s, .openSource⟩ n = r at hreplaced ⊢
  -- two more steps return, and do not touch the directory
  have hreturn : ∃ m, (r.proceedFor k 2).point = .returned (.ok m) ∧
      (r.proceedFor k 2).store.disk = r.store.disk := by
    rcases r with ⟨s', p⟩
    cases p with
    | clearIndex newOffset => exact ⟨newOffset, rfl, rfl⟩
    | setTail newOffset => exact ⟨newOffset, rfl, rfl⟩
    | returned result =>
        cases result with
        | ok m => exact ⟨m, rfl, rfl⟩
        | error e => exact hreplaced.elim
    | _ => exact hreplaced.elim
  rcases hreturn with ⟨m, hpoint, hdisk⟩
  have hend : r.proceedFor k 2 = ⟨(s.compact k).1, .returned (s.compact k).2⟩ := by
    calc
      r.proceedFor k 2 = (r.proceedFor k 2).proceedFor k N :=
        (proceedFor_returned k hpoint N).symm
      _ = CompactRun.proceedFor k ⟨s, .openSource⟩ (N + (n + 2)) := by
        rw [← hr, ← proceedFor_add, ← proceedFor_add]
        congr 1
        omega
      _ = ⟨(s.compact k).1, .returned (s.compact k).2⟩ := by
        rw [proceedFor_add, hN, proceedFor_returned k rfl]
  rw [hend] at hpoint hdisk
  refine ⟨⟨m, by injection hpoint⟩, ?_⟩
  exact congrArg (fun d => Disk.readFile d logName) hdisk.symm

/-! ## Synced files -/

/-- A compaction, with the bytes of each file that have left the buffer of the writer, and
those that were synced. -/
structure DurableRun where
  run : CompactRun
  flushed : Nat → Bytes
  synced : Nat → Bytes

/-- A compaction begins.  What was in the directory before counts as synced. -/
def DurableRun.start (s : FileChangeStore) : DurableRun where
  run := ⟨s, .openSource⟩
  flushed := s.disk.content
  synced := s.disk.content

/-- The bytes that have left the buffer after a step that succeeds: records are copied into
the buffer, and everything else that is written goes to the file at once. -/
def DurableRun.flushedAfter (r : DurableRun) (after : CompactRun) : Nat → Bytes :=
  match r.run.point with
  | .createTemp _ => after.store.disk.content
  | .createHeader _ _ => after.store.disk.content
  | .writeHeader _ _ _ => after.store.disk.content
  | .copyFlush _ => after.store.disk.content
  | .flush _ _ => after.store.disk.content
  | .finalize _ _ => after.store.disk.content
  | _ => r.flushed

/-- The bytes that were synced after a step that succeeds: a sync makes those of one file
durable that have left the buffer. -/
def DurableRun.syncedAfter (r : DurableRun) : Nat → Bytes :=
  match r.run.point with
  | .sync writer _ => Function.update r.synced writer.ino (r.flushed writer.ino)
  | _ => r.synced

/-- One step of a compaction.  An operation that fails makes nothing durable; reads fail in
the copy loop only. -/
def DurableRun.next (keepFromOffset : Nat) (r : DurableRun) (outcome : Outcome) : DurableRun :=
  let after := r.run.next keepFromOffset outcome
  match outcome with
  | .ok => ⟨after, r.flushedAfter after, r.syncedAfter⟩
  | .fail _ _ => ⟨after, r.flushed, r.synced⟩
  | .readFails _ => ⟨after, r.flushedAfter after, r.syncedAfter⟩

/-- The steps of a compaction, with what they make durable. -/
def durably (keepFromOffset : Nat) : Machine DurableRun Outcome Unit where
  next := DurableRun.next keepFromOffset
  answer _ _ := ()

/-- What a crash leaves of the directory.  A file of which not everything was synced may hold
anything. -/
def DurableRun.crashed (r : DurableRun) (left : Nat → Bytes) : Disk :=
  { r.run.store.disk with
    content := fun ino =>
      if r.synced ino = r.run.store.disk.content ino then r.synced ino else left ino }

theorem run_next (k : Nat) (r : DurableRun) (outcome : Outcome) :
    (r.next k outcome).run = r.run.next k outcome := by
  cases outcome <;> rfl

/-- The files as the program sees them do not depend on what is durable. -/
theorem run_durably (k : Nat) (r : DurableRun) (outcomes : List Outcome) :
    ((durably k).run r outcomes).run = (compaction k).run r.run outcomes := by
  induction outcomes generalizing r with
  | nil => rfl
  | cons outcome outcomes ih =>
      refine (ih (r.next k outcome)).trans ?_
      rw [run_next]
      rfl

/-- The file with a name was synced. -/
def DurableRun.SyncedAt (r : DurableRun) (name : String) : Prop :=
  ∀ ino, r.run.store.disk.entries name = some ino →
    r.synced ino = r.run.store.disk.content ino

/-- What is durable at a point: the buffer is empty when the file is synced, the file is
synced when it is renamed, and the log from before stays synced. -/
structure Synced (before : FileChangeStore) (r : DurableRun) : Prop where
  log : ∀ ino, before.disk.entries logName = some ino →
    r.synced ino = before.disk.content ino
  point : match r.run.point with
    | .finalize writer _ => r.flushed writer.ino = r.run.store.disk.content writer.ino
    | .sync writer _ => r.flushed writer.ino = r.run.store.disk.content writer.ino
    | .renameTemp _ => r.SyncedAt compactingName
    | .renameCompacted _ => r.SyncedAt compactedName
    | .clearIndex _ => r.SyncedAt logName
    | .setTail _ => r.SyncedAt logName
    | .returned (.ok _) => r.SyncedAt logName
    | _ => True

theorem synced_start (s : FileChangeStore) : Synced s (.start s) where
  log := fun _ _ => rfl
  point := trivial

/-- A rename keeps a synced file synced. -/
theorem DurableRun.SyncedAt.rename {s : FileChangeStore} {p p' : CompactPoint}
    {flushed synced : Nat → Bytes} {old new : String}
    (h : DurableRun.SyncedAt ⟨⟨s, p⟩, flushed, synced⟩ old) {d : Disk}
    (hrename : s.disk.rename old new = .ok d) :
    DurableRun.SyncedAt ⟨⟨s.withDisk d, p'⟩, flushed, synced⟩ new := by
  rcases Disk.rename_entries hrename with ⟨_, hcontent, hnew, _⟩
  intro ino hino
  have hold : s.disk.entries old = some ino := hnew.symm.trans hino
  exact (h ino hold).trans (congrFun hcontent.symm ino)

/-- The log from before stays synced: what is synced is the temporary file. -/
theorem Synced.log_next {before : FileChangeStore} {r : DurableRun} (h : Synced before r)
    (hprogress : Progress before r.run) :
    ∀ ino, before.disk.entries logName = some ino →
      r.syncedAfter ino = before.disk.content ino := by
  intro ino hino
  have hlog := h.log ino hino
  rcases r with ⟨⟨s, p⟩, flushed, synced⟩
  cases p with
  | sync writer newOffset =>
      rcases hprogress with hreplaced | hintact
      · exact hreplaced.elim
      · have hne : ino ≠ writer.ino := by
          rintro rfl
          exact hintact.log_ne (List.mem_singleton_self _) (hintact.keeps.entries.trans hino)
        exact (Function.update_of_ne hne _ _).trans hlog
  | _ => exact hlog

/-- One step whose operation succeeds. -/
theorem Synced.proceed {before : FileChangeStore} (k : Nat) {r : DurableRun}
    (h : Synced before r) (hprogress : Progress before r.run) :
    Synced before ⟨r.run.proceed k, r.flushedAfter (r.run.proceed k), r.syncedAfter⟩ := by
  refine ⟨h.log_next hprogress, ?_⟩
  have hpoint := h.point
  rcases r with ⟨⟨s, p⟩, flushed, synced⟩
  cases p with
  | openSource =>
      simp only [CompactRun.proceed]
      cases s.disk.entries logName with
      | none => trivial
      | some source => trivial
  | createTemp source => trivial
  | createHeader source writer => trivial
  | writeHeader source writer header => trivial
  | copy c =>
      simp only [CompactRun.proceed]
      rcases compactLoop_pass k
        ⟨⟨s.disk.content c.source, c.pos⟩, s.disk, c.writer, c.newOffset, c.recordNumber⟩ with
        ⟨c', bytes, hpass, _, _⟩ | hpass
      · simp only [hpass]
        split_ifs
        · trivial
        · trivial
      · simp only [hpass]
  | copyFlush c => trivial
  | flush writer newOffset => rfl
  | finalize writer newOffset => rfl
  | sync writer newOffset =>
      -- the name of the temporary file stands for the file that was synced
      have htemp : s.disk.entries compactingName = some writer.ino := by
        rcases hprogress with hreplaced | hintact
        · exact hreplaced.elim
        · exact hintact.temp writer (List.mem_singleton_self _)
      intro ino hino
      obtain rfl := Option.some.inj (htemp.symm.trans hino)
      exact (Function.update_self _ _ _).trans hpoint
  | renameTemp newOffset =>
      simp only [CompactRun.proceed]
      cases hrename : s.disk.rename compactingName compactedName with
      | error e => trivial
      | ok d => exact DurableRun.SyncedAt.rename hpoint hrename
  | renameCompacted newOffset =>
      simp only [CompactRun.proceed]
      cases hrename : s.disk.rename compactedName logName with
      | error e => trivial
      | ok d => exact DurableRun.SyncedAt.rename hpoint hrename
  | clearIndex newOffset => exact hpoint
  | setTail newOffset => exact hpoint
  | returned result =>
      cases result with
      | error e => trivial
      | ok m => exact hpoint

/-- One step, whether its operation succeeds or fails. -/
theorem Synced.next {before : FileChangeStore} (k : Nat) {r : DurableRun} (h : Synced before r)
    (hprogress : Progress before r.run) (outcome : Outcome) :
    Synced before (r.next k outcome) := by
  have hproceed := h.proceed k hprogress
  cases outcome with
  | ok => exact hproceed
  | fail e left =>
      refine ⟨h.log, ?_⟩
      have hpoint := h.point
      rcases r with ⟨⟨s, p⟩, flushed, synced⟩
      simp only [DurableRun.next, CompactRun.next]
      cases hfailure : p.failure e with
      | some err => trivial
      | none =>
          cases p with
          | clearIndex newOffset => exact hpoint
          | setTail newOffset => exact hpoint
          | returned result =>
              cases result with
              | error e => trivial
              | ok m => exact hpoint
          | _ => contradiction
  | readFails e =>
      rcases r with ⟨⟨s, p⟩, flushed, synced⟩
      cases p with
      | copy c => exact ⟨h.log, trivial⟩
      | _ => exact hproceed

theorem synced_run (k : Nat) (s : FileChangeStore) (outcomes : List Outcome) :
    Progress s ((durably k).run (.start s) outcomes).run ∧
      Synced s ((durably k).run (.start s) outcomes) := by
  apply run_invariant (P := fun _ _ => True) (I := fun r => Progress s r.run ∧ Synced s r)
  · intro r outcome h _
    refine ⟨?_, h.2.next k h.1 outcome⟩
    have hnext := h.1.next k outcome
    rwa [← run_next] at hnext
  · exact ⟨Or.inr (intact_start s), synced_start s⟩
  · exact along_trivial _ _

/-- A crash leaves a synced file as it is. -/
theorem DurableRun.readFile_crashed {r : DurableRun} {name : String} (h : r.SyncedAt name)
    (left : Nat → Bytes) :
    (r.crashed left).readFile name = r.run.store.disk.readFile name := by
  unfold Disk.readFile
  change (r.run.store.disk.entries name).map _ = _
  cases hentry : r.run.store.disk.entries name with
  | none => rfl
  | some ino => simp [DurableRun.crashed, h ino hentry]

/-- The main log is synced at every point. -/
theorem Synced.syncedAt {before : FileChangeStore} {r : DurableRun} (h : Synced before r)
    (hprogress : Progress before r.run) : r.SyncedAt logName := by
  have hpoint := h.point
  rcases hprogress with hreplaced | hintact
  · rcases r with ⟨⟨s, p⟩, flushed, synced⟩
    cases p with
    | clearIndex newOffset => exact hpoint
    | setTail newOffset => exact hpoint
    | returned result =>
        cases result with
        | ok m => exact hpoint
        | error e => exact hreplaced.elim
    | _ => exact hreplaced.elim
  · intro ino hino
    have hbefore := hintact.keeps.entries.symm.trans hino
    rw [h.log ino hbefore, hintact.keeps.content ino hbefore]

/-- At every point of a compaction, whatever operations fail and whatever a crash leaves of
files that are not synced, the main log is either the one from before or the whole one that
the compaction leaves.  If an error is returned, the log, the write offset, the index and the
buffer are as before.  The recovery of temporary files leaves the main log of any directory
alone. -/
theorem compact_atomic (s : FileChangeStore) (k : Nat) (outcomes : List Outcome)
    (left : Nat → Bytes) :
    ((((durably k).run (.start s) outcomes).crashed left).readFile logName = s.log ∨
      (∃ m, (s.compact k).2 = .ok m) ∧
        (((durably k).run (.start s) outcomes).crashed left).readFile logName =
          (s.compact k).1.log) ∧
    (∀ e, ((durably k).run (.start s) outcomes).run.point = .returned (.error e) →
      ((durably k).run (.start s) outcomes).run.store.log = s.log ∧
      ((durably k).run (.start s) outcomes).run.store.tailOffset = s.tailOffset ∧
      ((durably k).run (.start s) outcomes).run.store.index = s.index ∧
      ((durably k).run (.start s) outcomes).run.store.buffer = s.buffer) ∧
    ∀ d : Disk, (recoverTempFiles d).readFile logName = d.readFile logName := by
  rcases synced_run k s outcomes with ⟨hprogress, hsynced⟩
  have hruns := run_proceeds k ⟨s, .openSource⟩ outcomes
  have hrun := run_durably k (.start s) outcomes
  have hcrashed := DurableRun.readFile_crashed (hsynced.syncedAt hprogress) left
  rw [hcrashed]
  generalize (durably k).run (.start s) outcomes = r at hprogress hrun ⊢
  rw [DurableRun.start] at hrun
  rw [← hrun] at hruns
  refine ⟨?_, ?_, readFile_recoverTempFiles⟩
  · rcases hprogress with hreplaced | hintact
    · right
      rcases hruns with ⟨n, hn⟩ | ⟨e, he⟩
      · rw [hn] at hreplaced ⊢
        exact log_of_replaced k s hreplaced
      · rw [he] at hreplaced
        exact hreplaced.elim
    · exact Or.inl hintact.keeps.readFile
  · intro e he
    rcases hprogress with hreplaced | hintact
    · rw [he] at hreplaced
      exact hreplaced.elim
    · exact ⟨hintact.keeps.readFile, hintact.tailOffset, hintact.index, hintact.buffer⟩

end IrohSync
