import IrohSync.Persist.ConcurrentCalls

/-!
# Writes through the append handle

A store writes its log through one handle that stays on the inode it was opened
on, whatever name that inode has.  Every write through it adds bytes there and
leaves all other files alone, so a log that was put under the name later is never
written to.

Main results:

- Theorem {lit}`writeRecords_writes`: records are written through the handle only,
  whatever fails.
- Theorem {lit}`written_next`: so are the critical sections of appends and flushes.
- Theorem {lit}`Written.detached`: a log that was replaced is not written to.
-/

namespace IrohSync

open FileIo

/-! ## The inode of the append handle -/

/-- The append handle of a store is on an inode that only the main log may stand
for. -/
structure HandleOn (s : FileChangeStore) (ino : Nat) : Prop where
  handle : ∃ f, s.file = some f ∧ f.append = true ∧ f.ino = ino
  reserved : s.disk.Reserves ino logName

/-- The main log was replaced by a header, and an inode is no longer the one
behind it. -/
structure Detached (s : FileChangeStore) (ino : Nat) : Prop where
  entry : s.disk.entries logName ≠ some ino
  log : s.log = some header

/-! ## Writes of a device -/

/-- Bytes were written through the file of a device. -/
structure Device.Writes (dev dev' : Device) : Prop where
  bytes : ∃ bytes, dev'.disk = (dev.disk.write dev.file bytes).1 ∧
    dev'.file = (dev.disk.write dev.file bytes).2

theorem Device.Writes.refl (dev : Device) : dev.Writes dev :=
  ⟨[], by rw [Disk.write_nil], by rw [Disk.write_nil]⟩

theorem Device.Writes.trans {dev dev' dev'' : Device} (h : dev.Writes dev')
    (h' : dev'.Writes dev'') : dev.Writes dev'' := by
  rcases h.bytes with ⟨front, hdisk, hfile⟩
  rcases h'.bytes with ⟨back, hdisk', hfile'⟩
  rw [hdisk, hfile, Disk.write_write] at hdisk' hfile'
  exact ⟨front ++ back, hdisk', hfile'⟩

theorem Device.writeAll_writes (dev : Device) (bytes : Bytes) :
    dev.Writes (dev.writeAll bytes).1 := by
  unfold Device.writeAll
  split
  · split
    · exact ⟨_, rfl, rfl⟩
    · exact ⟨_, rfl, rfl⟩
  · exact ⟨_, rfl, rfl⟩

/-- Records are written through the file, however many of them. -/
theorem writeRecords_writes (bc : Bincode) (dev : Device) (cs : List Change) :
    dev.Writes (writeRecords bc dev cs).1 := by
  induction cs generalizing dev with
  | nil => exact .refl dev
  | cons c rest ih =>
      unfold writeRecords
      cases bc.serialize c with
      | error e => exact .refl dev
      | ok bytes =>
          have hlength := dev.writeAll_writes (le.write bytes.length)
          rcases hfirst : dev.writeAll (le.write bytes.length) with ⟨dev₁, result₁⟩
          rw [hfirst] at hlength
          cases result₁ with
          | error e => simpa only [hfirst] using hlength
          | ok u =>
              have hbody := dev₁.writeAll_writes bytes
              rcases hsecond : dev₁.writeAll bytes with ⟨dev₂, result₂⟩
              rw [hsecond] at hbody
              cases result₂ with
              | error e => simpa only [hfirst, hsecond] using hlength.trans hbody
              | ok u => simpa only [hfirst, hsecond] using (hlength.trans hbody).trans (ih dev₂)

/-! ## Writes of a store -/

/-- Bytes were written through the append handle of a store, and nothing else was
done to its directory. -/
structure Written (s s' : FileChangeStore) : Prop where
  bytes : ∀ f, s.file = some f → ∃ bytes, s'.disk = (s.disk.write f bytes).1 ∧
    s'.file = some (s.disk.write f bytes).2

theorem Written.of_eq {s s' : FileChangeStore} (hdisk : s'.disk = s.disk)
    (hfile : s'.file = s.file) : Written s s' where
  bytes f hf := ⟨[], by rw [hdisk, Disk.write_nil], by rw [hfile, hf, Disk.write_nil]⟩

theorem written_writeTaken (fault : IoFault) (bc : Bincode) (s : FileChangeStore)
    (changes : List Change) : Written s (s.writeTaken fault bc changes).1 where
  bytes f hf := by
    rcases (writeRecords_writes bc ⟨s.disk, f, fault⟩ changes).bytes with ⟨bytes, hdisk, hfile⟩
    refine ⟨bytes, ?_⟩
    unfold FileChangeStore.writeTaken
    simp only [hf]
    cases hwritten : (writeRecords bc ⟨s.disk, f, fault⟩ changes).2 with
    | error e => exact ⟨hdisk, congrArg some hfile⟩
    | ok u =>
        simp only
        split_ifs
        · exact ⟨hdisk, congrArg some hfile⟩
        · exact ⟨hdisk, congrArg some hfile⟩
        · exact ⟨hdisk, congrArg some hfile⟩
        · exact ⟨hdisk, congrArg some hfile⟩

/-- A flush writes through the append handle. -/
theorem written_flushUnder (fault : IoFault) (bc : Bincode) (s : FileChangeStore) :
    Written s (s.flushUnder fault bc).1 := by
  rw [flushUnder_eq_writeTaken]
  split_ifs
  · exact .of_eq rfl rfl
  · exact ⟨(written_writeTaken fault bc { s with buffer := [] } s.buffer).bytes⟩

/-- A critical section of an append or a flush writes through the append handle. -/
theorem written_next (bc : Bincode) (st : ConcurrentStore) (e : CriticalSection) :
    Written st.store (st.next bc e).store := by
  cases e with
  | takeOffset c => exact .of_eq rfl rfl
  | push i =>
      simp only [ConcurrentStore.next]
      split
      · exact .of_eq rfl rfl
      · exact .of_eq rfl rfl
  | takeBuffer =>
      simp only [ConcurrentStore.next]
      split_ifs
      · exact .of_eq rfl rfl
      · exact .of_eq rfl rfl
  | write i fault =>
      simp only [ConcurrentStore.next]
      split
      · exact .of_eq rfl rfl
      · exact written_writeTaken fault bc st.store _

/-! ## What they leave alone -/

theorem Written.entries {s s' : FileChangeStore} {ino : Nat} (h : Written s s')
    (hon : HandleOn s ino) : s'.disk.entries = s.disk.entries := by
  rcases hon.handle with ⟨f, hf, _⟩
  rcases h.bytes f hf with ⟨bytes, hdisk, _⟩
  rw [hdisk, Disk.write_entries]

theorem Written.handleOn {s s' : FileChangeStore} {ino : Nat} (h : Written s s')
    (hon : HandleOn s ino) : HandleOn s' ino := by
  rcases hon.handle with ⟨f, hf, happend, hino⟩
  rcases h.bytes f hf with ⟨bytes, hdisk, hfile⟩
  refine ⟨⟨_, hfile, ?_, ?_⟩, hdisk ▸ hon.reserved.write f bytes⟩
  · rw [Disk.write_append, happend]
  · rw [Disk.write_ino, hino]

/-- A file of another inode is left alone. -/
theorem Written.keeps {s s' : FileChangeStore} {ino : Nat} (h : Written s s')
    (hon : HandleOn s ino) {name : String} (hne : s.disk.entries name ≠ some ino) :
    s.disk.Keeps s'.disk name := by
  rcases hon.handle with ⟨f, hf, _, rfl⟩
  rcases h.bytes f hf with ⟨bytes, hdisk, _⟩
  rw [hdisk]
  exact Disk.keeps_write hne

/-- The log only grows. -/
theorem Written.log {s s' : FileChangeStore} {ino : Nat} (h : Written s s')
    (hon : HandleOn s ino) {data : Bytes} (hlog : s.log = some data) :
    ∃ bytes, s'.log = some (data ++ bytes) := by
  by_cases hentry : s.disk.entries logName = some ino
  · rcases hon.handle with ⟨f, hf, happend, rfl⟩
    rcases h.bytes f hf with ⟨bytes, hdisk, _⟩
    rw [FileChangeStore.log, Disk.readFile_of_entry hentry, Option.some.injEq] at hlog
    refine ⟨bytes, ?_⟩
    have hentry' : s'.disk.entries logName = some f.ino := by
      rw [hdisk, Disk.write_entries, hentry]
    rw [FileChangeStore.log, Disk.readFile_of_entry hentry', hdisk,
      Disk.content_write_append happend, hlog]
  · refine ⟨[], ?_⟩
    rw [List.append_nil, ← hlog]
    exact (h.keeps hon hentry).readFile

/-- A log that was replaced is not written to. -/
theorem Written.detached {s s' : FileChangeStore} {ino : Nat} (h : Written s s')
    (hon : HandleOn s ino) (hdetached : Detached s ino) : Detached s' ino where
  entry := by
    rw [h.entries hon]
    exact hdetached.entry
  log := (h.keeps hon hdetached.entry).readFile.trans hdetached.log

end IrohSync
