import IrohSync.Persist.LogFormat

/-!
# Sessions of a store

One theorem for each operation of an open store, under any fault of its device:
what reaches the main log, what stays buffered and what is returned.  Runs of
appends and flushes, and histories of sessions that open, use and close a store,
follow by induction.

Main results:

- Theorems {lit}`flushUnder_of_admits` and {lit}`flushUnder_of_write_lt`: a flush
  whose bytes all reach the file, and one that is cut short.
- Theorem {lit}`new_logBytes`: opening a well-formed or missing log.
- Theorem {lit}`runOps_spec`: any run of appends and flushes.
- Theorem {lit}`getSince_zero_logBytes`: a read from offset 0.
- Theorem {lit}`not_readsBack_torn`: a log that ends inside a record.
-/

namespace IrohSync

open FileIo Framing Loop

/-! ## The append file -/

/-- The append file of a store is open, is the main log and holds these bytes. -/
structure OpenOn (s : FileChangeStore) (data : Bytes) : Prop where
  handle : ∃ f, s.file = some f ∧ f.append = true ∧ s.disk.entries logName = some f.ino ∧
    s.disk.content f.ino = data

theorem OpenOn.log {s : FileChangeStore} {data : Bytes} (h : OpenOn s data) :
    s.log = some data := by
  rcases h.handle with ⟨f, _, _, hentry, hcontent⟩
  rw [FileChangeStore.log, Disk.readFile_of_entry hentry, hcontent]

/-- Bytes written through the append file of a store go to the end of its log. -/
theorem OpenOn.write {s : FileChangeStore} {data : Bytes} {f : FileHandle}
    (hopen : OpenOn s data) (hfile : s.file = some f) (bytes : Bytes) (s' : FileChangeStore)
    (hdisk : s'.disk = (s.disk.write f bytes).1)
    (hfile' : s'.file = some (s.disk.write f bytes).2) :
    OpenOn s' (data ++ bytes) := by
  rcases hopen.handle with ⟨g, hg, happend, hentry, hcontent⟩
  have hfg : g = f := Option.some.inj (hg.symm.trans hfile)
  subst g
  refine ⟨_, hfile', by simpa using happend, ?_, ?_⟩
  · simpa [hdisk] using hentry
  · rw [hdisk, Disk.write_ino, Disk.content_write_append happend, hcontent]

/-! ## Faults -/

/-- A fault lets a number of bytes through. -/
def IoFault.Admits (fault : IoFault) (n : Nat) : Prop :=
  match fault with
  | .write reached => n ≤ reached
  | _ => True

/-- What is left of a fault after a number of bytes. -/
def IoFault.after (fault : IoFault) (n : Nat) : IoFault :=
  match fault with
  | .write reached => .write (reached - n)
  | other => other

theorem IoFault.admits_add {fault : IoFault} {m n : Nat} :
    fault.Admits (m + n) ↔ fault.Admits m ∧ (fault.after m).Admits n := by
  cases fault with
  | write reached =>
      simp only [Admits, after]
      omega
  | none => simp [Admits, after]
  | flush => simp [Admits, after]
  | sync => simp [Admits, after]

theorem IoFault.after_add (fault : IoFault) (m n : Nat) :
    fault.after (m + n) = (fault.after m).after n := by
  cases fault <;> simp [after, Nat.sub_sub]

theorem IoFault.admits_none (n : Nat) : IoFault.none.Admits n :=
  trivial

/-- A write that a fault lets through. -/
theorem Device.writeAll_of_admits (dev : Device) (bytes : Bytes)
    (hadmits : dev.fault.Admits bytes.length) :
    dev.writeAll bytes =
      (⟨(dev.disk.write dev.file bytes).1, (dev.disk.write dev.file bytes).2,
        dev.fault.after bytes.length⟩, .ok ()) := by
  rcases dev with ⟨d, f, fault⟩
  cases fault with
  | write reached => simp [writeAll, IoFault.after, Nat.not_lt.mpr hadmits]
  | none => rfl
  | flush => rfl
  | sync => rfl

/-- A write that a fault cuts short. -/
theorem Device.writeAll_of_lt (d : Disk) (f : FileHandle) {reached : Nat} {bytes : Bytes}
    (hlt : reached < bytes.length) :
    Device.writeAll ⟨d, f, .write reached⟩ bytes =
      (⟨(d.write f (bytes.take reached)).1, (d.write f (bytes.take reached)).2, .write 0⟩,
        .error .full) := by
  simp [writeAll, hlt]

/-- Records whose bytes a fault lets through are written one after the other. -/
theorem writeRecords_of_admits {bc : Bincode} {cs : List Change} {rs : List Record}
    (henc : Encodes bc cs rs) (d : Disk) (f : FileHandle) {fault : IoFault}
    (hadmits : fault.Admits (recordBytes rs).length) :
    writeRecords bc ⟨d, f, fault⟩ cs =
      (⟨(d.write f (recordBytes rs)).1, (d.write f (recordBytes rs)).2,
        fault.after (recordBytes rs).length⟩, .ok ()) := by
  induction henc generalizing d f fault with
  | nil => cases fault <;> simp [writeRecords, IoFault.after]
  | @cons c r cs rs hc _ ih =>
      rw [recordBytes_cons, List.length_append, frame_length, Nat.add_assoc,
        IoFault.admits_add, IoFault.admits_add] at hadmits
      rcases hadmits with ⟨hlength, hbody, hrest⟩
      rw [← le.length_write r.bytes.length] at hlength
      have hwriteLength := Device.writeAll_of_admits ⟨d, f, fault⟩ _ hlength
      rw [le.length_write] at hwriteLength
      have hwriteBody := Device.writeAll_of_admits ⟨(d.write f (le.write r.bytes.length)).1,
        (d.write f (le.write r.bytes.length)).2, fault.after 4⟩ r.bytes hbody
      simp only [writeRecords, hc, hwriteLength, hwriteBody, ih _ _ hrest, Disk.write_write]
      simp [frame, IoFault.after_add, le.length_write]

/-- Records that a fault cuts short leave their first bytes in the file. -/
theorem writeRecords_of_write_lt {bc : Bincode} {cs : List Change} {rs : List Record}
    (henc : Encodes bc cs rs) (d : Disk) (f : FileHandle) {reached : Nat}
    (hlt : reached < (recordBytes rs).length) :
    ∃ e, writeRecords bc ⟨d, f, .write reached⟩ cs =
      (⟨(d.write f ((recordBytes rs).take reached)).1,
        (d.write f ((recordBytes rs).take reached)).2, .write 0⟩, .error e) := by
  induction henc generalizing d f reached with
  | nil => simp at hlt
  | @cons c r cs rs hc _ ih =>
      have hbytes : recordBytes (r :: rs) =
          le.write r.bytes.length ++ (r.bytes ++ recordBytes rs) := by
        rw [recordBytes_cons, frame, List.append_assoc]
      by_cases hlength : reached < 4
      · -- the cut falls into the length prefix
        rw [← le.length_write r.bytes.length] at hlength
        have hfail := Device.writeAll_of_lt d f hlength
        refine ⟨flushFailed .full, ?_⟩
        rw [hbytes, List.take_append_of_le_length (Nat.le_of_lt hlength)]
        simp only [writeRecords, hc, hfail]
      · have hwriteLength := Device.writeAll_of_admits ⟨d, f, .write reached⟩
          (le.write r.bytes.length) (by simp only [IoFault.Admits, le.length_write]; omega)
        rw [le.length_write] at hwriteLength
        have htake : (recordBytes (r :: rs)).take reached =
            le.write r.bytes.length ++ (r.bytes ++ recordBytes rs).take (reached - 4) := by
          rw [hbytes, List.take_append, le.length_write, List.take_of_length_le]
          rw [le.length_write]
          omega
        by_cases hbody : reached - 4 < r.bytes.length
        · -- the cut falls into the body
          have hfail := Device.writeAll_of_lt (d.write f (le.write r.bytes.length)).1
            (d.write f (le.write r.bytes.length)).2 hbody
          refine ⟨flushFailed .full, ?_⟩
          rw [htake, List.take_append_of_le_length (by omega)]
          simp only [writeRecords, hc, hwriteLength, IoFault.after, hfail, Disk.write_write]
        · -- the cut falls behind this record
          have hwriteBody := Device.writeAll_of_admits
            ⟨(d.write f (le.write r.bytes.length)).1, (d.write f (le.write r.bytes.length)).2,
              .write (reached - 4)⟩ r.bytes (Nat.le_of_not_lt hbody)
          rw [recordBytes_cons, List.length_append, frame_length] at hlt
          have hltRest : reached - 4 - r.bytes.length < (recordBytes rs).length := by omega
          rcases ih (d.write f (le.write r.bytes.length ++ r.bytes)).1
            (d.write f (le.write r.bytes.length ++ r.bytes)).2 hltRest with ⟨e, hrest⟩
          refine ⟨e, ?_⟩
          rw [htake, List.take_append, List.take_of_length_le (by omega)]
          simp only [writeRecords, hc, hwriteLength, IoFault.after, hwriteBody,
            Disk.write_write, hrest, List.append_assoc]

/-! ## Flushing and appending -/

/-- The section of a flush that writes what it has taken from the buffer, under a
fault of the device. -/
def FileChangeStore.writeTaken (fault : IoFault) (bc : Bincode) (s : FileChangeStore)
    (changes : List Change) : FileChangeStore × Except Error Unit :=
  match s.file with
  | none => (s, .ok ())
  | some f =>
      let written := writeRecords bc ⟨s.disk, f, fault⟩ changes
      let s := { s with disk := written.1.disk, file := some written.1.file }
      match written.2 with
      | .error e => (s, .error e)
      | .ok () =>
          if fault = .flush then (s, .error (flushFailed IoError.full))
          else if fault = .sync then
            (s, .error (.other ("sync failed (disk full?): " ++ IoError.full.message ++
              " - data may not be durable")))
          else if s.indexInterval ≤ changes.length then
            ({ s with index := s.index ++
                flushedEntries (s.tailOffset - changes.length) changes.length s.indexInterval },
              .ok ())
          else (s, .ok ())

/-- A flush takes the buffer and writes what it has taken. -/
theorem flushUnder_eq_writeTaken (fault : IoFault) (bc : Bincode) (s : FileChangeStore) :
    s.flushUnder fault bc =
      if s.buffer.isEmpty then ({ s with buffer := [] }, .ok ())
      else FileChangeStore.writeTaken fault bc { s with buffer := [] } s.buffer := by
  unfold FileChangeStore.flushUnder FileChangeStore.writeTaken
  rfl

/-- Writing touches only the log, its handle and the index. -/
theorem writeTaken_frame (fault : IoFault) (bc : Bincode) (s : FileChangeStore)
    (changes : List Change) :
    (s.writeTaken fault bc changes).1.buffer = s.buffer ∧
      (s.writeTaken fault bc changes).1.tailOffset = s.tailOffset ∧
      (changes.length < s.indexInterval →
        (s.writeTaken fault bc changes).1.index = s.index) := by
  unfold FileChangeStore.writeTaken
  cases s.file with
  | none => exact ⟨rfl, rfl, fun _ => rfl⟩
  | some f =>
      cases hwritten : (writeRecords bc ⟨s.disk, f, fault⟩ changes).2 with
      | error e => simp [hwritten]
      | ok u =>
          simp only [hwritten]
          split_ifs with hflush hsync hle
          · exact ⟨rfl, rfl, fun _ => rfl⟩
          · exact ⟨rfl, rfl, fun _ => rfl⟩
          · exact ⟨rfl, rfl, fun hlt => absurd hle (Nat.not_le.mpr hlt)⟩
          · exact ⟨rfl, rfl, fun _ => rfl⟩

/-- What a flush leaves besides its result: the log holds these bytes, nothing
is buffered, and the counters are as before. -/
structure FlushEffect (s s' : FileChangeStore) (data : Bytes) : Prop where
  openOn : OpenOn s' data
  buffer : s'.buffer = []
  tailOffset : s'.tailOffset = s.tailOffset
  flushThreshold : s'.flushThreshold = s.flushThreshold
  indexInterval : s'.indexInterval = s.indexInterval

/-- The fault strikes after all bytes were written. -/
def IoFault.Late (fault : IoFault) : Prop :=
  fault = .flush ∨ fault = .sync

/-- A flush whose bytes all reach the file adds the buffered records to the log;
it still fails if the device fails to flush or to sync. -/
theorem flushUnder_of_admits {bc : Bincode} {s : FileChangeStore} {data : Bytes}
    {rs : List Record} {fault : IoFault} (hopen : OpenOn s data) (henc : Encodes bc s.buffer rs)
    (hadmits : fault.Admits (recordBytes rs).length) :
    FlushEffect s (s.flushUnder fault bc).1 (data ++ recordBytes rs) ∧
      ((∃ e, (s.flushUnder fault bc).2 = .error e) ↔ s.buffer ≠ [] ∧ fault.Late) := by
  rcases hopen.handle with ⟨f, hfile, _, _, _⟩
  cases hbuffer : s.buffer with
  | nil =>
      rw [hbuffer] at henc
      obtain rfl := henc.eq_nil
      have hflush : s.flushUnder fault bc = ({ s with buffer := [] }, .ok ()) := by
        simp [FileChangeStore.flushUnder, hbuffer]
      rw [hflush]
      exact ⟨⟨by simpa using ⟨hopen.handle⟩, rfl, rfl, rfl, rfl⟩, by simp⟩
  | cons c rest =>
      have hwrite := writeRecords_of_admits henc s.disk f hadmits
      rw [hbuffer] at hwrite
      unfold FileChangeStore.flushUnder
      simp only [hbuffer, List.isEmpty_cons, hfile, hwrite, if_neg Bool.false_ne_true]
      by_cases hflush : fault = .flush
      · rw [if_pos hflush]
        exact ⟨⟨hopen.write hfile _ _ rfl rfl, rfl, rfl, rfl, rfl⟩, by simp [IoFault.Late, hflush]⟩
      · by_cases hsync : fault = .sync
        · rw [if_neg hflush, if_pos hsync]
          exact ⟨⟨hopen.write hfile _ _ rfl rfl, rfl, rfl, rfl, rfl⟩,
            by simp [IoFault.Late, hsync]⟩
        · rw [if_neg hflush, if_neg hsync]
          split_ifs <;>
            exact ⟨⟨hopen.write hfile _ _ rfl rfl, rfl, rfl, rfl, rfl⟩,
              by simp [IoFault.Late, hflush, hsync]⟩

/-- A flush that is cut short fails, leaves the first bytes of the buffered
records in the log and forgets the buffer. -/
theorem flushUnder_of_write_lt {bc : Bincode} {s : FileChangeStore} {data : Bytes}
    {rs : List Record} {reached : Nat} (hopen : OpenOn s data) (henc : Encodes bc s.buffer rs)
    (hlt : reached < (recordBytes rs).length) :
    FlushEffect s (s.flushUnder (.write reached) bc).1
        (data ++ (recordBytes rs).take reached) ∧
      ∃ e, (s.flushUnder (.write reached) bc).2 = .error e := by
  rcases hopen.handle with ⟨f, hfile, _, _, _⟩
  cases hbuffer : s.buffer with
  | nil =>
      rw [hbuffer] at henc
      simp [henc.eq_nil] at hlt
  | cons c rest =>
      rcases writeRecords_of_write_lt henc s.disk f hlt with ⟨e, hwrite⟩
      rw [hbuffer] at hwrite
      unfold FileChangeStore.flushUnder
      simp only [hbuffer, List.isEmpty_cons, hfile, hwrite, if_neg Bool.false_ne_true]
      exact ⟨⟨hopen.write hfile _ _ rfl rfl, rfl, rfl, rfl, rfl⟩, e, rfl⟩

/-- A flush without faults succeeds. -/
theorem flush_spec {bc : Bincode} {s : FileChangeStore} {data : Bytes} {rs : List Record}
    (hopen : OpenOn s data) (henc : Encodes bc s.buffer rs) :
    ∃ s', s.flush bc = (s', .ok ()) ∧ FlushEffect s s' (data ++ recordBytes rs) := by
  rcases flushUnder_of_admits hopen henc (IoFault.admits_none _) with ⟨heffect, hresult⟩
  refine ⟨(s.flush bc).1, ?_, heffect⟩
  cases hflush : (s.flushUnder .none bc).2 with
  | ok u => exact Prod.ext rfl hflush
  | error e =>
      have hlate := (hresult.mp ⟨e, hflush⟩).2
      simp [IoFault.Late] at hlate

/-! ## Runs of appends and flushes -/

/-- An open store holds changes: after the given bytes the log has the records
of the first of them, and the rest are buffered. -/
def Holds (bc : Bincode) (s : FileChangeStore) (data : Bytes) (cs : List Change) : Prop :=
  ∃ flushed pending, OpenOn s (data ++ recordBytes flushed) ∧
    Encodes bc cs (flushed ++ pending) ∧ Encodes bc s.buffer pending

/-- An open store has all its changes in the log and none in the buffer. -/
def HoldsFlushed (bc : Bincode) (s : FileChangeStore) (data : Bytes) (cs : List Change) : Prop :=
  ∃ rs, OpenOn s (data ++ recordBytes rs) ∧ Encodes bc cs rs ∧ s.buffer = []

theorem HoldsFlushed.holds {bc : Bincode} {s : FileChangeStore} {data : Bytes}
    {cs : List Change} (h : HoldsFlushed bc s data cs) : Holds bc s data cs := by
  rcases h with ⟨rs, hopen, henc, hbuffer⟩
  exact ⟨rs, [], hopen, by simpa using henc, hbuffer ▸ List.Forall₂.nil⟩

/-- A flush moves everything that is buffered into the log. -/
theorem Holds.flush {bc : Bincode} {s : FileChangeStore} {data : Bytes} {cs : List Change}
    (h : Holds bc s data cs) :
    ∃ s', s.flush bc = (s', .ok ()) ∧ HoldsFlushed bc s' data cs ∧
      s'.tailOffset = s.tailOffset := by
  rcases h with ⟨flushed, pending, hopen, henc, hbuffered⟩
  rcases flush_spec hopen hbuffered with ⟨s', hflush, heffect⟩
  refine ⟨s', hflush, ⟨flushed ++ pending, ?_, henc, heffect.buffer⟩, heffect.tailOffset⟩
  rw [recordBytes_append, ← List.append_assoc]
  exact heffect.openOn

/-- A change that a flush can write. -/
def Encodable (bc : Bincode) (c : Change) : Prop :=
  ∃ r : Record, bc.serialize c = .ok r.bytes

/-- A store whose counter and buffer have taken up a change. -/
def FileChangeStore.pushed (s : FileChangeStore) (c : Change) : FileChangeStore :=
  { s with tailOffset := s.tailOffset + 1, buffer := s.buffer ++ [c] }

theorem appendUnder_of_lt {bc : Bincode} {s : FileChangeStore} {fault : IoFault} {c : Change}
    (hlt : s.buffer.length + 1 < s.flushThreshold) :
    s.appendUnder fault bc c = (s.pushed c, .ok s.tailOffset) := by
  have hnot : ¬ s.flushThreshold ≤ s.buffer.length + 1 := Nat.not_le.mpr hlt
  simp [FileChangeStore.appendUnder, FileChangeStore.pushed, hnot]

theorem appendUnder_of_le {bc : Bincode} {s : FileChangeStore} {fault : IoFault} {c : Change}
    (hle : s.flushThreshold ≤ s.buffer.length + 1) :
    s.appendUnder fault bc c =
      (((s.pushed c).flushUnder fault bc).1,
        ((s.pushed c).flushUnder fault bc).2.map fun _ => s.tailOffset) := by
  simp only [FileChangeStore.appendUnder, FileChangeStore.pushed, List.length_append,
    List.length_singleton, if_pos hle]
  split <;> rename_i hflush <;> simp [hflush, Except.map]

theorem Holds.pushed {bc : Bincode} {s : FileChangeStore} {data : Bytes} {cs : List Change}
    (h : Holds bc s data cs) {c : Change} (hc : Encodable bc c) :
    Holds bc (s.pushed c) data (cs ++ [c]) := by
  rcases h with ⟨flushed, pending, hopen, henc, hbuffered⟩
  rcases hc with ⟨r, hr⟩
  refine ⟨flushed, pending ++ [r], ⟨hopen.handle⟩, ?_, ?_⟩
  · rw [← List.append_assoc]
    exact henc.append (.cons hr .nil)
  · exact Encodes.append hbuffered (.cons hr .nil)

/-- An append returns the write offset, advances it by one and keeps the change. -/
theorem Holds.append {bc : Bincode} {s : FileChangeStore} {data : Bytes} {cs : List Change}
    (h : Holds bc s data cs) {c : Change} (hc : Encodable bc c) :
    ∃ s', s.append bc c = (s', .ok s.tailOffset) ∧ Holds bc s' data (cs ++ [c]) ∧
      s'.tailOffset = s.tailOffset + 1 := by
  have hpushed := h.pushed hc
  by_cases hle : s.flushThreshold ≤ s.buffer.length + 1
  · rcases hpushed.flush with ⟨s', hflush, hholds, htail⟩
    refine ⟨s', ?_, hholds.holds, htail⟩
    rw [FileChangeStore.append, appendUnder_of_le hle]
    rw [FileChangeStore.flush] at hflush
    simp [hflush, Except.map]
  · exact ⟨s.pushed c, appendUnder_of_lt (by omega), hpushed, rfl⟩

/-- An operation of a session. -/
inductive StoreOp where
  | append (change : Change)
  | flush

/-- The changes that a run of operations appends. -/
def appended : List StoreOp → List Change
  | [] => []
  | .append c :: ops => c :: appended ops
  | .flush :: ops => appended ops

/-- Run operations and collect the offsets that the appends return. -/
def FileChangeStore.runOps (bc : Bincode) :
    FileChangeStore → List StoreOp → Except Error (FileChangeStore × List Nat)
  | s, [] => .ok (s, [])
  | s, .append c :: ops =>
      match s.append bc c with
      | (_, .error e) => .error e
      | (s, .ok offset) =>
          match s.runOps bc ops with
          | .error e => .error e
          | .ok (s, offsets) => .ok (s, offset :: offsets)
  | s, .flush :: ops =>
      match s.flush bc with
      | (_, .error e) => .error e
      | (s, .ok ()) => s.runOps bc ops

/-- A run of operations keeps all appended changes and returns consecutive
offsets from the write offset on. -/
theorem runOps_spec {bc : Bincode} {data : Bytes} {ops : List StoreOp}
    (hops : ∀ c ∈ appended ops, Encodable bc c) {s : FileChangeStore} {cs : List Change}
    (h : Holds bc s data cs) :
    ∃ s', s.runOps bc ops = .ok (s', List.range' s.tailOffset (appended ops).length) ∧
      Holds bc s' data (cs ++ appended ops) := by
  induction ops generalizing s cs with
  | nil => exact ⟨s, rfl, by simpa [appended] using h⟩
  | cons op ops ih =>
      cases op with
      | append c =>
          rcases h.append (hops c (by simp [appended])) with ⟨s₁, happend, hholds, htail⟩
          have hrest : ∀ c ∈ appended ops, Encodable bc c := fun c' hc' =>
            hops c' (by simp [appended, hc'])
          rcases ih hrest hholds with ⟨s', hrun, hholds'⟩
          refine ⟨s', ?_, by simpa [appended] using hholds'⟩
          simp [FileChangeStore.runOps, happend, hrun, htail, appended, List.range'_succ]
      | flush =>
          rcases h.flush with ⟨s₁, hflush, hholds, htail⟩
          rcases ih (by simpa [appended] using hops) hholds.holds with ⟨s', hrun, hholds'⟩
          refine ⟨s', ?_, by simpa [appended] using hholds'⟩
          simp [FileChangeStore.runOps, hflush, hrun, htail, appended]

/-- Run operations and a final flush. -/
def FileChangeStore.runFlushed (bc : Bincode) (s : FileChangeStore) (ops : List StoreOp) :
    Except Error FileChangeStore :=
  match s.runOps bc ops with
  | .error e => .error e
  | .ok (s, _) =>
      match s.flush bc with
      | (_, .error e) => .error e
      | (s, .ok ()) => .ok s

/-- After a run and a final flush everything is in the log. -/
theorem Holds.runFlushed {bc : Bincode} {s : FileChangeStore} {data : Bytes} {cs : List Change}
    (h : Holds bc s data cs) {ops : List StoreOp} (hops : ∀ c ∈ appended ops, Encodable bc c) :
    ∃ s', s.runFlushed bc ops = .ok s' ∧ HoldsFlushed bc s' data (cs ++ appended ops) := by
  rcases runOps_spec hops h with ⟨s₁, hrun, hholds⟩
  rcases hholds.flush with ⟨s', hflush, hflushed, _⟩
  exact ⟨s', by simp [FileChangeStore.runFlushed, hrun, hflush], hflushed⟩

/-! ## Opening -/

/-- Recovery never touches the main log. -/
theorem readFile_recoverTempFiles (d : Disk) :
    (recoverTempFiles d).readFile logName = d.readFile logName := by
  rw [recoverTempFiles, Disk.readFile_removeAll (by decide), Disk.readFile_removeAll (by decide)]

/-- The bytes that opening finds in the main log, none if it is missing. -/
def foundLog (d : Disk) : Bytes :=
  (d.readFile logName).getD []

/-- A freshly opened store. -/
structure Fresh (s : FileChangeStore) (data : Bytes) (t : Nat) (index : List IndexEntry) :
    Prop where
  openOn : OpenOn s data
  buffer : s.buffer = []
  flushThreshold : s.flushThreshold = t
  index_eq : s.index = index
  tailOffset : s.tailOffset = nextOffset index

theorem Fresh.holdsFlushed {s : FileChangeStore} {data : Bytes} {t : Nat}
    {index : List IndexEntry} (h : Fresh s data t index) (bc : Bincode) :
    HoldsFlushed bc s data [] :=
  ⟨[], by simpa using h.openOn, .nil, h.buffer⟩

/-- The append handle that opening uses. -/
theorem openAppend_log (d : Disk) :
    ∃ d' f, (recoverTempFiles d).openAppend logName = (d', f) ∧ f.append = true ∧
      d'.entries logName = some f.ino ∧ d'.content f.ino = foundLog d := by
  rcases Disk.openAppend_handle (recoverTempFiles d) logName with ⟨hentry, happend⟩
  have hcontent := Disk.openAppend_content (recoverTempFiles d) logName
  rw [readFile_recoverTempFiles] at hcontent
  exact ⟨_, _, rfl, happend, hentry, hcontent⟩

/-- Opening a log shorter than a header appends a header to what is there. -/
theorem new_of_lt {d : Disk} (hshort : (foundLog d).length < headerSize) (t : Nat) :
    ∃ s, FileChangeStore.new d t = .ok s ∧ Fresh s (foundLog d ++ header) t [] := by
  rcases openAppend_log d with ⟨d', f, hopened, happend, hentry, hcontent⟩
  have hinit : initializeFile d' f defaultIndexInterval =
      .ok { disk := (d'.write f header).1, file := (d'.write f header).2,
            tailOffset := 0, index := [] } := by
    simp [initializeFile, hcontent, hshort, writeHeader]
  refine ⟨_, by simp only [FileChangeStore.new, hopened, hinit]; rfl, ?_, rfl, rfl, rfl, rfl⟩
  refine ⟨_, rfl, by simpa using happend, by simpa using hentry, ?_⟩
  simp only [Disk.write_ino]
  rw [Disk.content_write_append happend, hcontent]

/-- Opening a log that begins with a header indexes the rest of it. -/
theorem new_of_header {d : Disk} {rest : Bytes} (hfound : foundLog d = header ++ rest)
    (t : Nat) :
    ∃ s index, FileChangeStore.new d t = .ok s ∧
      buildIndex (header ++ rest) defaultIndexInterval = .ok index ∧
      Fresh s (header ++ rest) t index := by
  rcases openAppend_log d with ⟨d', f, hopened, happend, hentry, hcontent⟩
  rcases exists_buildIndex (header ++ rest) defaultIndexInterval with ⟨index, hindex⟩
  have hread : Reader.readExact ⟨header ++ rest, 0⟩ headerSize =
      .ok (header, ⟨header ++ rest, headerSize⟩) := by
    have hrest : Reader.rest ⟨header ++ rest, 0⟩ = header ++ rest := rfl
    simpa using Reader.readExact_append hrest
  have hlen : ¬ (header ++ rest).length < headerSize := by
    simp
  have hmagic : header.take 4 = logMagic := rfl
  have hversion : le.read ((header.drop 4).take 4) = logVersion := by decide
  have hinit : initializeFile d' f defaultIndexInterval =
      .ok { disk := d', file := f, tailOffset := nextOffset index, index := index } := by
    rw [hfound] at hcontent
    simp only [initializeFile, hcontent, if_neg hlen, hread, hmagic, hversion, hindex,
      ne_eq, not_true_eq_false, if_false, Nat.lt_irrefl]
  refine ⟨_, index, by simp only [FileChangeStore.new, hopened, hinit]; rfl, hindex,
    ?_, rfl, rfl, rfl, rfl⟩
  exact ⟨f, rfl, happend, hentry, hfound ▸ hcontent⟩

/-- The directory holds a well-formed log, or none yet. -/
def HoldsLog (d : Disk) (rs : List Record) : Prop :=
  foundLog d = logBytes rs ∨ (foundLog d = [] ∧ rs = [])

/-- Opening a well-formed or missing log. -/
theorem new_logBytes {d : Disk} {rs : List Record} (hlog : HoldsLog d rs) (t : Nat) :
    ∃ s, FileChangeStore.new d t = .ok s ∧
      Fresh s (logBytes rs) t (expectedIndex defaultIndexInterval headerSize 0 rs) := by
  rcases hlog with hlog | ⟨hnone, rfl⟩
  · rcases new_of_header hlog t with ⟨s, index, hnew, hindex, hfresh⟩
    have hbuild := buildIndex_logBytes rs defaultIndexInterval
    rw [logBytes, hindex, Except.ok.injEq] at hbuild
    subst index
    exact ⟨s, hnew, hfresh⟩
  · rcases new_of_lt (d := d) (by rw [hnone]; decide) t with ⟨s, hnew, hfresh⟩
    rw [hnone] at hfresh
    exact ⟨s, hnew, by simpa [logBytes, expectedIndex] using hfresh⟩

/-! ## Reading everything -/

/-- A read from offset 0 starts behind the header, whatever the index is. -/
theorem getSince_zero (bc : Bincode) {s : FileChangeStore} {data : Bytes}
    (hlog : s.log = some data) :
    ∃ scan : ReadScan, scan.reader.rest = data.drop headerSize ∧ scan.changes = [] ∧
      s.getSince bc 0 = (readChangesLoop bc 0).run scan :=
  ⟨⟨Reader.seek ⟨data, 0⟩ headerSize, [], startOffset s.index headerSize⟩, rfl, rfl, by
    simp [FileChangeStore.getSince, FileChangeStore.readChangesSince, hlog, startPosition]⟩

/-- A read from offset 0 decodes all records that follow the header and goes on
with the bytes behind them. -/
theorem getSince_zero_records {bc : Bincode} (hbc : bc.Lawful) {s : FileChangeStore}
    {cs : List Change} {rs : List Record} (henc : Encodes bc cs rs) {left : Bytes}
    (hlog : s.log = some (logBytes rs ++ left)) :
    ∃ scan : ReadScan, scan.reader.rest = left ∧ scan.changes = cs ∧
      s.getSince bc 0 = (readChangesLoop bc 0).run scan := by
  rcases getSince_zero bc hlog with ⟨scan, hrest, hchanges, hread⟩
  have hrecords : scan.reader.rest = recordBytes rs ++ left := by
    rw [hrest, logBytes, List.append_assoc, ← header_length, List.drop_left]
  refine ⟨_, ?_, ?_, hread.trans (readChangesLoop_records hbc henc hrecords)⟩
  · exact Reader.rest_advance_append hrecords
  · simp [hchanges]

/-- A read from offset 0 of a well-formed log returns all its changes. -/
theorem getSince_zero_logBytes {bc : Bincode} (hbc : bc.Lawful) {s : FileChangeStore}
    {cs : List Change} {rs : List Record} (henc : Encodes bc cs rs)
    (hlog : s.log = some (logBytes rs)) : s.getSince bc 0 = .ok cs := by
  rw [← List.append_nil (logBytes rs)] at hlog
  rcases getSince_zero_records hbc henc hlog with ⟨scan, hrest, hchanges, hread⟩
  rw [hread, readChangesLoop_eof (by simp [hrest]), hchanges]

/-- Whatever is appended to a store and flushed is read behind the changes it
starts with. -/
def ReadsBack (bc : Bincode) (s : FileChangeStore) (cs : List Change) : Prop :=
  ∀ ops, (∀ c ∈ appended ops, Encodable bc c) →
    ∃ s', s.runFlushed bc ops = .ok s' ∧ s'.getSince bc 0 = .ok (cs ++ appended ops)

/-- A store with a well-formed log reads everything back. -/
theorem Holds.readsBack {bc : Bincode} (hbc : bc.Lawful) {s : FileChangeStore}
    {cs : List Change} (h : Holds bc s header cs) : ReadsBack bc s cs := by
  intro ops hops
  rcases h.runFlushed hops with ⟨s', hrun, rs, hopen, henc, _⟩
  exact ⟨s', hrun, getSince_zero_logBytes hbc henc hopen.log⟩

/-- A store that reads back what is appended has it in its log. -/
theorem ReadsBack.elim {bc : Bincode} {s : FileChangeStore} {cs : List Change}
    (h : ReadsBack bc s cs) {data : Bytes} (hholds : HoldsFlushed bc s data [])
    {ops : List StoreOp} (hops : ∀ c ∈ appended ops, Encodable bc c) :
    ∃ (s' : FileChangeStore) (rs : List Record), Encodes bc (appended ops) rs ∧
      s'.log = some (data ++ recordBytes rs) ∧ s'.getSince bc 0 = .ok (cs ++ appended ops) := by
  rcases h ops hops with ⟨s', hrun, hread⟩
  rcases hholds.holds.runFlushed hops with ⟨s'', hrun', rs, hopen, henc, _⟩
  rw [hrun, Except.ok.injEq] at hrun'
  subst s''
  exact ⟨s', rs, by simpa using henc, hopen.log, hread⟩

/-- A log that ends inside a record is not read back: the record's own length is
read with a body that is not there, or its first bytes are read with a length
that follows them. -/
theorem not_readsBack_torn {bc : Bincode} (hbc : bc.Lawful) {c : Change} {small : Record}
    (hc : bc.serialize c = .ok small.bytes) (hsmall : small.bytes.length < 256)
    {before complete : List Change} {rs : List Record} (henc : Encodes bc before rs) {r : Record}
    {m : Nat} (hpos : 0 < m) (hm : m < 4 + r.bytes.length) {s : FileChangeStore}
    (hholds : HoldsFlushed bc s (logBytes rs ++ (frame le r.bytes).take m) []) :
    ¬ ReadsBack bc s complete := by
  intro hback
  have hlen : ((frame le r.bytes).take m).length = m := by
    rw [List.length_take, frame_length]
    omega
  by_cases h4 : 4 ≤ m
  · have hnone : ∀ c ∈ appended [], Encodable bc c := by simp [appended]
    rcases hback.elim hholds hnone with ⟨s', rs', henc', hlog, hread⟩
    have hnil : rs' = [] := henc'.eq_nil
    rw [hnil, recordBytes_nil, List.append_nil] at hlog
    rcases getSince_zero_records hbc henc hlog with ⟨scan, hrest, _, hzero⟩
    have hlength : scan.reader.rest.take 4 = le.write r.bytes.length := by
      rw [hrest, List.take_take, Nat.min_eq_left h4, frame,
        List.take_append_of_le_length (by rw [le.length_write]),
        List.take_of_length_le (by rw [le.length_write])]
    have hvalue : le.read (scan.reader.rest.take 4) = r.bytes.length := by
      rw [hlength, r.read_write]
    have hne := r.length_pos
    rw [hread, readChangesLoop_torn (by rw [hrest, hlen]; exact h4)
      (by omega) (by rw [hvalue, hrest, hlen]; exact hm)] at hzero
    contradiction
  · -- the torn bytes join the length of the next record
    have hone : ∀ c' ∈ appended [.append c], Encodable bc c' := by
      simpa [appended] using ⟨small, hc⟩
    rcases hback.elim hholds hone with ⟨s', rs', henc', hlog, hread⟩
    have hrs' : recordBytes rs' = le.write small.bytes.length ++ small.bytes := by
      rcases henc' with _ | ⟨hr, hnil⟩
      rw [hc, Except.ok.injEq] at hr
      cases hnil
      simp [hr, frame]
    rw [List.append_assoc] at hlog
    rcases getSince_zero_records hbc henc hlog with ⟨scan, hrest, _, hzero⟩
    have hjoined : m + small.bytes.length < le.read (scan.reader.rest.take 4) := by
      have hlt := lt_leValue_torn ((frame le r.bytes).take m) small.bytes (by omega) (by omega)
        small.length_pos hsmall
      rw [hlen] at hlt
      rw [hrest, hrs']
      exact hlt
    have hrestLen : scan.reader.rest.length = m + (4 + small.bytes.length) := by
      rw [hrest, List.length_append, hlen, hrs', List.length_append, le.length_write]
    rw [hread, readChangesLoop_torn (by omega) (by omega) (by omega)] at hzero
    contradiction

end IrohSync
