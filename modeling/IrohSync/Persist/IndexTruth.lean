import IrohSync.Persist.Calls
import IrohSync.Persist.IndexedRead

/-!
# What the entries of an index say

An entry gives the number of a record with its position and its length.  The scan at opening
takes them from the log; a flush of many changes adds entries that have neither, so that a
read through them starts in front of the header.

The positions of records are found here by walking over the length prefixes of the log, which
may end in anything.

Main results:

- Theorem {lit}`boundary_logBytes`: where the records of a well-formed log start.
- Theorem {lit}`Scanned.next`: what the calls leave as opening made it.
- Theorem {lit}`indexTruth_iff`: exactly in which runs an index tells the truth.
-/

namespace IrohSync

open FileIo Framing Loop BinarySearch Machine

/-! ## Records of a log -/

/-- The length of the record at a position, if it is complete. -/
def recordLength (data : Bytes) (pos : Nat) : Option Nat :=
  let len := le.read ((data.drop pos).take 4)
  if pos + 4 ≤ data.length ∧ pos + 4 + len ≤ data.length then some len else none

/-- Where a record starts if all records in front of it are complete. -/
def boundary (data : Bytes) : Nat → Option Nat
  | 0 => some headerSize
  | number + 1 => (boundary data number).bind fun pos =>
      (recordLength data pos).map fun len => pos + 4 + len

/-- An index tells the truth about a log: every entry is that of a record, the records come
in increasing order, and a read starts at a record that is not behind the requested one. -/
structure TruthfulIndex (data : Bytes) (index : List IndexEntry) : Prop where
  truthful : ∀ e ∈ index,
    boundary data e.offset = some e.position ∧ recordLength data e.position = some e.length
  increasing : index.Pairwise fun e e' => e.offset < e'.offset
  starts : ∀ offset, ∃ number ≤ offset,
    boundary data number = some (startPosition index offset)

/-- The index of a store tells the truth about its log. -/
def IndexTruth (s : FileChangeStore) : Prop :=
  ∃ data, s.log = some data ∧ TruthfulIndex data s.index

/-- No record starts in front of the header. -/
theorem headerSize_le_boundary {data : Bytes} {number pos : Nat}
    (h : boundary data number = some pos) : headerSize ≤ pos := by
  induction number generalizing pos with
  | zero => exact Nat.le_of_eq (Option.some_inj.mp h)
  | succ number ih =>
      rcases Option.bind_eq_some_iff.mp h with ⟨before, hbefore, hlength⟩
      rcases Option.map_eq_some_iff.mp hlength with ⟨len, _, rfl⟩
      have hle := ih hbefore
      omega

/-- The bytes from the start of a record on, whatever follows the log. -/
theorem drop_recordPosition_append {rs : List Record} (more : Bytes) {i : Nat} {r : Record}
    (hr : rs[i]? = some r) :
    (logBytes rs ++ more).drop (recordPosition rs i) =
      frame le r.bytes ++ (recordBytes (rs.drop (i + 1)) ++ more) := by
  have hi : i < rs.length := (List.getElem?_eq_some_iff.mp hr).1
  have hend : (logBytes rs).length = recordPosition rs rs.length := by
    rw [logBytes, List.length_append, header_length, recordPosition, List.take_length]
  have hle : recordPosition rs i ≤ (logBytes rs).length := by
    rw [hend]
    exact Nat.le_of_lt (recordPosition_lt rs hi (Nat.le_refl _))
  rw [List.drop_append_of_le_length hle, drop_recordPosition, List.drop_eq_getElem_cons hi,
    recordBytes_cons, List.append_assoc, (List.getElem?_eq_some_iff.mp hr).2]

/-- The next record starts behind a record. -/
theorem recordPosition_succ {rs : List Record} {i : Nat} {r : Record} (hr : rs[i]? = some r) :
    recordPosition rs (i + 1) = recordPosition rs i + 4 + r.bytes.length := by
  have hi : i < rs.length := (List.getElem?_eq_some_iff.mp hr).1
  rw [recordPosition, recordPosition, List.take_add_one, hr, Option.toList_some, recordBytes_append,
    recordBytes_cons, recordBytes_nil, List.append_nil, List.length_append, frame_length]
  omega

/-- The length of a record of a log, whatever follows it. -/
theorem recordLength_logBytes {rs : List Record} (more : Bytes) {i : Nat} {r : Record}
    (hr : rs[i]? = some r) :
    recordLength (logBytes rs ++ more) (recordPosition rs i) = some r.bytes.length := by
  have hdrop := drop_recordPosition_append more hr
  have hread : le.read (((logBytes rs ++ more).drop (recordPosition rs i)).take 4) =
      r.bytes.length := by
    rw [hdrop, frame, List.append_assoc, ← le.length_write r.bytes.length, List.take_left]
    exact r.read_write
  have hlength := congrArg List.length hdrop
  simp only [List.length_drop, List.length_append, frame_length] at hlength
  unfold recordLength
  simp only [hread, List.length_append]
  exact if_pos ⟨by omega, by omega⟩

/-- Where the records of a log start, whatever follows it. -/
theorem boundary_logBytes (rs : List Record) (more : Bytes) {i : Nat} (hi : i ≤ rs.length) :
    boundary (logBytes rs ++ more) i = some (recordPosition rs i) := by
  induction i with
  | zero => rfl
  | succ i ih =>
      have hr : rs[i]? = some rs[i] := List.getElem?_eq_getElem hi
      rw [boundary, ih (Nat.le_of_succ_le hi), Option.bind_some, recordLength_logBytes more hr,
        recordPosition_succ hr]
      rfl

/-- The index that opening builds tells the truth, whatever is appended to the log. -/
theorem truthfulIndex_expectedIndex (rs : List Record) (more : Bytes) (indexInterval : Nat) :
    TruthfulIndex (logBytes rs ++ more) (expectedIndex indexInterval headerSize 0 rs) := by
  constructor
  · intro e he
    rcases mem_index_iff.mp he with ⟨i, hi, hoffset, hposition, r, hr, hlength⟩
    have hle : i ≤ rs.length := Nat.le_of_lt (List.getElem?_eq_some_iff.mp hr).1
    rw [hoffset, hposition, hlength]
    exact ⟨boundary_logBytes rs more hle, recordLength_logBytes more hr⟩
  · exact pairwise_expectedIndex indexInterval headerSize 0 rs
  · intro offset
    by_cases hzero : indexedCount rs = 0
    · refine ⟨0, Nat.zero_le _, ?_⟩
      rw [expectedIndex_eq_nil hzero]
      unfold startPosition
      split
      · rfl
      · rfl
    · rcases startPosition_expectedIndex offset rfl hzero with ⟨i, hi, hle, _, hstart⟩
      refine ⟨i, hle, ?_⟩
      rw [hstart]
      exact boundary_logBytes rs more
        (Nat.le_trans (Nat.le_of_lt hi.lt) (indexedCount_le rs))

/-! ## Flushes -/

/-- All changes can be encoded. -/
def AllEncode (bc : Bincode) (changes : List Change) : Prop :=
  ∀ c ∈ changes, ∃ bytes, bc.serialize c = .ok bytes

/-- A flush would write as many changes as an interval of the index has, or more. -/
def LargeFlush (bc : Bincode) (s : FileChangeStore) : Prop :=
  s.indexInterval ≤ s.buffer.length ∧ AllEncode bc s.buffer

/-- Without faults the records of all changes are written, up to the first that cannot be
encoded. -/
theorem writeRecords_none (bc : Bincode) (d : Disk) (f : FileHandle) (changes : List Change) :
    ∃ bytes result, writeRecords bc ⟨d, f, .none⟩ changes =
        (⟨(d.write f bytes).1, (d.write f bytes).2, .none⟩, result) ∧
      (result = .ok () ↔ AllEncode bc changes) := by
  induction changes generalizing d f with
  | nil =>
      refine ⟨[], .ok (), ?_, iff_of_true rfl fun c hc => absurd hc List.not_mem_nil⟩
      rw [writeRecords, Disk.write_nil]
  | cons c changes ih =>
      cases hserialize : bc.serialize c with
      | error e =>
          refine ⟨[], .error (.encoding e), ?_, iff_of_false (by simp) fun hall => ?_⟩
          · rw [writeRecords, hserialize, Disk.write_nil]
          · rcases hall c List.mem_cons_self with ⟨bytes, hbytes⟩
            rw [hserialize] at hbytes
            contradiction
      | ok body =>
          let written := d.write f (le.write body.length ++ body)
          rcases ih written.1 written.2 with ⟨bytes, result, hwritten, hresult⟩
          refine ⟨le.write body.length ++ body ++ bytes, result, ?_, ?_⟩
          · rw [writeRecords, hserialize]
            simp only [Device.writeAll, Disk.write_write]
            rw [hwritten, Disk.write_write]
          · rw [hresult, AllEncode, AllEncode, List.forall_mem_cons]
            exact (and_iff_right ⟨body, hserialize⟩).symm

/-- What a flush without faults leaves: more bytes in the log, nothing in the buffer, and more
entries in the index exactly if the flush was large. -/
structure FlushAdds (bc : Bincode) (s s' : FileChangeStore) (data more : Bytes) : Prop where
  openOn : OpenOn s' (data ++ more)
  buffer : s'.buffer = []
  flushThreshold : s'.flushThreshold = s.flushThreshold
  indexInterval : s'.indexInterval = s.indexInterval
  large : LargeFlush bc s → s'.index = s.index ++
    flushedEntries (s.tailOffset - s.buffer.length) s.buffer.length s.indexInterval
  small : ¬ LargeFlush bc s → s'.index = s.index

theorem flush_adds (bc : Bincode) {s : FileChangeStore} {data : Bytes} (hopen : OpenOn s data) :
    ∃ more, FlushAdds bc s (s.flush bc).1 data more := by
  rcases hopen.handle with ⟨f, hfile, _⟩
  rw [FileChangeStore.flush, flushUnder_eq_writeTaken]
  cases hbuffer : s.buffer with
  | nil =>
      refine ⟨[], ⟨?_, rfl, rfl, rfl, fun _ => ?_, fun _ => rfl⟩⟩
      · rw [List.append_nil]
        exact ⟨hopen.handle⟩
      · rw [hbuffer]
        exact (List.append_nil _).symm
  | cons c rest =>
      rcases writeRecords_none bc s.disk f (c :: rest) with ⟨bytes, result, hwritten, hresult⟩
      rw [if_neg (by simp)]
      unfold FileChangeStore.writeTaken
      simp only [hfile, hwritten]
      cases result with
      | error e =>
          have hnot : ¬ LargeFlush bc s := by
            intro hlarge
            have hok := hresult.mpr (hbuffer ▸ hlarge.2)
            contradiction
          exact ⟨bytes, hopen.write hfile _ _ rfl rfl, rfl, rfl, rfl,
            fun hlarge => absurd hlarge hnot, fun _ => rfl⟩
      | ok u =>
          have hall : AllEncode bc s.buffer := hbuffer ▸ hresult.mp rfl
          rw [← hbuffer]
          simp only [reduceCtorEq, if_false]
          by_cases hle : s.indexInterval ≤ s.buffer.length
          · simp only [if_pos hle]
            exact ⟨bytes, hopen.write hfile _ _ rfl rfl, rfl, rfl, rfl, fun _ => rfl,
              fun hsmall => absurd ⟨hle, hall⟩ hsmall⟩
          · simp only [if_neg hle]
            exact ⟨bytes, hopen.write hfile _ _ rfl rfl, rfl, rfl, rfl,
              fun hlarge => absurd hlarge.1 hle, fun _ => rfl⟩

/-- No flush takes an entry out of the index. -/
theorem subset_flush_index (bc : Bincode) (s : FileChangeStore) :
    s.index ⊆ (s.flush bc).1.index := by
  rw [FileChangeStore.flush, flushUnder_eq_writeTaken]
  split_ifs
  · exact List.Subset.refl _
  · unfold FileChangeStore.writeTaken
    cases s.file with
    | none => exact List.Subset.refl _
    | some f =>
        simp only [reduceCtorEq, if_false]
        split
        · exact List.Subset.refl _
        · split_ifs
          · exact List.subset_append_left _ _
          · exact List.Subset.refl _

/-! ## Calls -/

/-- The store that a call flushes. -/
def StoreCall.flushes (s : FileChangeStore) : StoreCall → Option FileChangeStore
  | .append c => if s.flushThreshold ≤ s.buffer.length + 1 then some (s.pushed c) else none
  | .getSince _ => none
  | .tailOffset => none
  | .flush => some s

/-- A call does not flush as many changes as an interval of the index has. -/
def Small (bc : Bincode) (s : FileChangeStore) (call : StoreCall) : Prop :=
  ∀ p, call.flushes s = some p → ¬ LargeFlush bc p

/-- Two stores with one log, handle and index. -/
structure SameLog (s p : FileChangeStore) : Prop where
  disk : p.disk = s.disk
  file : p.file = s.file
  index : p.index = s.index
  indexInterval : p.indexInterval = s.indexInterval

theorem SameLog.openOn {s p : FileChangeStore} (h : SameLog s p) {data : Bytes}
    (hopen : OpenOn s data) : OpenOn p data := by
  constructor
  rw [h.disk, h.file]
  exact hopen.handle

/-- An append that fills the buffer up to the threshold flushes. -/
theorem next_append_of_le (bc : Bincode) {s : FileChangeStore} {c : Change}
    (hle : s.flushThreshold ≤ s.buffer.length + 1) :
    (fileStore bc).next s (.append c) = ((s.pushed c).flush bc).1 :=
  congrArg Prod.fst (appendUnder_of_le hle)

theorem next_append_of_lt (bc : Bincode) {s : FileChangeStore} {c : Change}
    (hlt : s.buffer.length + 1 < s.flushThreshold) :
    (fileStore bc).next s (.append c) = s.pushed c :=
  congrArg Prod.fst (appendUnder_of_lt hlt)

/-- A call flushes or leaves the log, the handle and the index alone. -/
theorem next_cases (bc : Bincode) (s : FileChangeStore) (call : StoreCall) :
    ∃ p, SameLog s p ∧ (call.flushes s = some p ∧ (fileStore bc).next s call = (p.flush bc).1 ∨
      call.flushes s = none ∧ (fileStore bc).next s call = p) := by
  cases call with
  | append c =>
      refine ⟨s.pushed c, ⟨rfl, rfl, rfl, rfl⟩, ?_⟩
      by_cases hle : s.flushThreshold ≤ s.buffer.length + 1
      · exact Or.inl ⟨if_pos hle, next_append_of_le bc hle⟩
      · exact Or.inr ⟨if_neg hle, next_append_of_lt bc (Nat.lt_of_not_le hle)⟩
  | getSince offset => exact ⟨s, ⟨rfl, rfl, rfl, rfl⟩, Or.inr ⟨rfl, rfl⟩⟩
  | tailOffset => exact ⟨s, ⟨rfl, rfl, rfl, rfl⟩, Or.inr ⟨rfl, rfl⟩⟩
  | flush => exact ⟨s, ⟨rfl, rfl, rfl, rfl⟩, Or.inl ⟨rfl, rfl⟩⟩

/-- The log begins with the records that were there at opening, and the index is the one that
the scan made of them. -/
structure Scanned (rs : List Record) (s : FileChangeStore) : Prop where
  openOn : ∃ more, OpenOn s (logBytes rs ++ more)
  index_eq : s.index = expectedIndex defaultIndexInterval headerSize 0 rs
  indexInterval : s.indexInterval = defaultIndexInterval

/-- The index of a store as opening made it tells the truth. -/
theorem Scanned.indexTruth {rs : List Record} {s : FileChangeStore} (h : Scanned rs s) :
    IndexTruth s := by
  rcases h.openOn with ⟨more, hopen⟩
  refine ⟨_, hopen.log, ?_⟩
  rw [h.index_eq]
  exact truthfulIndex_expectedIndex rs more defaultIndexInterval

/-- A call without a large flush leaves the index as opening made it. -/
theorem Scanned.next {bc : Bincode} {rs : List Record} {s : FileChangeStore} (h : Scanned rs s)
    {call : StoreCall} (hsmall : Small bc s call) : Scanned rs ((fileStore bc).next s call) := by
  rcases h.openOn with ⟨more, hopen⟩
  rcases next_cases bc s call with ⟨p, hsame, ⟨hflushes, hnext⟩ | ⟨_, hnext⟩⟩
  · rcases flush_adds bc (hsame.openOn hopen) with ⟨added, hadds⟩
    rw [hnext]
    refine ⟨⟨more ++ added, ?_⟩, ?_, ?_⟩
    · rw [← List.append_assoc]
      exact hadds.openOn
    · rw [hadds.small (hsmall p hflushes), hsame.index, h.index_eq]
    · rw [hadds.indexInterval, hsame.indexInterval, h.indexInterval]
  · rw [hnext]
    refine ⟨⟨more, hsame.openOn hopen⟩, ?_, ?_⟩
    · rw [hsame.index, h.index_eq]
    · rw [hsame.indexInterval, h.indexInterval]

/-- No entry is at the start of the file. -/
def NoneAtStart (s : FileChangeStore) : Prop :=
  ∀ e ∈ s.index, e.position ≠ 0

theorem IndexTruth.noneAtStart {s : FileChangeStore} (h : IndexTruth s) : NoneAtStart s := by
  rcases h with ⟨data, _, htrue⟩
  intro e he hzero
  have hle := headerSize_le_boundary (htrue.truthful e he).1
  rw [hzero] at hle
  exact absurd hle (by decide)

/-- Entries stay in the index. -/
theorem noneAtStart_of_next {bc : Bincode} {s : FileChangeStore} {call : StoreCall}
    (h : NoneAtStart ((fileStore bc).next s call)) : NoneAtStart s := by
  rcases next_cases bc s call with ⟨p, hsame, ⟨_, hnext⟩ | ⟨_, hnext⟩⟩
  · intro e he
    apply h e
    rw [hnext]
    rw [← hsame.index] at he
    exact subset_flush_index bc p he
  · intro e he
    apply h e
    rw [hnext, hsame.index]
    exact he

/-- A large flush adds an entry at the start of the file. -/
theorem Scanned.small_of_noneAtStart {bc : Bincode} {rs : List Record} {s : FileChangeStore}
    (h : Scanned rs s) {call : StoreCall} (hafter : NoneAtStart ((fileStore bc).next s call)) :
    Small bc s call := by
  rcases h.openOn with ⟨more, hopen⟩
  rcases next_cases bc s call with ⟨p, hsame, ⟨hflushes, hnext⟩ | ⟨hnone, _⟩⟩
  · intro p' hp' hlarge
    obtain rfl : p = p' := Option.some_inj.mp (hflushes.symm.trans hp')
    rcases flush_adds bc (hsame.openOn hopen) with ⟨_, hadds⟩
    have hmany : 0 < p.buffer.length := by
      refine Nat.lt_of_lt_of_le ?_ hlarge.1
      rw [hsame.indexInterval, h.indexInterval]
      decide
    have hfirst : (⟨p.tailOffset - p.buffer.length + 0, 0, 0⟩ : IndexEntry) ∈
        flushedEntries (p.tailOffset - p.buffer.length) p.buffer.length p.indexInterval := by
      refine List.mem_map.mpr ⟨0, List.mem_filter.mpr ⟨List.mem_range.mpr hmany, ?_⟩, rfl⟩
      exact decide_eq_true (Nat.zero_mod _)
    rw [hnext] at hafter
    apply hafter ⟨p.tailOffset - p.buffer.length + 0, 0, 0⟩ _ rfl
    rw [hadds.large hlarge]
    exact List.mem_append_right _ hfirst
  · intro p' hp'
    rw [hnone] at hp'
    contradiction

/-! ## Runs -/

/-- Opening scans the log. -/
theorem scanned_new {d : Disk} {rs : List Record} (hlog : HoldsLog d rs) (t : Nat) :
    ∃ s, FileChangeStore.new d t = .ok s ∧ Fresh s (logBytes rs) t
      (expectedIndex defaultIndexInterval headerSize 0 rs) ∧ Scanned rs s := by
  rcases new_logBytes hlog t with ⟨s, hnew, hfresh⟩
  refine ⟨s, hnew, hfresh, ⟨[], ?_⟩, hfresh.index_eq, new_indexInterval hnew⟩
  rw [List.append_nil]
  exact hfresh.openOn

/-- A store is opened on a well-formed log and then called.  Its index tells the truth
exactly if no call has flushed as many changes as an interval of the index has. -/
theorem indexTruth_iff (bc : Bincode) (d : Disk) (rs : List Record) (hlog : HoldsLog d rs)
    (t : Nat) :
    ∃ s, FileChangeStore.new d t = .ok s ∧ ∀ calls,
      IndexTruth ((fileStore bc).run s calls) ↔ (fileStore bc).Along (Small bc) s calls := by
  rcases scanned_new hlog t with ⟨s, hnew, _, hscanned⟩
  refine ⟨s, hnew, fun calls => ?_⟩
  constructor
  · intro htruth
    exact along_of_run (M := fileStore bc) (I := Scanned rs) (G := NoneAtStart) (P := Small bc)
      (fun _ _ h hsmall => h.next hsmall) (fun _ _ hnone => noneAtStart_of_next hnone)
      (fun _ _ h hnone => h.small_of_noneAtStart hnone) hscanned htruth.noneAtStart
  · intro hsmall
    have hrun := run_invariant (M := fileStore bc) (I := Scanned rs) (P := Small bc)
      (fun _ _ h hsmall => h.next hsmall) hscanned hsmall
    exact hrun.indexTruth

/-- A log of one record is opened, and another one is appended and flushed. -/
theorem indexTruth_iff_sample :
    ∃ s, FileChangeStore.new (Disk.single logName (logBytes [sampleRecord])) 1000 = .ok s ∧
      ∀ calls, IndexTruth ((fileStore sampleBincode).run s calls) ↔
        (fileStore sampleBincode).Along (Small sampleBincode) s calls :=
  indexTruth_iff sampleBincode _ [sampleRecord]
    (Or.inl (by rw [foundLog, Disk.readFile_single]; rfl)) 1000

/-- A store whose threshold keeps fewer changes in the buffer than an interval has. -/
structure Shallow (t : Nat) (s : FileChangeStore) : Prop where
  flushThreshold : s.flushThreshold = t
  buffer_lt : s.buffer.length < max t 1

/-- With a threshold below the interval no call flushes much. -/
theorem Shallow.small {bc : Bincode} {t : Nat} (ht : t < defaultIndexInterval) {rs : List Record}
    {s : FileChangeStore} (h : Shallow t s) (hscanned : Scanned rs s) (call : StoreCall) :
    Small bc s call := by
  intro p hp hlarge
  have hbuffer := h.buffer_lt
  have hmany := hlarge.1
  have hmax : max t 1 < defaultIndexInterval := Nat.max_lt.mpr ⟨ht, by decide⟩
  cases call with
  | append c =>
      rw [StoreCall.flushes] at hp
      split_ifs at hp with hle
      obtain rfl : s.pushed c = p := Option.some_inj.mp hp
      rw [FileChangeStore.pushed, hscanned.indexInterval, List.length_append,
        List.length_singleton] at hmany
      omega
  | getSince offset => contradiction
  | tailOffset => contradiction
  | flush =>
      obtain rfl : s = p := Option.some_inj.mp hp
      rw [hscanned.indexInterval] at hmany
      omega

/-- Every call keeps the buffer small. -/
theorem Shallow.next {bc : Bincode} {t : Nat} {rs : List Record} {s : FileChangeStore}
    (h : Shallow t s) (hscanned : Scanned rs s) (call : StoreCall) :
    Shallow t ((fileStore bc).next s call) := by
  rcases hscanned.openOn with ⟨more, hopen⟩
  have hflushed : ∀ p, SameLog s p → p.flushThreshold = t → Shallow t (p.flush bc).1 := by
    intro p hsame hthreshold
    rcases flush_adds bc (hsame.openOn hopen) with ⟨_, hadds⟩
    refine ⟨hadds.flushThreshold.trans hthreshold, ?_⟩
    rw [hadds.buffer]
    exact Nat.lt_of_lt_of_le Nat.one_pos (Nat.le_max_right _ _)
  cases call with
  | append c =>
      by_cases hle : s.flushThreshold ≤ s.buffer.length + 1
      · rw [next_append_of_le bc hle]
        exact hflushed _ ⟨rfl, rfl, rfl, rfl⟩ h.flushThreshold
      · have hlt := Nat.lt_of_not_le hle
        rw [next_append_of_lt bc hlt]
        refine ⟨h.flushThreshold, ?_⟩
        rw [h.flushThreshold] at hlt
        rw [FileChangeStore.pushed, List.length_append, List.length_singleton]
        exact Nat.lt_of_lt_of_le hlt (Nat.le_max_left _ _)
  | getSince offset => exact h
  | tailOffset => exact h
  | flush => exact hflushed s ⟨rfl, rfl, rfl, rfl⟩ h.flushThreshold

/-- With a threshold below the interval an index always tells the truth. -/
theorem indexTruth_of_threshold (bc : Bincode) {d : Disk} {rs : List Record}
    (hlog : HoldsLog d rs) {t : Nat} (ht : t < defaultIndexInterval) :
    ∃ s, FileChangeStore.new d t = .ok s ∧
      ∀ calls, IndexTruth ((fileStore bc).run s calls) := by
  rcases scanned_new hlog t with ⟨s, hnew, hfresh, hscanned⟩
  have hshallow : Shallow t s := by
    refine ⟨hfresh.flushThreshold, ?_⟩
    rw [hfresh.buffer]
    exact Nat.lt_of_lt_of_le Nat.one_pos (Nat.le_max_right _ _)
  refine ⟨s, hnew, fun calls => ?_⟩
  have hrun := run_invariant (M := fileStore bc) (I := fun s => Scanned rs s ∧ Shallow t s)
    (P := fun _ _ => True) (fun _ call h _ => ⟨h.1.next (h.2.small ht h.1 call), h.2.next h.1 call⟩)
    ⟨hscanned, hshallow⟩ (along_trivial s calls)
  exact hrun.1.indexTruth

/-- Appends below the threshold only fill the buffer. -/
theorem run_appends (bc : Bincode) (c : Change) (n : Nat) {s : FileChangeStore}
    (hroom : s.buffer.length + n < s.flushThreshold) :
    SameLog s ((fileStore bc).run s (List.replicate n (.append c))) ∧
      ((fileStore bc).run s (List.replicate n (.append c))).flushThreshold = s.flushThreshold ∧
      ((fileStore bc).run s (List.replicate n (.append c))).buffer =
        s.buffer ++ List.replicate n c := by
  induction n generalizing s with
  | zero => exact ⟨⟨rfl, rfl, rfl, rfl⟩, rfl, (List.append_nil _).symm⟩
  | succ n ih =>
      have hlt : s.buffer.length + 1 < s.flushThreshold := by omega
      have hroom' : (s.pushed c).buffer.length + n < s.flushThreshold := by
        rw [FileChangeStore.pushed, List.length_append, List.length_singleton]
        omega
      rcases ih hroom' with ⟨hsame, hthreshold, hbuffer⟩
      rw [List.replicate_succ, run_cons, next_append_of_lt bc hlt]
      refine ⟨⟨hsame.disk, hsame.file, hsame.index, hsame.indexInterval⟩, hthreshold, ?_⟩
      rw [hbuffer, FileChangeStore.pushed, List.append_assoc, List.singleton_append,
        List.replicate_succ]

/-- With a threshold from the interval on, as many appends to a new log bring an entry that is
not of a record. -/
theorem exists_not_indexTruth {n : Nat} (hlarge : defaultIndexInterval ≤ n + 1) :
    ∃ s, FileChangeStore.new Disk.empty (n + 1) = .ok s ∧
      ¬ IndexTruth ((fileStore sampleBincode).run s
        (List.replicate n (.append sampleChange) ++ [.append sampleChange])) := by
  have hempty : HoldsLog Disk.empty [] := Or.inr ⟨rfl, rfl⟩
  rcases scanned_new hempty (n + 1) with ⟨s, hnew, hfresh, hscanned⟩
  have hroom : s.buffer.length + n < s.flushThreshold := by
    rw [hfresh.buffer, hfresh.flushThreshold, List.length_nil]
    omega
  rcases run_appends sampleBincode sampleChange n hroom with ⟨hsame, hthreshold, hbuffer⟩
  rw [hfresh.buffer, List.nil_append] at hbuffer
  rw [hfresh.flushThreshold] at hthreshold
  have hfilled : Scanned [] ((fileStore sampleBincode).run s
      (List.replicate n (.append sampleChange))) := by
    rcases hscanned.openOn with ⟨more, hopen⟩
    exact ⟨⟨more, hsame.openOn hopen⟩, hsame.index.trans hscanned.index_eq,
      hsame.indexInterval.trans hscanned.indexInterval⟩
  refine ⟨s, hnew, fun htruth => ?_⟩
  rw [run_append, run_cons, run_nil] at htruth
  generalize (fileStore sampleBincode).run s (List.replicate n (.append sampleChange)) = filled
    at *
  have hsmall : Small sampleBincode filled (.append sampleChange) :=
    hfilled.small_of_noneAtStart htruth.noneAtStart
  refine hsmall (filled.pushed sampleChange) (if_pos ?_) ⟨?_, ?_⟩
  · rw [hthreshold, hbuffer, List.length_replicate]
  · rw [FileChangeStore.pushed, hfilled.indexInterval, hbuffer, List.length_append,
      List.length_replicate, List.length_singleton]
    exact hlarge
  · rw [FileChangeStore.pushed, hbuffer]
    intro c hc
    have hsample : c = sampleChange := by
      rcases List.mem_append.mp hc with hmem | hmem
      · exact List.eq_of_mem_replicate hmem
      · exact List.mem_singleton.mp hmem
    rw [hsample]
    exact ⟨_, serialize_sampleChange⟩

/-- A new log with a threshold of 1000, and 1000 changes. -/
theorem not_indexTruth_large :
    ∃ s, FileChangeStore.new Disk.empty 1000 = .ok s ∧
      ¬ IndexTruth ((fileStore sampleBincode).run s
        (List.replicate 999 (.append sampleChange) ++ [.append sampleChange])) :=
  exists_not_indexTruth (Nat.le_refl 1000)

end IrohSync
