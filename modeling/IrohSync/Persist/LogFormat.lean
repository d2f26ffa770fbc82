import Mathlib.Data.List.Forall2
import IrohSync.Persist.Store

/-!
# Well-formed logs and their scanners

A well-formed log is the header followed by framed records, none of them empty
and none of {lit}`2 ^ 32` bytes or more.  Each scanner of the store gets one
theorem that runs it over any number of whole records, so that the results
about whole operations never unfold a scanner.

Main results:

- Theorem {lit}`buildIndex_logBytes`: the index of a well-formed log.
- Theorem {lit}`readChangesLoop_records`: reading over records decodes exactly
  the requested ones.
- Theorem {lit}`compactLoop_frames`: the copy loop over arbitrary frames.
- Theorem {lit}`mem_expectedIndex_iff`: the entries of an index are the leading
  records at multiples of the interval, with their true positions.
-/

namespace IrohSync

open FileIo Framing Loop BinarySearch

/-! ## Records -/

/-- The bytes of one record as a flush writes them. -/
@[ext]
structure Record where
  bytes : Bytes
  length_pos : 0 < bytes.length
  length_lt : bytes.length < 2 ^ 32

/-- Framed records. -/
def recordBytes (rs : List Record) : Bytes :=
  frames le (rs.map Record.bytes)

/-- A well-formed log. -/
def logBytes (rs : List Record) : Bytes :=
  header ++ recordBytes rs

@[simp]
theorem recordBytes_nil : recordBytes [] = [] :=
  rfl

@[simp]
theorem recordBytes_cons (r : Record) (rs : List Record) :
    recordBytes (r :: rs) = frame le r.bytes ++ recordBytes rs :=
  rfl

theorem recordBytes_append (front back : List Record) :
    recordBytes (front ++ back) = recordBytes front ++ recordBytes back := by
  simp [recordBytes, frames_append]

theorem logBytes_append (front back : List Record) :
    logBytes (front ++ back) = logBytes front ++ recordBytes back := by
  simp [logBytes, recordBytes_append]

@[simp]
theorem header_length : header.length = headerSize :=
  rfl

/-- A length prefix of a record is read back. -/
theorem Record.read_write (r : Record) : le.read (le.write r.bytes.length) = r.bytes.length :=
  read_write_of_lt r.length_lt

/-- Where record number `i` of a log starts. -/
def recordPosition (rs : List Record) (i : Nat) : Nat :=
  headerSize + (recordBytes (rs.take i)).length

theorem recordPosition_lt (rs : List Record) {i j : Nat} (hij : i < j) (hj : j ≤ rs.length) :
    recordPosition rs i < recordPosition rs j := by
  have hj' : j ≤ (rs.map Record.bytes).length := by simpa using hj
  have hlt := frames_take_length_lt le hij hj'
  simpa [recordPosition, recordBytes, List.map_take] using hlt

/-- The bytes from the start of a record on. -/
theorem drop_recordPosition (rs : List Record) (i : Nat) :
    (logBytes rs).drop (recordPosition rs i) = recordBytes (rs.drop i) := by
  have hsplit : logBytes rs = (header ++ recordBytes (rs.take i)) ++ recordBytes (rs.drop i) := by
    rw [List.append_assoc, ← recordBytes_append, List.take_append_drop, logBytes]
  have hlen : recordPosition rs i = (header ++ recordBytes (rs.take i)).length := by
    simp [recordPosition]
  rw [hsplit, hlen, List.drop_left]

/-- A log and the bytes of an incomplete record behind it determine the records. -/
theorem logBytes_append_inj {rs rs' : List Record} {left left' : Bytes}
    (hleft : Incomplete le left) (hleft' : Incomplete le left')
    (heq : logBytes rs ++ left = logBytes rs' ++ left') : rs = rs' ∧ left = left' := by
  simp only [logBytes, List.append_assoc, List.append_cancel_left_eq] at heq
  have hlt : ∀ (rs : List Record), ∀ body ∈ rs.map Record.bytes, body.length < 2 ^ 32 := by
    intro rs body hbody
    rcases List.mem_map.mp hbody with ⟨r, _, rfl⟩
    exact r.length_lt
  rcases Unframes.unique (p := le) ⟨rfl, hlt rs, hleft⟩ ⟨heq, hlt rs', hleft'⟩ with ⟨hmap, hl⟩
  exact ⟨List.map_injective_iff.mpr (fun _ _ => Record.ext) hmap, hl⟩

theorem incomplete_nil : Incomplete le [] :=
  Or.inl (by decide)

/-! ## Building the index -/

/-- The index that a scan at a byte position and record number adds for the
records in front of it. -/
def expectedIndex (indexInterval : Nat) : Nat → Nat → List Record → List IndexEntry
  | _, _, [] => []
  | pos, offset, r :: rs =>
      if maxIndexedLength < r.bytes.length then []
      else
        (if offset % indexInterval = 0 then
          [{ offset := offset, position := pos, length := r.bytes.length }]
        else []) ++ expectedIndex indexInterval (pos + 4 + r.bytes.length) (offset + 1) rs

/-- The scan over records that end the file. -/
theorem buildIndexLoop_records {indexInterval : Nat} {rs : List Record} {s : IndexScan}
    (hrest : s.reader.rest = recordBytes rs) :
    (buildIndexLoop indexInterval).run s =
      .ok (s.index ++ expectedIndex indexInterval s.pos s.offset rs) := by
  induction rs generalizing s with
  | nil =>
      have hread : s.reader.readExact 4 = .error .eof :=
        Reader.readExact_eof (by simp [hrest])
      rw [Body.run_done (buildIndexLoop indexInterval) (.ok s.index)]
      · simp [expectedIndex]
      · simp [buildIndexLoop, hread, IoError.eof]
  | cons r rs ih =>
      rcases readPrefix_frame hrest with ⟨hread, hbody⟩
      have hlen := r.read_write
      have hne : r.bytes.length ≠ 0 := Nat.pos_iff_ne_zero.mp r.length_pos
      by_cases hcap : maxIndexedLength < r.bytes.length
      · rw [Body.run_done (buildIndexLoop indexInterval) (.ok s.index)]
        · simp [expectedIndex, hcap]
        · simp [buildIndexLoop, hread, hlen, hne, hcap]
      · -- the seek lands on the next record because the reader stands at `pos`
        have hnext : Reader.rest ⟨s.reader.data, s.pos + 4 + r.bytes.length⟩ = recordBytes rs := by
          have hskip := Reader.rest_advance_append hbody
          rwa [s.reader_pos] at hskip
        rw [Body.run_next (buildIndexLoop indexInterval)
          { reader := ⟨s.reader.data, s.pos + 4 + r.bytes.length⟩
            index :=
              if s.offset % indexInterval = 0 then
                s.index ++ [{ offset := s.offset, position := s.pos, length := r.bytes.length }]
              else s.index
            pos := s.pos + 4 + r.bytes.length
            offset := s.offset + 1
            reader_pos := rfl }]
        · rw [ih hnext]
          simp only [expectedIndex, hcap, if_false]
          split <;> simp
        · simp [buildIndexLoop, hread, hlen, hne, hcap, Reader.seek]

/-- The index of a well-formed log. -/
theorem buildIndex_logBytes (rs : List Record) (indexInterval : Nat) :
    buildIndex (logBytes rs) indexInterval =
      .ok (expectedIndex indexInterval headerSize 0 rs) := by
  have hrest : Reader.rest (Reader.seek ⟨logBytes rs, 0⟩ headerSize) = recordBytes rs := by
    simp only [Reader.rest, Reader.seek]
    exact drop_recordPosition rs 0
  rw [buildIndex, buildIndexLoop_records hrest, List.nil_append]

/-- Whatever the bytes are, building an index succeeds. -/
theorem exists_buildIndex (data : Bytes) (indexInterval : Nat) :
    ∃ index, buildIndex data indexInterval = .ok index := by
  apply Body.run_invariant (buildIndexLoop indexInterval) (fun _ => True)
    (fun result => ∃ index, result = .ok index)
  · intro s s' _ _
    trivial
  · intro s result _ hpass
    simp only [buildIndexLoop] at hpass
    split at hpass
    · rename_i e hread
      rw [(Reader.readExact_eq_error hread).1] at hpass
      simp only [IoError.eof, if_true, Pass.done.injEq] at hpass
      exact ⟨_, hpass.symm⟩
    · split at hpass
      · exact ⟨_, (Pass.done.inj hpass).symm⟩
      · split at hpass
        · exact ⟨_, (Pass.done.inj hpass).symm⟩
        · contradiction
  · trivial

/-! ## The entries of an index -/

/-- How many leading records an index build looks at. -/
def indexedCount (rs : List Record) : Nat :=
  (rs.takeWhile fun r => r.bytes.length ≤ maxIndexedLength).length

theorem indexedCount_le (rs : List Record) : indexedCount rs ≤ rs.length :=
  (List.takeWhile_sublist _).length_le

/-- An index covers the whole log exactly when no record is too large for it. -/
theorem indexedCount_eq_length_iff (rs : List Record) :
    indexedCount rs = rs.length ↔ ∀ r ∈ rs, r.bytes.length ≤ maxIndexedLength := by
  induction rs with
  | nil => simp [indexedCount]
  | cons r rs ih =>
      by_cases hcap : r.bytes.length ≤ maxIndexedLength
      · simpa [indexedCount, hcap] using ih
      · simp [indexedCount, hcap]

/-- The entries of an index are the leading records at multiples of the
interval, with their true positions. -/
theorem mem_expectedIndex_iff {indexInterval pos offset : Nat} {rs : List Record}
    {e : IndexEntry} :
    e ∈ expectedIndex indexInterval pos offset rs ↔
      ∃ i, i < indexedCount rs ∧ (offset + i) % indexInterval = 0 ∧
        e.offset = offset + i ∧ e.position = pos + (recordBytes (rs.take i)).length ∧
        ∃ r, rs[i]? = some r ∧ e.length = r.bytes.length := by
  induction rs generalizing pos offset with
  | nil => simp [expectedIndex, indexedCount]
  | cons r rs ih =>
      by_cases hcap : maxIndexedLength < r.bytes.length
      · have hcount : indexedCount (r :: rs) = 0 := by
          simp [indexedCount, hcap]
        simp [expectedIndex, hcap, hcount]
      · have hcount : indexedCount (r :: rs) = indexedCount rs + 1 := by
          simp [indexedCount, Nat.le_of_not_lt hcap]
        simp only [expectedIndex, hcap, if_false, List.mem_append, ih, hcount]
        constructor
        · rintro (hhead | ⟨i, hi, hmod, hoff, hpos, r', hr', hlen⟩)
          · split at hhead
            · rename_i hmod
              simp only [List.mem_singleton] at hhead
              subst e
              exact ⟨0, by omega, by simpa using hmod, by simp, by simp, r, by simp, rfl⟩
            · simp at hhead
          · refine ⟨i + 1, by omega, ?_, by omega, ?_, r', by simpa using hr', hlen⟩
            · rwa [show offset + (i + 1) = offset + 1 + i by omega]
            · simp only [List.take_succ_cons, recordBytes_cons, List.length_append,
                frame_length]
              omega
        · rintro ⟨i, hi, hmod, hoff, hpos, r', hr', hlen⟩
          cases i with
          | zero =>
              left
              simp only [List.getElem?_cons_zero, Option.some.injEq] at hr'
              subst r'
              rw [if_pos (by simpa using hmod), List.mem_singleton]
              cases e
              simp_all
          | succ i =>
              right
              refine ⟨i, by omega, ?_, by omega, ?_, r', by simpa using hr', hlen⟩
              · rwa [show offset + 1 + i = offset + (i + 1) by omega]
              · simp only [List.take_succ_cons, recordBytes_cons, List.length_append,
                  frame_length] at hpos
                omega

/-- The offsets of an index increase strictly. -/
theorem pairwise_expectedIndex (indexInterval pos offset : Nat) (rs : List Record) :
    (expectedIndex indexInterval pos offset rs).Pairwise fun e e' => e.offset < e'.offset := by
  induction rs generalizing pos offset with
  | nil => simp [expectedIndex]
  | cons r rs ih =>
      simp only [expectedIndex]
      split
      · simp
      · rw [List.pairwise_append]
        refine ⟨by split <;> simp, ih _ _, ?_⟩
        intro e he e' he'
        rcases mem_expectedIndex_iff.mp he' with ⟨i, _, _, hoff, _⟩
        split at he
        · simp only [List.mem_singleton] at he
          subst e
          simp only
          omega
        · simp at he

/-! ## Reading -/

/-- The laws of the change encoding that the store relies on. -/
structure Bincode.Lawful (bc : Bincode) : Prop where
  /-- Decoding inverts encoding. -/
  deserialize_serialize : ∀ {change bytes},
    bc.serialize change = .ok bytes → bc.deserialize bytes = .ok change

/-- Changes and the records that hold them. -/
def Encodes (bc : Bincode) (cs : List Change) (rs : List Record) : Prop :=
  List.Forall₂ (fun c r => bc.serialize c = .ok r.bytes) cs rs

theorem Encodes.length_eq {bc : Bincode} {cs : List Change} {rs : List Record}
    (h : Encodes bc cs rs) : cs.length = rs.length :=
  List.Forall₂.length_eq h

theorem Encodes.eq_nil {bc : Bincode} {rs : List Record} (h : Encodes bc [] rs) : rs = [] :=
  List.forall₂_nil_left_iff.mp h

theorem Encodes.drop {bc : Bincode} {cs : List Change} {rs : List Record}
    (h : Encodes bc cs rs) (n : Nat) : Encodes bc (cs.drop n) (rs.drop n) :=
  List.forall₂_drop n h

theorem Encodes.take {bc : Bincode} {cs : List Change} {rs : List Record}
    (h : Encodes bc cs rs) (n : Nat) : Encodes bc (cs.take n) (rs.take n) :=
  List.forall₂_take n h

theorem Encodes.append {bc : Bincode} {cs cs' : List Change} {rs rs' : List Record}
    (h : Encodes bc cs rs) (h' : Encodes bc cs' rs') :
    Encodes bc (cs ++ cs') (rs ++ rs') :=
  List.rel_append h h'

/-- An eight-byte number of the encoding, least significant byte first. -/
def le64 (n : Nat) : Bytes :=
  leBytes n ++ leBytes (n / 2 ^ 32)

/-- The encoding of the small change: counted identifier, timestamp, counted
namespace and database, no table, operation number, key, no value, no metadata. -/
def sampleBytes : Bytes :=
  le64 16 ++ List.replicate 16 0 ++ le64 0 ++ le64 1 ++ [110] ++ le64 1 ++ [100] ++ [0] ++
    leBytes 2 ++ [1] ++ le64 1 ++ [7] ++ [0] ++ le64 0

/-- The encoding restricted to the small change. -/
def sampleBincode : Bincode where
  serialize c := if c = sampleChange then .ok sampleBytes else .error "not the sample change"
  deserialize b := if b = sampleBytes then .ok sampleChange else .error "not the sample bytes"

theorem sampleBincode_lawful : sampleBincode.Lawful where
  deserialize_serialize := by
    intro change bytes h
    simp only [sampleBincode] at h ⊢
    split_ifs at h with hchange
    rw [← Except.ok.inj h, if_pos rfl, hchange]

/-- The record of the small change. -/
def sampleRecord : Record where
  bytes := sampleBytes
  length_pos := by decide
  length_lt := by decide

theorem sampleRecord_small : sampleRecord.bytes.length < 256 := by
  decide

theorem serialize_sampleChange :
    sampleBincode.serialize sampleChange = .ok sampleRecord.bytes := by
  simp [sampleBincode, sampleRecord]

/-- A closed store whose log holds the given records. -/
def storeOf (rs : List Record) : FileChangeStore where
  disk := Disk.single logName (logBytes rs)
  tailOffset := rs.length
  file := none
  buffer := []
  flushThreshold := defaultFlushThreshold
  index := []
  indexInterval := defaultIndexInterval

theorem storeOf_log (rs : List Record) : (storeOf rs).log = some (logBytes rs) :=
  Disk.readFile_single logName (logBytes rs)

/-- Reading over records decodes exactly the requested ones. -/
theorem readChangesLoop_records {bc : Bincode} (hbc : bc.Lawful) {offset : Nat}
    {cs : List Change} {rs : List Record} (henc : Encodes bc cs rs) {s : ReadScan}
    {left : Bytes} (hrest : s.reader.rest = recordBytes rs ++ left) :
    (readChangesLoop bc offset).run s =
      (readChangesLoop bc offset).run
        { reader := { s.reader with pos := s.reader.pos + (recordBytes rs).length }
          changes := s.changes ++ cs.drop (offset - s.currentOffset)
          currentOffset := s.currentOffset + rs.length } := by
  induction henc generalizing s with
  | nil => simp
  | @cons c r cs rs hc _ ih =>
      rw [recordBytes_cons, List.append_assoc] at hrest
      rcases readPrefix_frame hrest with ⟨hread, hbody⟩
      rcases readBody_frame hbody with ⟨hreadBody, hnext⟩
      have hlen := r.read_write
      have hne : r.bytes.length ≠ 0 := Nat.pos_iff_ne_zero.mp r.length_pos
      have hdecode := hbc.deserialize_serialize hc
      by_cases hwanted : offset ≤ s.currentOffset
      · rw [Body.run_next (readChangesLoop bc offset)
          ⟨⟨s.reader.data, s.reader.pos + 4 + r.bytes.length⟩, s.changes ++ [c],
            s.currentOffset + 1⟩]
        · rw [ih hnext]
          have hzero : offset - s.currentOffset = 0 := by omega
          have hzero' : offset - (s.currentOffset + 1) = 0 := by omega
          simp [hzero, hzero', Nat.add_assoc, Nat.add_comm 1]
        · simp [readChangesLoop, hread, hlen, hne, hreadBody, hwanted, hdecode]
      · rw [Body.run_next (readChangesLoop bc offset)
          ⟨⟨s.reader.data, s.reader.pos + 4 + r.bytes.length⟩, s.changes, s.currentOffset + 1⟩]
        · rw [ih hnext]
          have hdrop : offset - s.currentOffset = offset - (s.currentOffset + 1) + 1 := by
            omega
          simp [hdrop, Nat.add_assoc, Nat.add_comm 1]
        · simp [readChangesLoop, hread, hlen, hne, hreadBody, hwanted]

/-- A read stops where fewer than four bytes are left. -/
theorem readChangesLoop_eof {bc : Bincode} {offset : Nat} {s : ReadScan}
    (hrest : s.reader.rest.length < 4) :
    (readChangesLoop bc offset).run s = .ok s.changes := by
  apply Body.run_done
  simp [readChangesLoop, Reader.readExact_eof hrest, IoError.eof]

/-- A read stops at a zero length. -/
theorem readChangesLoop_zero {bc : Bincode} {offset : Nat} {s : ReadScan}
    (hrest : 4 ≤ s.reader.rest.length) (hzero : le.read (s.reader.rest.take 4) = 0) :
    (readChangesLoop bc offset).run s = .ok s.changes := by
  apply Body.run_done
  have hread : ¬ s.reader.rest.length < 4 := Nat.not_lt.mpr hrest
  simp [readChangesLoop, Reader.readExact, hread, hzero]

/-- A read fails inside a record whose body is not complete. -/
theorem readChangesLoop_torn {bc : Bincode} {offset : Nat} {s : ReadScan}
    (hrest : 4 ≤ s.reader.rest.length) (hne : le.read (s.reader.rest.take 4) ≠ 0)
    (htorn : s.reader.rest.length < 4 + le.read (s.reader.rest.take 4)) :
    (readChangesLoop bc offset).run s = .error (readFailed .eof) := by
  apply Body.run_done
  have hread : s.reader.readExact 4 =
      .ok (s.reader.rest.take 4, { s.reader with pos := s.reader.pos + 4 }) := by
    simp [Reader.readExact, Nat.not_lt.mpr hrest]
  have hbody : Reader.readExact { s.reader with pos := s.reader.pos + 4 }
      (le.read (s.reader.rest.take 4)) = .error .eof := by
    apply Reader.readExact_eof
    rw [Reader.rest_advance, List.length_drop]
    omega
  simp [readChangesLoop, hread, hne, hbody]

/-! ## Copying -/

/-- The copy loop runs over frames of any length and writes those from the
requested number on. -/
theorem compactLoop_frames {keepFromOffset : Nat} {bodies : List Bytes} {left : Bytes}
    (hlt : ∀ body ∈ bodies, body.length < 2 ^ 32) {c : Compaction}
    (hrest : c.reader.rest = frames le bodies ++ left) :
    (compactLoop keepFromOffset).run c =
      (compactLoop keepFromOffset).run
        { reader := { c.reader with pos := c.reader.pos + (frames le bodies).length }
          disk := (c.disk.write c.writer
            (frames le (bodies.drop (keepFromOffset - c.recordNumber)))).1
          writer := (c.disk.write c.writer
            (frames le (bodies.drop (keepFromOffset - c.recordNumber)))).2
          newOffset := c.newOffset + (bodies.drop (keepFromOffset - c.recordNumber)).length
          recordNumber := c.recordNumber + bodies.length } := by
  induction bodies generalizing c with
  | nil => simp
  | cons body bodies ih =>
      rw [frames_cons, List.append_assoc] at hrest
      rcases readPrefix_frame hrest with ⟨hread, hbody⟩
      rcases readBody_frame hbody with ⟨hreadBody, hnext⟩
      have hlen : le.read (le.write body.length) = body.length :=
        read_write_of_lt (hlt body List.mem_cons_self)
      have hltRest : ∀ b ∈ bodies, b.length < 2 ^ 32 := fun b hb =>
        hlt b (List.mem_cons_of_mem _ hb)
      by_cases hkeep : keepFromOffset ≤ c.recordNumber
      · rw [Body.run_next (compactLoop keepFromOffset)
          ⟨⟨c.reader.data, c.reader.pos + 4 + body.length⟩,
            (c.disk.write c.writer (frame le body)).1, (c.disk.write c.writer (frame le body)).2,
            c.newOffset + 1, c.recordNumber + 1⟩]
        · rw [ih hltRest hnext]
          have hzero : keepFromOffset - c.recordNumber = 0 := by omega
          have hzero' : keepFromOffset - (c.recordNumber + 1) = 0 := by omega
          simp [hzero, hzero', Disk.write_write, Nat.add_assoc, Nat.add_comm 1]
        · simp [compactLoop, hread, hlen, hreadBody, hkeep, Disk.write_write, frame]
      · rw [Body.run_next (compactLoop keepFromOffset)
          ⟨⟨c.reader.data, c.reader.pos + 4 + body.length⟩, c.disk, c.writer, c.newOffset,
            c.recordNumber + 1⟩]
        · rw [ih hltRest hnext]
          have hdrop : keepFromOffset - c.recordNumber =
              keepFromOffset - (c.recordNumber + 1) + 1 := by
            omega
          simp [hdrop, Nat.add_assoc, Nat.add_comm 1]
        · simp [compactLoop, hread, hlen, hreadBody, hkeep]

/-- A pass of the copy loop where no complete frame is left. -/
theorem compactLoop_pass_incomplete {keepFromOffset : Nat} {c : Compaction}
    (hrest : Incomplete le c.reader.rest) :
    (compactLoop keepFromOffset).pass c = .done (c, .ok ()) := by
  by_cases h4 : c.reader.rest.length < 4
  · simp [compactLoop, Reader.readExact_eof h4, IoError.eof]
  · have hread : c.reader.readExact 4 =
        .ok (c.reader.rest.take 4, { c.reader with pos := c.reader.pos + 4 }) := by
      simp [Reader.readExact, h4]
    have hshort : c.reader.rest.length < 4 + le.read (c.reader.rest.take 4) :=
      hrest.resolve_left h4
    have hbody : Reader.readExact { c.reader with pos := c.reader.pos + 4 }
        (le.read (c.reader.rest.take 4)) = .error .eof := by
      apply Reader.readExact_eof
      rw [Reader.rest_advance, List.length_drop]
      omega
    simp [compactLoop, hread, hbody, IoError.eof]

/-- The copy loop ends where no complete frame is left. -/
theorem compactLoop_incomplete {keepFromOffset : Nat} {c : Compaction}
    (hrest : Incomplete le c.reader.rest) :
    (compactLoop keepFromOffset).run c = (c, .ok ()) :=
  Body.run_done _ _ (compactLoop_pass_incomplete hrest)

end IrohSync
