import Mathlib.Data.Nat.Find
import Mathlib.Tactic.IntervalCases
import IrohSync.Persist.Session

/-!
# Recovery from a torn write

A crash in the middle of a write leaves a prefix of a well-formed log.  Opening
never truncates such a file: a header that is not complete stays in front of the
new one, and the bytes of an incomplete record stay in front of whatever is
appended later.

Main results:

- Theorem {lit}`recovers_of_holdsLog`: a log that ends with a record recovers.
- Theorems {lit}`not_recovers_tornHeader` and {lit}`not_recovers_tornRecord`: a
  cut inside the header or inside a record does not.
- Theorem {lit}`recovers_iff`: exactly which prefixes recover.
-/

namespace IrohSync

open FileIo Framing Loop

/-! ## What recovery promises -/

/-- How many leading records of a log end within its first bytes. -/
def completeCount (rs : List Record) (size : Nat) : Nat :=
  Nat.findGreatest (fun j => recordPosition rs j ≤ size) rs.length

/-- Whatever is appended to a store and flushed is read behind the changes it
starts with, by this store and after a reopen. -/
def ServesAfterAppends (bc : Bincode) (s : FileChangeStore) (cs : List Change) : Prop :=
  ∀ ops, (∀ c ∈ appended ops, Encodable bc c) →
    ∃ s', s.runFlushed bc ops = .ok s' ∧ s'.getSince bc 0 = .ok (cs ++ appended ops) ∧
      ∀ t, ∃ s'', FileChangeStore.new s'.disk t = .ok s'' ∧
        s''.getSince bc 0 = .ok (cs ++ appended ops)

/-- Opening a directory succeeds, finds the changes and keeps serving them. -/
def Recovers (bc : Bincode) (cs : List Change) (d : Disk) (t : Nat) : Prop :=
  ∃ s, FileChangeStore.new d t = .ok s ∧ s.getSince bc 0 = .ok cs ∧
    ServesAfterAppends bc s cs

/-- A crash left nothing, or the header and some whole records. -/
def AtRecordBoundary (rs : List Record) (bytes : Bytes) : Prop :=
  bytes = [] ∨ ∃ j ≤ rs.length, bytes = logBytes (rs.take j)

/-! ## Cuts between records -/

theorem OpenOn.foundLog {s : FileChangeStore} {data : Bytes} (h : OpenOn s data) :
    foundLog s.disk = data := by
  have hlog := h.log
  rw [FileChangeStore.log] at hlog
  simp [IrohSync.foundLog, hlog]

/-- A directory with a well-formed log, or none yet, recovers. -/
theorem recovers_of_holdsLog {bc : Bincode} (hbc : bc.Lawful) {cs : List Change}
    {rs : List Record} (henc : Encodes bc cs rs) {d : Disk} (hlog : HoldsLog d rs) (t : Nat) :
    Recovers bc cs d t := by
  rcases new_logBytes hlog t with ⟨s, hnew, hfresh⟩
  refine ⟨s, hnew, getSince_zero_logBytes hbc henc hfresh.openOn.log, ?_⟩
  intro ops hops
  rcases (hfresh.holdsFlushed bc).holds.runFlushed hops with ⟨s', hrun, rs', hopen, henc', _⟩
  rw [List.nil_append] at henc'
  rw [← logBytes_append] at hopen
  refine ⟨s', hrun, getSince_zero_logBytes hbc (henc.append henc') hopen.log, ?_⟩
  intro t'
  rcases new_logBytes (Or.inl hopen.foundLog) t' with ⟨s'', hnew', hfresh'⟩
  exact ⟨s'', hnew', getSince_zero_logBytes hbc (henc.append henc') hfresh'.openOn.log⟩

/-- The records in front of a record boundary are the complete ones. -/
theorem completeCount_recordPosition {rs : List Record} {j : Nat} (hj : j ≤ rs.length) :
    completeCount rs (recordPosition rs j) = j := by
  rw [completeCount, Nat.findGreatest_eq_iff]
  refine ⟨hj, fun _ => Nat.le_refl _, ?_⟩
  intro i hji hi hle
  have hlt := recordPosition_lt rs hji hi
  omega

/-- Bytes that do not hold the header hold no record. -/
theorem completeCount_of_lt {rs : List Record} {size : Nat} (hlt : size < headerSize) :
    completeCount rs size = 0 := by
  rw [completeCount, Nat.findGreatest_eq_zero_iff]
  intro i _ _ hle
  simp only [recordPosition] at hle
  omega

/-- A store that recovers reads the complete changes, reads back what is appended
and can be opened again. -/
theorem Recovers.elim {bc : Bincode} {cs : List Change} {d : Disk} {t : Nat}
    (h : Recovers bc cs d t) {s : FileChangeStore} (hnew : FileChangeStore.new d t = .ok s) :
    s.getSince bc 0 = .ok cs ∧ ReadsBack bc s cs ∧
      ∃ s', s.runFlushed bc [] = .ok s' ∧ ∃ s'', FileChangeStore.new s'.disk t = .ok s'' := by
  rcases h with ⟨s', hnew', hread, hserves⟩
  rw [hnew, Except.ok.injEq] at hnew'
  subst s'
  refine ⟨hread, fun ops hops => ?_, ?_⟩
  · rcases hserves ops hops with ⟨s', hrun, hread', _⟩
    exact ⟨s', hrun, hread'⟩
  · rcases hserves [] (by simp [appended]) with ⟨s', hrun, _, hreopen⟩
    rcases hreopen t with ⟨s'', hnew', _⟩
    exact ⟨s', hrun, s'', hnew'⟩

/-! ## Cuts inside the header -/

/-- Opening a file whose first sixteen bytes are no header fails. -/
theorem new_of_bad_header {d : Disk} (hlen : headerSize ≤ (foundLog d).length)
    (hbad : (foundLog d).take 4 ≠ logMagic ∨
      logVersion < le.read (((foundLog d).drop 4).take 4)) (t : Nat) :
    ∃ e, FileChangeStore.new d t = .error e := by
  rcases openAppend_log d with ⟨d', f, hopened, _, _, hcontent⟩
  have hread : Reader.readExact ⟨foundLog d, 0⟩ headerSize =
      .ok ((foundLog d).take headerSize, ⟨foundLog d, headerSize⟩) := by
    simp [Reader.readExact, Reader.rest, Nat.not_lt.mpr hlen]
  have hmagic : ((foundLog d).take headerSize).take 4 = (foundLog d).take 4 := by
    rw [List.take_take, Nat.min_eq_left (by decide)]
  have hversion : (((foundLog d).take headerSize).drop 4).take 4 =
      ((foundLog d).drop 4).take 4 := by
    rw [List.drop_take, List.take_take, Nat.min_eq_left (by decide)]
  have hinit : ∃ e, initializeFile d' f defaultIndexInterval = .error e := by
    simp only [initializeFile, hcontent, if_neg (Nat.not_lt.mpr hlen), hread, hmagic, hversion]
    by_cases hne : (foundLog d).take 4 ≠ logMagic
    · exact ⟨_, if_pos hne⟩
    · rw [if_neg hne, if_pos (hbad.resolve_left hne)]
      exact ⟨_, rfl⟩
  rcases hinit with ⟨e, hinit⟩
  exact ⟨_, by simp only [FileChangeStore.new, hopened, hinit]; rfl⟩

/-- Fewer than eight bytes of a header push the next header out of place, and
the file cannot be opened again. -/
theorem tornHeader_unopenable {n : Nat} (hpos : 0 < n) (hn : n < 8) :
    (header.take n ++ header).take 4 ≠ logMagic ∨
      logVersion < le.read (((header.take n ++ header).drop 4).take 4) := by
  interval_cases n <;> decide

/-- Eight to eleven bytes of a header leave a zero length in front of the
records. -/
theorem tornHeader_zero {n : Nat} (h8 : 8 ≤ n) (hn : n < 12) :
    ∃ back, (header.take n ++ header).drop headerSize = [0, 0, 0, 0] ++ back := by
  interval_cases n <;> exact ⟨_, rfl⟩

/-- Thirteen bytes of a header or more leave a length that exceeds the file. -/
theorem tornHeader_long {n : Nat} (h13 : 13 ≤ n) (hn : n < headerSize) :
    4 ≤ ((header.take n ++ header).drop headerSize).length ∧
      le.read (((header.take n ++ header).drop headerSize).take 4) ≠ 0 ∧
      ((header.take n ++ header).drop headerSize).length <
        4 + le.read (((header.take n ++ header).drop headerSize).take 4) := by
  simp only [headerSize] at hn
  interval_cases n <;> decide

/-- Twelve bytes of a header leave one record of one zero byte. -/
theorem tornHeader_record : (header.take 12 ++ header).drop headerSize =
    frame le [0] ++ List.replicate 7 0 := by
  decide

/-- A read over the record that twelve bytes of a header leave fails or returns
a change. -/
theorem readChangesLoop_tornHeader {bc : Bincode} {scan : ReadScan}
    (hrest : scan.reader.rest = frame le [0] ++ List.replicate 7 0) :
    (readChangesLoop bc 0).run scan ≠ .ok [] := by
  rcases readPrefix_frame hrest with ⟨hread, hbody⟩
  rcases readBody_frame hbody with ⟨hreadBody, hnext⟩
  have hlen : le.read (le.write [(0 : UInt8)].length) = 1 := by decide
  cases hdecode : bc.deserialize [0] with
  | error e =>
      rw [Body.run_done (readChangesLoop bc 0) (.error (.encoding e))]
      · simp
      · simp_all [readChangesLoop]
  | ok c =>
      rw [Body.run_next (readChangesLoop bc 0)
        ⟨⟨scan.reader.data, scan.reader.pos + 4 + 1⟩, scan.changes ++ [c],
          scan.currentOffset + 1⟩]
      · have hzeros : Reader.rest ⟨scan.reader.data, scan.reader.pos + 4 + 1⟩ =
            List.replicate 7 0 := hnext
        rw [readChangesLoop_zero (by simp [hzeros]) (by rw [hzeros]; decide)]
        simp
      · simp_all [readChangesLoop]

/-- Behind eight to eleven bytes of a header reads find nothing. -/
theorem getSince_tornHeader {bc : Bincode} {s : FileChangeStore} {n : Nat} (h8 : 8 ≤ n)
    (hn : n < 12) {rest : Bytes} (hlog : s.log = some (header.take n ++ header ++ rest)) :
    s.getSince bc 0 = .ok [] := by
  rcases getSince_zero bc hlog with ⟨scan, hrest, hchanges, hread⟩
  rcases tornHeader_zero h8 hn with ⟨back, hheader⟩
  rw [List.drop_append_of_le_length (by simp [headerSize]), hheader] at hrest
  rw [hread, readChangesLoop_zero (by simp [hrest]) (by simp [hrest]; rfl), hchanges]

/-- Behind twelve bytes of a header or more a read fails or returns a change. -/
theorem getSince_tornHeader_ne {bc : Bincode} {s : FileChangeStore} {n : Nat} (h12 : 12 ≤ n)
    (hn : n < headerSize) (hlog : s.log = some (header.take n ++ header)) :
    s.getSince bc 0 ≠ .ok [] := by
  rcases getSince_zero bc hlog with ⟨scan, hrest, hchanges, hread⟩
  rw [hread]
  rcases Nat.eq_or_lt_of_le h12 with rfl | h13
  · exact readChangesLoop_tornHeader (hrest.trans tornHeader_record)
  · rcases tornHeader_long h13 hn with ⟨hfour, hne, hshort⟩
    rw [← hrest] at hfour hne hshort
    rw [readChangesLoop_torn hfour hne hshort]
    intro hread
    contradiction

/-- A torn header does not recover. -/
theorem not_recovers_tornHeader {bc : Bincode} {c : Change} {r : Record}
    (hc : bc.serialize c = .ok r.bytes) {n : Nat} (hpos : 0 < n) (hn : n < headerSize)
    {d : Disk} (hfound : foundLog d = header.take n) (t : Nat) : ¬ Recovers bc [] d t := by
  intro hrec
  have hlen : (header.take n).length = n := by
    rw [List.length_take, header_length]
    omega
  rcases new_of_lt (d := d) (by rw [hfound, hlen]; exact hn) t with ⟨s, hnew, hfresh⟩
  rw [hfound] at hfresh
  rcases hrec.elim hnew with ⟨hcomplete, hback, s', hrun, s'', hnew'⟩
  by_cases h8 : n < 8
  · -- the next opening fails even when nothing is appended
    have hnone : ∀ c ∈ appended [], Encodable bc c := by simp [appended]
    rcases (hfresh.holdsFlushed bc).holds.runFlushed hnone with
      ⟨s₁, hrun', rs, hopen, henc, _⟩
    rw [hrun, Except.ok.injEq] at hrun'
    subst s₁
    have hnil : rs = [] := henc.eq_nil
    have hdata : foundLog s'.disk = header.take n ++ header := by
      rw [hopen.foundLog, hnil, recordBytes_nil, List.append_nil]
    rcases new_of_bad_header (d := s'.disk) (by rw [hdata]; simp [headerSize])
      (by rw [hdata]; exact tornHeader_unopenable hpos h8) t with ⟨e, herror⟩
    rw [hnew'] at herror
    contradiction
  · by_cases h12 : n < 12
    · -- reads stop in front of what is appended
      have hone : ∀ c' ∈ appended [.append c], Encodable bc c' := by
        simpa [appended] using ⟨r, hc⟩
      rcases hback.elim (hfresh.holdsFlushed bc) hone with ⟨s₂, rs, _, hlog₂, hread₂⟩
      rw [getSince_tornHeader (Nat.le_of_not_lt h8) h12 hlog₂] at hread₂
      simp [appended] at hread₂
    · exact getSince_tornHeader_ne (Nat.le_of_not_lt h12) hn hfresh.openOn.log hcomplete

/-! ## Cuts inside a record -/

/-- A torn record does not recover. -/
theorem not_recovers_tornRecord {bc : Bincode} (hbc : bc.Lawful) {c : Change} {small : Record}
    (hc : bc.serialize c = .ok small.bytes) (hsmall : small.bytes.length < 256)
    {before complete : List Change} {rs : List Record} (henc : Encodes bc before rs) {r : Record}
    {m : Nat} (hpos : 0 < m) (hm : m < 4 + r.bytes.length) {d : Disk}
    (hfound : foundLog d = logBytes rs ++ (frame le r.bytes).take m) (t : Nat) :
    ¬ Recovers bc complete d t := by
  intro hrec
  rw [logBytes, List.append_assoc] at hfound
  rcases new_of_header hfound t with ⟨s, index, hnew, _, hfresh⟩
  rw [← List.append_assoc, ← logBytes] at hfresh
  exact not_readsBack_torn hbc hc hsmall henc hpos hm (hfresh.holdsFlushed bc)
    (hrec.elim hnew).2.1

/-! ## Exactly the cuts that recover -/

/-- Every cut of a log falls between records, or inside the header, or inside a
record. -/
theorem take_logBytes (rs : List Record) (n : Nat) :
    AtRecordBoundary rs ((logBytes rs).take n) ∨
      (0 < n ∧ n < headerSize ∧ (logBytes rs).take n = header.take n) ∨
      ∃ j r m, rs[j]? = some r ∧ 0 < m ∧ m < 4 + r.bytes.length ∧
        (logBytes rs).take n = logBytes (rs.take j) ++ (frame le r.bytes).take m := by
  by_cases hzero : n = 0
  · exact Or.inl (Or.inl (by simp [hzero]))
  · by_cases hheader : n < headerSize
    · refine Or.inr (Or.inl ⟨Nat.pos_of_ne_zero hzero, hheader, ?_⟩)
      rw [logBytes, List.take_append_of_le_length (Nat.le_of_lt hheader)]
    · have hsplit : (logBytes rs).take n =
          header ++ (recordBytes rs).take (n - headerSize) := by
        rw [logBytes, List.take_append, List.take_of_length_le (Nat.le_of_not_lt hheader),
          header_length]
      rcases take_frames le (rs.map Record.bytes) (n - headerSize) with
        ⟨j, hj, torn, htake, htorn⟩
      rw [List.length_map] at hj
      have hcut : (logBytes rs).take n = logBytes (rs.take j) ++ torn := by
        rw [hsplit, recordBytes, htake, logBytes, recordBytes, List.map_take, List.append_assoc]
      rcases htorn with rfl | ⟨body, m, hbody, hpos, hm, rfl⟩
      · exact Or.inl (Or.inr ⟨j, hj, by rw [hcut, List.append_nil]⟩)
      · rw [List.getElem?_map, Option.map_eq_some_iff] at hbody
        rcases hbody with ⟨r, hr, rfl⟩
        exact Or.inr (Or.inr ⟨j, r, m, hr, hpos, hm, hcut⟩)

/-- The bytes that a crash left recover exactly when they are nothing or end
with a whole record or with the header. -/
theorem recovers_iff (bc : Bincode) (hbc : bc.Lawful) (c : Change) (small : Record)
    (hc : bc.serialize c = .ok small.bytes) (hsmall : small.bytes.length < 256)
    (cs : List Change) (rs : List Record) (henc : Encodes bc cs rs) (bytes : Bytes)
    (hfront : bytes <+: logBytes rs) (d : Disk) (hdisk : d.readFile logName = some bytes)
    (t : Nat) :
    Recovers bc (cs.take (completeCount rs bytes.length)) d t ↔ AtRecordBoundary rs bytes := by
  have hfound : foundLog d = bytes := by simp [foundLog, hdisk]
  constructor
  · intro hrec
    have htake := List.prefix_iff_eq_take.mp hfront
    rcases take_logBytes rs bytes.length with hboundary | ⟨hpos, hlt, hheader⟩ |
      ⟨j, r, m, hr, hpos, hm, hrecord⟩
    · rwa [← htake] at hboundary
    · rw [completeCount_of_lt hlt, List.take_zero] at hrec
      exact absurd hrec (not_recovers_tornHeader hc hpos hlt
        (hfound.trans (htake.trans hheader)) t)
    · exact absurd hrec (not_recovers_tornRecord hbc hc hsmall (henc.take j) hpos hm
        (hfound.trans (htake.trans hrecord)) t)
  · rintro (rfl | ⟨j, hj, rfl⟩)
    · exact recovers_of_holdsLog hbc (henc.take _) (Or.inr ⟨hfound, by
        rw [List.length_nil, completeCount_of_lt (by decide), List.take_zero]⟩) t
    · have hlen : (logBytes (rs.take j)).length = recordPosition rs j := by
        simp [logBytes, recordPosition]
      rw [hlen, completeCount_recordPosition hj]
      exact recovers_of_holdsLog hbc (henc.take j) (Or.inl hfound) t

/-- The criterion at a log of one record that ends behind its length prefix. -/
theorem recovers_iff_sample :
    Recovers sampleBincode (List.take (completeCount [sampleRecord]
        ((logBytes [sampleRecord]).take 20).length) [sampleChange])
        (Disk.single logName ((logBytes [sampleRecord]).take 20)) 10 ↔
      AtRecordBoundary [sampleRecord] ((logBytes [sampleRecord]).take 20) :=
  recovers_iff sampleBincode sampleBincode_lawful sampleChange sampleRecord
    serialize_sampleChange sampleRecord_small [sampleChange] [sampleRecord]
    (.cons serialize_sampleChange .nil) _ (List.take_prefix _ _) _ (Disk.readFile_single _ _) 10

/-- A log that ends inside its first record, after four of its bytes, does not
recover. -/
theorem not_recovers_sampleCut :
    ¬ Recovers sampleBincode (List.take (completeCount [sampleRecord]
        ((logBytes [sampleRecord]).take 20).length) [sampleChange])
        (Disk.single logName ((logBytes [sampleRecord]).take 20)) 10 :=
  not_recovers_tornRecord sampleBincode_lawful serialize_sampleChange sampleRecord_small .nil
    (r := sampleRecord) (m := 4) (by decide) (by decide) rfl 10

end IrohSync
