import IrohSync.Persist.Session

/-!
# The write offset after a reopen

Opening takes the write offset from the last entry of a sparse index.  That
entry is the last record whose number is a multiple of the index interval, so
the offset is right only when no record follows it.

Main results:

- Theorem {lit}`nextOffset_expectedIndex`: the offset that opening computes.
- Theorem {lit}`reopen_offset_iff`: exactly which logs and which histories of
  sessions get their offsets right.
-/

namespace IrohSync

open FileIo Framing Loop

/-! ## The offset of an index -/

/-- The last entry of an index has the largest offset. -/
theorem offset_le_of_getLast? {index : List IndexEntry}
    (hsorted : index.Pairwise fun e e' => e.offset < e'.offset) {e last : IndexEntry}
    (hlast : index.getLast? = some last) (he : e ∈ index) : e.offset ≤ last.offset := by
  rcases List.getLast?_eq_some_iff.mp hlast with ⟨front, rfl⟩
  rcases List.mem_append.mp he with hfront | hsingle
  · have hlt := (List.pairwise_append.mp hsorted).2.2 e hfront last (by simp)
    exact Nat.le_of_lt hlt
  · rw [List.mem_singleton.mp hsingle]

/-- Opening a log finds one more than the number of the last indexed record. -/
theorem nextOffset_expectedIndex (rs : List Record) :
    nextOffset (expectedIndex defaultIndexInterval headerSize 0 rs) =
      if indexedCount rs = 0 then 0
      else defaultIndexInterval * ((indexedCount rs - 1) / defaultIndexInterval) + 1 := by
  have hmem : ∀ e, e ∈ expectedIndex defaultIndexInterval headerSize 0 rs →
      e.offset < indexedCount rs ∧ e.offset % defaultIndexInterval = 0 := by
    intro e he
    rcases mem_expectedIndex_iff.mp he with ⟨i, hi, hmod, hoff, _⟩
    rw [Nat.zero_add] at hmod hoff
    exact ⟨hoff ▸ hi, hoff ▸ hmod⟩
  by_cases hzero : indexedCount rs = 0
  · have hnil : expectedIndex defaultIndexInterval headerSize 0 rs = [] := by
      rw [List.eq_nil_iff_forall_not_mem]
      intro e he
      have hlt := (hmem e he).1
      omega
    simp [hnil, hzero, nextOffset]
  · -- the last multiple of the interval below the count has an entry
    have hlast : ∃ e ∈ expectedIndex defaultIndexInterval headerSize 0 rs,
        e.offset = defaultIndexInterval * ((indexedCount rs - 1) / defaultIndexInterval) := by
      have hi : defaultIndexInterval * ((indexedCount rs - 1) / defaultIndexInterval) <
          indexedCount rs := by
        simp only [defaultIndexInterval]
        omega
      have hlt := Nat.lt_of_lt_of_le hi (indexedCount_le rs)
      exact ⟨⟨_, _, _⟩, mem_expectedIndex_iff.mpr
        ⟨_, hi, by simp, by simp, rfl, _, List.getElem?_eq_getElem hlt, rfl⟩, rfl⟩
    rcases hlast with ⟨e, he, hoffset⟩
    cases hgetLast : (expectedIndex defaultIndexInterval headerSize 0 rs).getLast? with
    | none =>
        rw [List.getLast?_eq_none_iff] at hgetLast
        simp [hgetLast] at he
    | some last =>
        have hle := offset_le_of_getLast? (pairwise_expectedIndex _ _ _ _) hgetLast he
        rcases hmem last (List.mem_of_getLast? hgetLast) with ⟨hlt, hmod⟩
        simp only [nextOffset, hgetLast, Option.map_some, Option.getD_some, if_neg hzero]
        simp only [defaultIndexInterval] at *
        omega

/-- The index of a log reaches its end: the log is empty, or its last record is
indexed and none is too large for the index. -/
def IndexReachesEnd (rs : List Record) : Prop :=
  rs = [] ∨ (rs.length % defaultIndexInterval = 1 ∧
    ∀ r ∈ rs, r.bytes.length ≤ maxIndexedLength)

theorem nextOffset_eq_length_iff (rs : List Record) :
    nextOffset (expectedIndex defaultIndexInterval headerSize 0 rs) = rs.length ↔
      IndexReachesEnd rs := by
  have hle := indexedCount_le rs
  rw [nextOffset_expectedIndex, IndexReachesEnd, ← indexedCount_eq_length_iff,
    ← List.length_eq_zero_iff]
  simp only [defaultIndexInterval]
  split_ifs with hzero
  · omega
  · omega

/-! ## Histories of sessions -/

/-- One session: the threshold it opens with and what it does before it closes. -/
structure Session where
  flushThreshold : Nat
  ops : List StoreOp

/-- Open, run and close a session. -/
def Session.run (bc : Bincode) (sess : Session) (d : Disk) : Except Error (Disk × List Nat) :=
  match FileChangeStore.new d sess.flushThreshold with
  | .error e => .error e
  | .ok s =>
      match s.runOps bc sess.ops with
      | .error e => .error e
      | .ok (s, offsets) =>
          match s.close bc with
          | (_, .error e) => .error e
          | (s, .ok ()) => .ok (s.disk, offsets)

/-- Run sessions one after the other and collect the offsets of all appends. -/
def runSessions (bc : Bincode) : Disk → List Session → Except Error (Disk × List Nat)
  | d, [] => .ok (d, [])
  | d, sess :: rest =>
      match sess.run bc d with
      | .error e => .error e
      | .ok (d, offsets) =>
          match runSessions bc d rest with
          | .error e => .error e
          | .ok (d, offsets') => .ok (d, offsets ++ offsets')

/-- Closing flushes and keeps the log. -/
theorem Holds.close {bc : Bincode} {s : FileChangeStore} {data : Bytes} {cs : List Change}
    (h : Holds bc s data cs) :
    ∃ s' rs, s.close bc = (s', .ok ()) ∧ foundLog s'.disk = data ++ recordBytes rs ∧
      Encodes bc cs rs := by
  rcases h.flush with ⟨s', hflush, ⟨rs, hopen, henc, _⟩, _⟩
  refine ⟨{ s' with file := none }, rs, ?_, ?_, henc⟩
  · simp [FileChangeStore.close, hflush]
  · have hlog := hopen.log
    rw [FileChangeStore.log] at hlog
    simp [foundLog, hlog]

/-- A session extends the log by what it appended, and its offsets start where
opening placed the write offset. -/
theorem Session.run_spec {bc : Bincode} {sess : Session} {d : Disk} {rs : List Record}
    (hlog : HoldsLog d rs) (hops : ∀ c ∈ appended sess.ops, Encodable bc c) :
    ∃ d' rs', sess.run bc d = .ok (d', List.range'
        (nextOffset (expectedIndex defaultIndexInterval headerSize 0 rs))
        (appended sess.ops).length) ∧
      HoldsLog d' (rs ++ rs') ∧ Encodes bc (appended sess.ops) rs' := by
  rcases new_logBytes hlog sess.flushThreshold with ⟨s, hnew, hfresh⟩
  rcases runOps_spec hops (hfresh.holdsFlushed bc).holds with ⟨s₁, hrun, hholds⟩
  rcases hholds.close with ⟨s₂, rs', hclose, hfound, henc⟩
  refine ⟨s₂.disk, rs', ?_, Or.inl ?_, by simpa using henc⟩
  · simp [Session.run, hnew, hrun, hclose, hfresh.tailOffset]
  · rw [hfound, logBytes_append]

/-- The write offset is restored by a reopen after these changes. -/
def OffsetRestored (bc : Bincode) (before : List Change) : Prop :=
  before = [] ∨ (before.length % defaultIndexInterval = 1 ∧
    ∀ c ∈ before, ∀ bytes, bc.serialize c = .ok bytes → bytes.length ≤ maxIndexedLength)

/-- Every session that appends something opens after changes that let the write
offset be restored. -/
def SessionsRestored (bc : Bincode) : List Change → List Session → Prop
  | _, [] => True
  | before, sess :: rest =>
      (appended sess.ops = [] ∨ OffsetRestored bc before) ∧
        SessionsRestored bc (before ++ appended sess.ops) rest

theorem offsetRestored_iff {bc : Bincode} {before : List Change} {rs : List Record}
    (henc : Encodes bc before rs) : OffsetRestored bc before ↔ IndexReachesEnd rs := by
  have hcap : (∀ c ∈ before, ∀ bytes, bc.serialize c = .ok bytes →
      bytes.length ≤ maxIndexedLength) ↔ ∀ r ∈ rs, r.bytes.length ≤ maxIndexedLength := by
    induction henc with
    | nil => simp
    | cons hc _ ih => simp [hc, ih]
  rw [OffsetRestored, IndexReachesEnd, hcap, ← henc.length_eq, ← List.length_eq_zero_iff,
    ← List.length_eq_zero_iff, henc.length_eq]

/-- The offsets of a history are consecutive exactly when every session that
appends restores the write offset. -/
theorem runSessions_spec {bc : Bincode} {sessions : List Session}
    (hops : ∀ sess ∈ sessions, ∀ c ∈ appended sess.ops, Encodable bc c) {d : Disk}
    {before : List Change} {rs : List Record} (hlog : HoldsLog d rs)
    (henc : Encodes bc before rs) :
    ∃ d' offsets, runSessions bc d sessions = .ok (d', offsets) ∧
      (offsets = List.range' before.length offsets.length ↔
        SessionsRestored bc before sessions) := by
  induction sessions generalizing d before rs with
  | nil => exact ⟨d, [], rfl, by simp [SessionsRestored]⟩
  | cons sess rest ih =>
      rcases Session.run_spec hlog (hops sess List.mem_cons_self) with
        ⟨d₁, rs', hrun, hlog₁, henc₁⟩
      rcases ih (fun s hs => hops s (List.mem_cons_of_mem _ hs)) hlog₁ (henc.append henc₁) with
        ⟨d', offsets, hrest, hiff⟩
      refine ⟨d', _, by simp [runSessions, hrun, hrest]; rfl, ?_⟩
      rw [List.length_append, List.length_range', ← List.range'_append, Nat.one_mul,
        List.append_eq_append_iff_of_size_eq_left (by simp), List.range'_inj]
      rw [List.length_append] at hiff
      rw [hiff, SessionsRestored, offsetRestored_iff henc, ← nextOffset_eq_length_iff,
        ← henc.length_eq, ← List.length_eq_zero_iff]
      simp

/-- Opening a well-formed log gives the number of its records as the write
offset exactly when the index reaches the end of the log; and in a history of
sessions every append returns the number of changes appended before it exactly
when every session that appends something opens on such a log. -/
theorem reopen_offset_iff (d : Disk) :
    (∀ (rs : List Record) (t : Nat), HoldsLog d rs →
      ∃ s, FileChangeStore.new d t = .ok s ∧
        (s.tailOffset = rs.length ↔ IndexReachesEnd rs)) ∧
    (∀ (bc : Bincode) (sessions : List Session), d.readFile logName = none →
      (∀ sess ∈ sessions, ∀ c ∈ appended sess.ops, Encodable bc c) →
      ∃ d' offsets, runSessions bc d sessions = .ok (d', offsets) ∧
        (offsets = List.range offsets.length ↔ SessionsRestored bc [] sessions)) := by
  constructor
  · intro rs t hlog
    rcases new_logBytes hlog t with ⟨s, hnew, hfresh⟩
    refine ⟨s, hnew, ?_⟩
    rw [hfresh.tailOffset]
    exact nextOffset_eq_length_iff rs
  · intro bc sessions hnone hops
    have hlog : HoldsLog d [] := Or.inr ⟨by simp [foundLog, hnone], rfl⟩
    simpa [List.range_eq_range'] using runSessions_spec hops hlog List.Forall₂.nil

/-- The criterion at a log of two records and at two sessions in a new directory. -/
theorem reopen_offset_iff_sample :
    (∃ s, FileChangeStore.new (Disk.single logName (logBytes [sampleRecord, sampleRecord])) 10 =
        .ok s ∧ (s.tailOffset = 2 ↔ IndexReachesEnd [sampleRecord, sampleRecord])) ∧
    (∃ d' offsets, runSessions sampleBincode Disk.empty
        [⟨10, [.append sampleChange]⟩, ⟨10, [.append sampleChange]⟩] = .ok (d', offsets) ∧
        (offsets = List.range offsets.length ↔ SessionsRestored sampleBincode []
          [⟨10, [.append sampleChange]⟩, ⟨10, [.append sampleChange]⟩])) := by
  refine ⟨(reopen_offset_iff _).1 [sampleRecord, sampleRecord] 10 (Or.inl ?_),
    (reopen_offset_iff Disk.empty).2 sampleBincode _ rfl ?_⟩
  · simp [foundLog]
  · intro sess hsess c hc
    simp only [List.mem_cons, List.not_mem_nil, or_false, or_self] at hsess
    subst sess
    simp only [appended, List.mem_singleton] at hc
    subst c
    exact ⟨sampleRecord, serialize_sampleChange⟩

set_option maxRecDepth 10000 in
/-- A log of two records is reopened at offset 1, and the first append after a
session of two appends returns an offset that was returned before. -/
theorem reopen_forgets_records :
    (∃ s, FileChangeStore.new (Disk.single logName (logBytes [sampleRecord, sampleRecord])) 10 =
        .ok s ∧ s.tailOffset = 1 ∧ s.tailOffset ≠ [sampleRecord, sampleRecord].length) ∧
    (runSessions sampleBincode Disk.empty
        [⟨10, [.append sampleChange, .append sampleChange]⟩,
          ⟨10, [.append sampleChange]⟩]).toOption.map Prod.snd = some [0, 1, 1] ∧
    [0, 1, 1] ≠ List.range 3 :=
  ⟨⟨_, rfl, rfl, by decide⟩, by decide, by decide⟩

end IrohSync
