import Mathlib.Data.List.Range
import IrohSync.Lib.Machine
import IrohSync.Persist.Session

/-!
# Calls of an open store

The calls of a change store and their answers, and what a file-based store keeps
of everything that was appended to it: the log holds the first of the changes,
the buffer the rest, and the write offset counts both.

Main results:

- Theorems {lit}`Stored.flush` and {lit}`Stored.append`: what a flush and an
  append do to the stored changes.
- Theorem {lit}`Stored.getSince`: a read that does not go through index entries.
- Theorem {lit}`Opened.next`: the invariant of a session.
- Theorem {lit}`session_represents`: all of it for any run in a new directory.
-/

namespace IrohSync

open FileIo Framing Loop Machine

/-! ## Calls -/

/-- A call of a change store. -/
inductive StoreCall where
  | append (change : Change)
  | getSince (offset : Nat)
  | tailOffset
  | flush

/-- The answer to a call. -/
inductive StoreAnswer where
  | append (result : Except Error Nat)
  | getSince (result : Except Error (List Change))
  | tailOffset (offset : Nat)
  | flush (result : Except Error Unit)

/-- The file-based store under calls. -/
def fileStore (bc : Bincode) : Machine FileChangeStore StoreCall StoreAnswer where
  next s call :=
    match call with
    | .append c => (s.append bc c).1
    | .getSince _ => s
    | .tailOffset => s
    | .flush => (s.flush bc).1
  answer s call :=
    match call with
    | .append c => .append (s.append bc c).2
    | .getSince offset => .getSince (s.getSince bc offset)
    | .tailOffset => .tailOffset s.tailOffset
    | .flush => .flush (s.flush bc).2

/-- The changes that a call appends. -/
def StoreCall.appends : StoreCall → List Change
  | .append c => [c]
  | _ => []

/-- The changes that calls append. -/
def callsAppend (calls : List StoreCall) : List Change :=
  calls.flatMap StoreCall.appends

/-- What an answer says about an append. -/
def StoreAnswer.appendResult : StoreAnswer → Option (Except Error Nat)
  | .append result => some result
  | _ => none

/-! ## Stored changes -/

/-- Records determine the changes that they hold. -/
theorem Encodes.unique {bc : Bincode} (hbc : bc.Lawful) {cs cs' : List Change}
    {rs : List Record} (h : Encodes bc cs rs) (h' : Encodes bc cs' rs) : cs = cs' := by
  induction h generalizing cs' with
  | nil =>
      cases h'
      rfl
  | @cons c r cs rs hc _ ih =>
      rcases h' with _ | ⟨hc', hcs'⟩
      have heq := (hbc.deserialize_serialize hc).symm.trans (hbc.deserialize_serialize hc')
      rw [Except.ok.inj heq, ih hcs']

/-- Of all changes appended to an open store the first are the records of its
well-formed log and the rest are buffered; the write offset counts both. -/
structure Stored (bc : Bincode) (s : FileChangeStore) (all flushed : List Change) : Prop where
  openOn : ∃ rs, OpenOn s (logBytes rs) ∧ Encodes bc flushed rs
  buffered : ∃ pending, Encodes bc s.buffer pending
  split : all = flushed ++ s.buffer
  tailOffset : s.tailOffset = all.length

/-- A flush of fewer changes than the interval leaves the index alone. -/
theorem flushUnder_index {fault : IoFault} {bc : Bincode} {s : FileChangeStore}
    (hlt : s.buffer.length < s.indexInterval) : (s.flushUnder fault bc).1.index = s.index := by
  rw [flushUnder_eq_writeTaken]
  split_ifs
  · rfl
  · exact (writeTaken_frame fault bc { s with buffer := [] } s.buffer).2.2 hlt

/-- A flush succeeds and moves everything that is buffered into the log. -/
theorem Stored.flush {bc : Bincode} {s : FileChangeStore} {all flushed : List Change}
    (h : Stored bc s all flushed) :
    ∃ s', s.flush bc = (s', .ok ()) ∧ Stored bc s' all all ∧ s'.buffer = [] ∧
      s'.flushThreshold = s.flushThreshold ∧ s'.indexInterval = s.indexInterval ∧
      (s.buffer.length < s.indexInterval → s'.index = s.index) := by
  rcases h.openOn with ⟨rs, hopen, hflushed⟩
  rcases h.buffered with ⟨pending, hpending⟩
  rcases flush_spec hopen hpending with ⟨s', hflush, heffect⟩
  refine ⟨s', hflush, ⟨⟨rs ++ pending, ?_, ?_⟩, ⟨[], heffect.buffer ▸ .nil⟩, ?_, ?_⟩,
    heffect.buffer, heffect.flushThreshold, heffect.indexInterval, fun hlt => ?_⟩
  · rw [logBytes_append]
    exact heffect.openOn
  · rw [h.split]
    exact hflushed.append hpending
  · rw [heffect.buffer, List.append_nil]
  · rw [heffect.tailOffset, h.tailOffset]
  · rw [FileChangeStore.flush] at hflush
    exact (congrArg (fun result => result.1.index) hflush).symm.trans (flushUnder_index hlt)

/-- Taking up a change. -/
theorem Stored.pushed {bc : Bincode} {s : FileChangeStore} {all flushed : List Change}
    (h : Stored bc s all flushed) {c : Change} (hc : Encodable bc c) :
    Stored bc (s.pushed c) (all ++ [c]) flushed where
  openOn := by
    rcases h.openOn with ⟨rs, hopen, hflushed⟩
    exact ⟨rs, ⟨hopen.handle⟩, hflushed⟩
  buffered := by
    rcases h.buffered with ⟨pending, hpending⟩
    rcases hc with ⟨r, hr⟩
    exact ⟨pending ++ [r], hpending.append (.cons hr .nil)⟩
  split := by
    rw [h.split, List.append_assoc]
    rfl
  tailOffset := by
    rw [List.length_append, ← h.tailOffset]
    rfl

/-- An append returns the number of changes before it. -/
theorem Stored.append {bc : Bincode} {s : FileChangeStore} {all flushed : List Change}
    (h : Stored bc s all flushed) {c : Change} (hc : Encodable bc c) :
    ∃ s' flushed', s.append bc c = (s', .ok all.length) ∧ Stored bc s' (all ++ [c]) flushed' ∧
      (s'.buffer = [] ∨ (s'.buffer.length < s.flushThreshold)) ∧
      s'.flushThreshold = s.flushThreshold ∧ s'.indexInterval = s.indexInterval ∧
      (s.buffer.length + 1 < s.indexInterval → s'.index = s.index) := by
  have hpushed := h.pushed hc
  have hlength : (s.pushed c).buffer.length = s.buffer.length + 1 := by
    rw [FileChangeStore.pushed, List.length_append, List.length_singleton]
  by_cases hle : s.flushThreshold ≤ s.buffer.length + 1
  · rcases hpushed.flush with ⟨s', hflush, hstored, hbuffer, hthreshold, hinterval, hindex⟩
    refine ⟨s', all ++ [c], ?_, hstored, Or.inl hbuffer, hthreshold, hinterval, ?_⟩
    · rw [FileChangeStore.flush] at hflush
      rw [FileChangeStore.append, appendUnder_of_le hle, hflush, h.tailOffset]
      rfl
    · rwa [hlength] at hindex
  · have hlt : s.buffer.length + 1 < s.flushThreshold := Nat.lt_of_not_le hle
    refine ⟨s.pushed c, flushed, ?_, hpushed, Or.inr ?_, rfl, rfl, fun _ => rfl⟩
    · rw [FileChangeStore.append, appendUnder_of_lt hlt, h.tailOffset]
    · rwa [hlength]

/-- Without index entries a read starts behind the header. -/
theorem getSince_nil_index (bc : Bincode) {s : FileChangeStore} (hindex : s.index = [])
    (k : Nat) : ∀ {data : Bytes}, s.log = some data →
    s.getSince bc k = (readChangesLoop bc k).run ⟨⟨data, headerSize⟩, [], 0⟩ := by
  intro data hlog
  have hstart : startPosition [] k = headerSize := by
    unfold startPosition
    split
    · rfl
    · rfl
  simp only [FileChangeStore.getSince, FileChangeStore.readChangesSince, hlog, hindex, hstart]
  rfl

/-- A read that does not go through index entries returns the flushed changes
from its offset on. -/
theorem Stored.getSince {bc : Bincode} (hbc : bc.Lawful) {s : FileChangeStore}
    {all flushed : List Change} (h : Stored bc s all flushed) {k : Nat}
    (hdirect : k = 0 ∨ s.index = []) : s.getSince bc k = .ok (flushed.drop k) := by
  rcases h.openOn with ⟨rs, hopen, hflushed⟩
  rcases hdirect with rfl | hindex
  · exact getSince_zero_logBytes hbc hflushed hopen.log
  · have hrest : Reader.rest ⟨logBytes rs, headerSize⟩ = recordBytes rs ++ [] := by
      rw [List.append_nil]
      exact drop_recordPosition rs 0
    rw [getSince_nil_index bc hindex k hopen.log, readChangesLoop_records hbc hflushed hrest]
    apply readChangesLoop_eof
    have hend := Reader.rest_advance_append hrest
    simp only at hend ⊢
    rw [hend]
    exact Nat.zero_lt_succ 3

/-! ## Sessions -/

/-- An open store with a flush threshold, after appending some changes. -/
structure Opened (bc : Bincode) (t : Nat) (s : FileChangeStore) (all flushed : List Change) :
    Prop where
  stored : Stored bc s all flushed
  buffer_lt : s.buffer.length < max t 1
  flushThreshold : s.flushThreshold = t
  indexInterval : s.indexInterval = defaultIndexInterval
  index : t < defaultIndexInterval → s.index = []

theorem new_indexInterval {d : Disk} {t : Nat} {s : FileChangeStore}
    (hnew : FileChangeStore.new d t = .ok s) : s.indexInterval = defaultIndexInterval := by
  unfold FileChangeStore.new at hnew
  simp only at hnew
  split at hnew
  · contradiction
  · rw [← Except.ok.inj hnew]

/-- Opening a directory without a log. -/
theorem new_fresh {d : Disk} (hfresh : d.readFile logName = none) (t : Nat) :
    ∃ s, FileChangeStore.new d t = .ok s ∧ Fresh s (logBytes []) t [] := by
  have hfound : foundLog d = [] := by
    rw [foundLog, hfresh]
    rfl
  exact new_logBytes (Or.inr ⟨hfound, rfl⟩) t

/-- A store that is opened in a directory without a log. -/
theorem opened_new (bc : Bincode) {d : Disk} (hfresh : d.readFile logName = none) (t : Nat) :
    ∃ s, FileChangeStore.new d t = .ok s ∧ Opened bc t s [] [] := by
  rcases new_fresh hfresh t with ⟨s, hnew, hs⟩
  refine ⟨s, hnew, ⟨⟨[], hs.openOn, .nil⟩, ⟨[], hs.buffer ▸ .nil⟩, ?_, ?_⟩, ?_,
    hs.flushThreshold, new_indexInterval hnew, fun _ => hs.index_eq⟩
  · rw [hs.buffer]
    rfl
  · rw [hs.tailOffset]
    rfl
  · rw [hs.buffer, List.length_nil]
    omega

/-- An append in a session. -/
theorem Opened.append {bc : Bincode} {t : Nat} {s : FileChangeStore}
    {all flushed : List Change} (h : Opened bc t s all flushed) {c : Change}
    (hc : Encodable bc c) :
    ∃ s' flushed', s.append bc c = (s', .ok all.length) ∧
      Opened bc t s' (all ++ [c]) flushed' := by
  rcases h.stored.append hc with
    ⟨s', flushed', happend, hstored, hbuffer, hthreshold, hinterval, hindex⟩
  have hlt := h.buffer_lt
  have ht := h.flushThreshold
  have hi := h.indexInterval
  refine ⟨s', flushed', happend, hstored, ?_, by rw [hthreshold, ht],
    by rw [hinterval, hi], fun hsmall => ?_⟩
  · rcases hbuffer with hnil | hless
    · rw [hnil, List.length_nil]
      omega
    · omega
  · rw [hindex, h.index hsmall]
    simp only [defaultIndexInterval] at hsmall hi
    omega

/-- A flush in a session. -/
theorem Opened.flush {bc : Bincode} {t : Nat} {s : FileChangeStore}
    {all flushed : List Change} (h : Opened bc t s all flushed) :
    ∃ s', s.flush bc = (s', .ok ()) ∧ Opened bc t s' all all ∧ s'.buffer = [] := by
  rcases h.stored.flush with ⟨s', hflush, hstored, hbuffer, hthreshold, hinterval, hindex⟩
  have hlt := h.buffer_lt
  have hi := h.indexInterval
  refine ⟨s', hflush, ⟨hstored, ?_, by rw [hthreshold, h.flushThreshold],
    by rw [hinterval, hi], fun hsmall => ?_⟩, hbuffer⟩
  · rw [hbuffer, List.length_nil]
    omega
  · rw [hindex, h.index hsmall]
    simp only [defaultIndexInterval] at hsmall hi
    omega

/-- Every call keeps the invariant of a session. -/
theorem Opened.next {bc : Bincode} {t : Nat} {s : FileChangeStore}
    {all flushed : List Change} (h : Opened bc t s all flushed) {call : StoreCall}
    (hcall : ∀ c ∈ call.appends, Encodable bc c) :
    ∃ flushed', Opened bc t ((fileStore bc).next s call) (all ++ call.appends) flushed' := by
  cases call with
  | append c =>
      rcases h.append (hcall c (List.mem_singleton_self c)) with ⟨s', flushed', happend, h'⟩
      refine ⟨flushed', ?_⟩
      simp only [fileStore, happend]
      exact h'
  | getSince offset => exact ⟨flushed, by simpa [StoreCall.appends, fileStore] using h⟩
  | tailOffset => exact ⟨flushed, by simpa [StoreCall.appends, fileStore] using h⟩
  | flush =>
      rcases h.flush with ⟨s', hflush, h', _⟩
      exact ⟨all, by simpa [StoreCall.appends, fileStore, hflush] using h'⟩

/-- The appends of a run return consecutive offsets. -/
theorem Opened.run {bc : Bincode} {t : Nat} {s : FileChangeStore}
    {all flushed : List Change} (h : Opened bc t s all flushed) {calls : List StoreCall}
    (hcalls : ∀ c ∈ callsAppend calls, Encodable bc c) :
    (∃ flushed', Opened bc t ((fileStore bc).run s calls) (all ++ callsAppend calls) flushed') ∧
      ((fileStore bc).answers s calls).filterMap StoreAnswer.appendResult =
        (List.range' all.length (callsAppend calls).length).map Except.ok := by
  induction calls generalizing s all flushed with
  | nil => exact ⟨⟨flushed, by simpa [callsAppend] using h⟩, rfl⟩
  | cons call calls ih =>
      have hsplit : callsAppend (call :: calls) = call.appends ++ callsAppend calls := rfl
      rw [hsplit] at hcalls ⊢
      have hcall : ∀ c ∈ call.appends, Encodable bc c := fun c hc =>
        hcalls c (List.mem_append_left _ hc)
      rcases h.next hcall with ⟨flushed', hnext⟩
      rcases ih hnext fun c hc => hcalls c (List.mem_append_right _ hc) with ⟨hrun, hanswers⟩
      rw [run_cons, answers_cons, ← List.append_assoc]
      refine ⟨hrun, ?_⟩
      cases call with
      | append c =>
          rcases h.append (hcall c (List.mem_singleton_self c)) with ⟨s', _, happend, _⟩
          have hfirst : ((fileStore bc).answer s (.append c)).appendResult =
              some (.ok all.length) := by
            simp only [fileStore, happend, StoreAnswer.appendResult]
          rw [List.filterMap_cons_some hfirst, hanswers, List.length_append]
          simp only [StoreCall.appends, List.length_singleton, List.length_append]
          rw [Nat.add_comm 1, List.range'_succ, List.map_cons]
      | getSince offset =>
          rw [List.filterMap_cons_none rfl, hanswers]
          simp only [StoreCall.appends, List.append_nil, List.nil_append]
      | tailOffset =>
          rw [List.filterMap_cons_none rfl, hanswers]
          simp only [StoreCall.appends, List.append_nil, List.nil_append]
      | flush =>
          rw [List.filterMap_cons_none rfl, hanswers]
          simp only [StoreCall.appends, List.append_nil, List.nil_append]

/-- What a store represents: the log is the header and the records of the first
changes, fewer changes than the threshold are buffered, the write offset counts
all of them, and a read returns the flushed ones from its offset on. -/
structure Represents (bc : Bincode) (t : Nat) (s : FileChangeStore) (all : List Change) :
    Prop where
  contents : ∃ flushed rs, all = flushed ++ s.buffer ∧ s.log = some (logBytes rs) ∧
    Encodes bc flushed rs ∧ ∀ k, s.getSince bc k = .ok (flushed.drop k)
  buffer_lt : s.buffer.length < max t 1
  tailOffset : s.tailOffset = all.length

theorem Opened.represents {bc : Bincode} (hbc : bc.Lawful) {t : Nat}
    (ht : t < defaultIndexInterval) {s : FileChangeStore} {all flushed : List Change}
    (h : Opened bc t s all flushed) : Represents bc t s all where
  contents := by
    rcases h.stored.openOn with ⟨rs, hopen, hflushed⟩
    exact ⟨flushed, rs, h.stored.split, hopen.log, hflushed, fun k =>
      h.stored.getSince hbc (Or.inr (h.index ht))⟩
  buffer_lt := h.buffer_lt
  tailOffset := h.stored.tailOffset

/-- In every session in a new directory the store represents all changes that
were appended to it, the appends return consecutive offsets from 0 on, and a
flush empties the buffer. -/
theorem session_represents (bc : Bincode) (hbc : bc.Lawful) (d : Disk)
    (hfresh : d.readFile logName = none) (t : Nat) (ht : t < 1000) (calls : List StoreCall)
    (hcalls : ∀ c ∈ callsAppend calls, Encodable bc c) :
    ∃ s, FileChangeStore.new d t = .ok s ∧
      Represents bc t ((fileStore bc).run s calls) (callsAppend calls) ∧
      ((fileStore bc).answers s calls).filterMap StoreAnswer.appendResult =
        (List.range (callsAppend calls).length).map Except.ok ∧
      ((fileStore bc).run s (calls ++ [.flush])).buffer = [] := by
  rcases opened_new bc hfresh t with ⟨s, hnew, hopened⟩
  rcases hopened.run hcalls with ⟨⟨flushed, hrun⟩, hanswers⟩
  rcases hrun.flush with ⟨s', hflush, _, hbuffer⟩
  refine ⟨s, hnew, hrun.represents hbc ht, ?_, ?_⟩
  · rw [hanswers, List.range_eq_range', List.length_nil]
  · rw [run_append]
    simp only [run_cons, run_nil, fileStore] at hflush ⊢
    rw [hflush, hbuffer]

/-- A session that appends a change, flushes and reads. -/
theorem session_represents_sample :
    ∃ s, FileChangeStore.new Disk.empty 10 = .ok s ∧
      Represents sampleBincode 10
        ((fileStore sampleBincode).run s [.append sampleChange, .flush, .getSince 0])
        [sampleChange] ∧
      ((fileStore sampleBincode).answers s
          [.append sampleChange, .flush, .getSince 0]).filterMap StoreAnswer.appendResult =
        (List.range 1).map Except.ok ∧
      ((fileStore sampleBincode).run s
        ([.append sampleChange, .flush, .getSince 0] ++ [.flush])).buffer = [] :=
  session_represents sampleBincode sampleBincode_lawful Disk.empty rfl 10 (by decide)
    [.append sampleChange, .flush, .getSince 0]
    (by
      intro c hc
      obtain rfl : c = sampleChange := by simpa [callsAppend, StoreCall.appends] using hc
      exact ⟨sampleRecord, serialize_sampleChange⟩)

end IrohSync
