import IrohSync.Persist.Calls

/-!
# The in-memory change store

The store that is used where persistence is disabled keeps all changes in a list
and answers every call from it.  The file-based store answers reads from the log
alone, and from a wrong place once a large flush has put entries without a real
position into its index.

Main results:

- Theorem {lit}`Stored.getSince_eq_iff`: when a read of the file-based store
  returns what the list holds.
- Theorem {lit}`interchangeable_when`: when the two stores answer alike.
-/

namespace IrohSync

open FileIo Machine

/-! ## The store -/

/-- An in-memory change store. -/
structure MemoryChangeStore where
  changes : List Change
deriving DecidableEq, Repr

/-- A new store. -/
def MemoryChangeStore.new : MemoryChangeStore where
  changes := []

/-- Append a change to the log. -/
def MemoryChangeStore.append (s : MemoryChangeStore) (change : Change) :
    MemoryChangeStore × Except Error Nat :=
  let offset := s.changes.length
  ({ s with changes := s.changes ++ [change] }, .ok offset)

/-- Get changes since a given offset. -/
def MemoryChangeStore.getSince (s : MemoryChangeStore) (offset : Nat) :
    Except Error (List Change) :=
  .ok (s.changes.drop offset)

/-- Get the current tail offset. -/
def MemoryChangeStore.tailOffset (s : MemoryChangeStore) : Nat :=
  s.changes.length

/-- Flushing does nothing. -/
def MemoryChangeStore.flush (s : MemoryChangeStore) : MemoryChangeStore × Except Error Unit :=
  (s, .ok ())

/-- The in-memory store under calls. -/
def memoryStore : Machine MemoryChangeStore StoreCall StoreAnswer where
  next s call :=
    match call with
    | .append c => (s.append c).1
    | .getSince _ => s
    | .tailOffset => s
    | .flush => s.flush.1
  answer s call :=
    match call with
    | .append c => .append (s.append c).2
    | .getSince offset => .getSince (s.getSince offset)
    | .tailOffset => .tailOffset s.tailOffset
    | .flush => .flush s.flush.2

theorem memoryStore_next (s : MemoryChangeStore) (call : StoreCall) :
    (memoryStore.next s call).changes = s.changes ++ call.appends := by
  cases call with
  | append c => rfl
  | getSince offset => exact (List.append_nil _).symm
  | tailOffset => exact (List.append_nil _).symm
  | flush => exact (List.append_nil _).symm

/-! ## Agreement with the file-based store -/

/-- A read of the file-based store finds everything it is asked for: nothing that
it asks for is still buffered, and it does not go through index entries. -/
def FindsAll (s : FileChangeStore) : StoreCall → Prop
  | .getSince offset =>
      (s.buffer = [] ∨ s.tailOffset ≤ offset) ∧ (offset = 0 ∨ s.index = [])
  | _ => True

/-- A read that does not go through index entries returns all changes from its
offset on exactly if none of them is buffered. -/
theorem Stored.getSince_eq_iff {bc : Bincode} (hbc : bc.Lawful) {s : FileChangeStore}
    {all flushed : List Change} (h : Stored bc s all flushed) {k : Nat}
    (hdirect : k = 0 ∨ s.index = []) :
    s.getSince bc k = .ok (all.drop k) ↔ s.buffer = [] ∨ s.tailOffset ≤ k := by
  rw [h.getSince hbc hdirect, Except.ok.injEq, h.tailOffset, h.split, List.drop_append]
  constructor
  · intro heq
    have hrest := List.self_eq_append_right.mp heq
    by_cases hempty : s.buffer = []
    · exact Or.inl hempty
    · right
      have hpos := List.length_pos_iff.mpr hempty
      have hlength := List.drop_eq_nil_iff.mp hrest
      rw [List.length_append]
      omega
  · intro hfound
    apply List.self_eq_append_right.mpr
    rcases hfound with hempty | hbehind
    · rw [hempty, List.drop_nil]
    · rw [List.length_append] at hbehind
      exact List.drop_eq_nil_iff.mpr (by omega)

/-- The two stores after the same calls. -/
def SameChanges (bc : Bincode) (t : Nat) (s : FileChangeStore) (m : MemoryChangeStore) : Prop :=
  ∃ flushed, Opened bc t s m.changes flushed

theorem SameChanges.next {bc : Bincode} {t : Nat} {s : FileChangeStore} {m : MemoryChangeStore}
    (h : SameChanges bc t s m) {call : StoreCall} (hcall : ∀ c ∈ call.appends, Encodable bc c) :
    SameChanges bc t ((fileStore bc).next s call) (memoryStore.next m call) := by
  rcases h with ⟨flushed, hopened⟩
  rw [SameChanges, memoryStore_next]
  exact hopened.next hcall

/-- Every call but a read is answered alike. -/
theorem SameChanges.answer_eq {bc : Bincode} {t : Nat} {s : FileChangeStore}
    {m : MemoryChangeStore} (h : SameChanges bc t s m) {call : StoreCall}
    (hcall : ∀ c ∈ call.appends, Encodable bc c)
    (hread : ∀ k, call = .getSince k → s.getSince bc k = .ok (m.changes.drop k)) :
    (fileStore bc).answer s call = memoryStore.answer m call := by
  rcases h with ⟨flushed, hopened⟩
  cases call with
  | append c =>
      rcases hopened.append (hcall c (List.mem_singleton_self c)) with ⟨s', _, happend, _⟩
      simp only [fileStore, memoryStore, happend, MemoryChangeStore.append]
  | getSince k =>
      simp only [fileStore, memoryStore, hread k rfl, MemoryChangeStore.getSince]
  | tailOffset =>
      simp only [fileStore, memoryStore, hopened.stored.tailOffset,
        MemoryChangeStore.tailOffset]
  | flush =>
      rcases hopened.flush with ⟨s', hflush, _⟩
      simp only [fileStore, memoryStore, hflush, MemoryChangeStore.flush]

/-- A call is answered alike if a read finds all it is asked for. -/
theorem SameChanges.answer_eq_of_findsAll {bc : Bincode} (hbc : bc.Lawful) {t : Nat}
    {s : FileChangeStore} {m : MemoryChangeStore} (h : SameChanges bc t s m) {call : StoreCall}
    (hcall : ∀ c ∈ call.appends, Encodable bc c) (hfinds : FindsAll s call) :
    (fileStore bc).answer s call = memoryStore.answer m call := by
  apply h.answer_eq hcall
  rintro k rfl
  rcases h with ⟨flushed, hopened⟩
  exact (hopened.stored.getSince_eq_iff hbc hfinds.2).mpr hfinds.1

/-- Below a threshold of one index interval a call is answered alike only then. -/
theorem SameChanges.answer_eq_iff {bc : Bincode} (hbc : bc.Lawful) {t : Nat}
    (ht : t < defaultIndexInterval) {s : FileChangeStore} {m : MemoryChangeStore}
    (h : SameChanges bc t s m) {call : StoreCall} (hcall : ∀ c ∈ call.appends, Encodable bc c) :
    (fileStore bc).answer s call = memoryStore.answer m call ↔ FindsAll s call := by
  refine ⟨fun heq => ?_, h.answer_eq_of_findsAll hbc hcall⟩
  rcases h with ⟨flushed, hopened⟩
  have hdirect := hopened.index ht
  cases call with
  | append c => trivial
  | getSince k =>
      have hread : s.getSince bc k = .ok (m.changes.drop k) := StoreAnswer.getSince.inj heq
      exact ⟨(hopened.stored.getSince_eq_iff hbc (Or.inr hdirect)).mp hread, Or.inr hdirect⟩
  | tailOffset => trivial
  | flush => trivial

/-- From a new directory on, the file-based and the in-memory store answer alike
in every run in which no read asks for a buffered change or goes through index
entries; for thresholds below 1000 in no other runs. -/
theorem interchangeable_when (bc : Bincode) (hbc : bc.Lawful) (d : Disk)
    (hfresh : d.readFile logName = none) (t : Nat) (calls : List StoreCall)
    (hcalls : ∀ call ∈ calls, ∀ c ∈ call.appends, Encodable bc c) :
    ∃ s, FileChangeStore.new d t = .ok s ∧
      ((fileStore bc).Along FindsAll s calls →
        (fileStore bc).answers s calls = memoryStore.answers .new calls) ∧
      (t < 1000 → ((fileStore bc).answers s calls = memoryStore.answers .new calls ↔
        (fileStore bc).Along FindsAll s calls)) := by
  rcases opened_new bc hfresh t with ⟨s, hnew, hopened⟩
  have hsame : SameChanges bc t s .new := ⟨[], hopened⟩
  have hstep : ∀ s m call, SameChanges bc t s m → (∀ c ∈ call.appends, Encodable bc c) →
      SameChanges bc t ((fileStore bc).next s call) (memoryStore.next m call) :=
    fun s m call h hcall => h.next hcall
  refine ⟨s, hnew, fun halong => ?_, fun ht => ?_⟩
  · exact answers_eq hstep (fun s m call h hcall => h.answer_eq_of_findsAll hbc hcall) hsame
      hcalls halong
  · exact Machine.answers_eq_iff hstep (fun s m call h hcall => h.answer_eq_iff hbc ht hcall)
      hsame hcalls

/-- The stores in a run that flushes before it reads. -/
theorem interchangeable_when_sample :
    ∃ s, FileChangeStore.new Disk.empty 10 = .ok s ∧
      (fileStore sampleBincode).answers s [.append sampleChange, .flush, .getSince 0] =
        memoryStore.answers .new [.append sampleChange, .flush, .getSince 0] := by
  have hcalls : ∀ call ∈ [StoreCall.append sampleChange, .flush, .getSince 0],
      ∀ c ∈ call.appends, Encodable sampleBincode c := by
    intro call hcall c hc
    have hmem : c ∈ callsAppend [StoreCall.append sampleChange, .flush, .getSince 0] :=
      List.mem_flatMap.mpr ⟨call, hcall, hc⟩
    obtain rfl : c = sampleChange := by simpa [callsAppend, StoreCall.appends] using hmem
    exact ⟨sampleRecord, serialize_sampleChange⟩
  rcases interchangeable_when sampleBincode sampleBincode_lawful Disk.empty rfl 10
    [.append sampleChange, .flush, .getSince 0] hcalls with ⟨s, hnew, halike, _⟩
  refine ⟨s, hnew, halike ?_⟩
  obtain rfl := Except.ok.inj hnew
  exact ⟨trivial, trivial, ⟨Or.inl rfl, Or.inl rfl⟩, trivial⟩

/-- An appended change that is not flushed yet is read from memory only. -/
theorem not_interchangeable_buffered :
    ∃ s, FileChangeStore.new Disk.empty 10 = .ok s ∧
      (fileStore sampleBincode).answers s [.append sampleChange, .getSince 0] ≠
        memoryStore.answers .new [.append sampleChange, .getSince 0] := by
  rcases opened_new sampleBincode (d := Disk.empty) rfl 10 with ⟨s, hnew, hopened⟩
  refine ⟨s, hnew, fun heq => ?_⟩
  have hbuffer : s.buffer = [] := (List.append_eq_nil_iff.mp hopened.stored.split.symm).2
  have happend : s.append sampleBincode sampleChange =
      (s.pushed sampleChange, .ok s.tailOffset) := by
    apply appendUnder_of_lt
    rw [hbuffer, hopened.flushThreshold]
    decide
  have hpushed := hopened.stored.pushed ⟨sampleRecord, serialize_sampleChange⟩
  have hindex : (s.pushed sampleChange).index = [] := hopened.index (by decide)
  simp only [answers_cons, fileStore, memoryStore, happend, List.cons.injEq,
    StoreAnswer.getSince.injEq] at heq
  -- the read would have to return a change that is still buffered
  rcases (hpushed.getSince_eq_iff sampleBincode_lawful (Or.inr hindex)).mp heq.2.1 with
    hempty | hbehind
  · simp [FileChangeStore.pushed] at hempty
  · simp [FileChangeStore.pushed] at hbehind

end IrohSync
