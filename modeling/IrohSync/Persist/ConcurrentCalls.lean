import Mathlib.Data.List.Perm.Basic
import IrohSync.Persist.MemoryStore

/-!
# Concurrent calls of a change store

The critical sections of appends and flushes that many threads run on one store.
An append of the file-based store takes its offset under one lock and buffers its
change under another; a flush takes the buffer under that lock and writes what it
has taken under a third.  An append of the in-memory store reads the number of
changes under one lock and adds its change under another.

Main results:

- Theorems {lit}`run_flushSections` and {lit}`run_appendSections`: without other
  threads the sections of a call are that call.
- Theorems {lit}`OffsetsDistinct.next` and {lit}`OffsetsOrdered.next`: what every critical
  section keeps, in any order and in the order of the offsets.
- Theorem {lit}`appends_in_step`: when offsets and log stay in step.
-/

namespace IrohSync

open FileIo Framing Machine

/-! ## Critical sections of the file-based store -/

/-- A file-based store and the calls of it that are in progress: the appends that
have taken an offset and not yet buffered their change, and the changes that
flushes have taken and not yet written.  The appends that have buffered their
change return its offset; a flush may have failed. -/
structure ConcurrentStore where
  store : FileChangeStore
  begun : List (Nat × Change)
  taken : List (List Change)
  returned : List (Nat × Change)
  failed : Bool

/-- A critical section of an append or of a flush.  The second sections of both
say which call in progress goes on. -/
inductive CriticalSection where
  | takeOffset (change : Change)
  | push (i : Nat)
  | takeBuffer
  | write (i : Nat) (fault : IoFault)

/-- The effect of a critical section. -/
def ConcurrentStore.next (bc : Bincode) (st : ConcurrentStore) :
    CriticalSection → ConcurrentStore
  | .takeOffset c =>
      let current := st.store.tailOffset
      { st with
        store := { st.store with tailOffset := current + 1 }
        begun := st.begun ++ [(current, c)] }
  | .push i =>
      match st.begun[i]? with
      | none => st
      | some call =>
          { st with
            store := { st.store with buffer := st.store.buffer ++ [call.2] }
            begun := st.begun.eraseIdx i
            returned := st.returned ++ [call] }
  | .takeBuffer =>
      if st.store.buffer.isEmpty then st
      else
        { st with
          store := { st.store with buffer := [] }
          taken := st.taken ++ [st.store.buffer] }
  | .write i fault =>
      match st.taken[i]? with
      | none => st
      | some changes =>
          let written := st.store.writeTaken fault bc changes
          { st with
            store := written.1
            taken := st.taken.eraseIdx i
            failed :=
              match written.2 with
              | .error _ => true
              | .ok () => st.failed }

/-- The critical sections of any number of threads, in any order. -/
def concurrentStore (bc : Bincode) : Machine ConcurrentStore CriticalSection Unit where
  next := ConcurrentStore.next bc
  answer _ _ := ()

/-- A store that no thread works on. -/
def ConcurrentStore.idle (s : FileChangeStore) : ConcurrentStore where
  store := s
  begun := []
  taken := []
  returned := []
  failed := false

/-- The change of an append that begins. -/
def CriticalSection.appends : CriticalSection → List Change
  | .takeOffset c => [c]
  | _ => []

/-- All appends and flushes have ended, none of them with an error, and nothing is
buffered. -/
def ConcurrentStore.Settled (st : ConcurrentStore) : Prop :=
  st.begun = [] ∧ st.taken = [] ∧ st.store.buffer = [] ∧ st.failed = false

/-- The appends returned distinct offsets, and once everything is flushed the log
has the change of every append at the offset that it returned and a read from
there starts with it. -/
def ConcurrentStore.InStep (bc : Bincode) (st : ConcurrentStore) : Prop :=
  (st.returned.map Prod.fst).Nodup ∧
    (st.Settled → ∃ all rs, st.store.log = some (logBytes rs) ∧ Encodes bc all rs ∧
      ∀ call ∈ st.returned, all[call.1]? = some call.2 ∧
        ∃ rest, st.store.getSince bc call.1 = .ok (call.2 :: rest))

/-- A critical section comes in the order of the offsets: an append buffers its
change before any append that took a later offset, and a flush writes before any
flush that took its changes later, fewer of them than would be indexed. -/
def InOrder (st : ConcurrentStore) : CriticalSection → Prop
  | .push i => i = 0
  | .write i _ =>
      i = 0 ∧ ∀ changes, st.taken[i]? = some changes → changes.length < st.store.indexInterval
  | _ => True

/-! ## The sections of one call -/

/-- The sections of a flush without other threads. -/
theorem run_flushSections (fault : IoFault) (bc : Bincode) (st : ConcurrentStore)
    (htaken : st.taken = []) :
    let st' := (concurrentStore bc).run st [.takeBuffer, .write 0 fault]
    st'.store = (st.store.flushUnder fault bc).1 ∧ st'.begun = st.begun ∧ st'.taken = [] ∧
      st'.returned = st.returned := by
  simp only [run_cons, run_nil, concurrentStore, ConcurrentStore.next,
    flushUnder_eq_writeTaken fault bc st.store]
  cases hbuffer : st.store.buffer with
  | nil => simp [htaken, ← hbuffer]
  | cons c rest => simp [htaken]

/-- The sections of an append without other threads. -/
def appendSections (fault : IoFault) (s : FileChangeStore) (c : Change) :
    List CriticalSection :=
  if s.flushThreshold ≤ s.buffer.length + 1 then
    [.takeOffset c, .push 0, .takeBuffer, .write 0 fault]
  else [.takeOffset c, .push 0]

/-- Without other threads the sections of an append are that append. -/
theorem run_appendSections (fault : IoFault) (bc : Bincode) (s : FileChangeStore) (c : Change) :
    let st' := (concurrentStore bc).run (.idle s) (appendSections fault s c)
    st'.store = (s.appendUnder fault bc c).1 ∧ st'.begun = [] ∧ st'.taken = [] ∧
      st'.returned = [(s.tailOffset, c)] := by
  have hpush : (concurrentStore bc).run (.idle s) [.takeOffset c, .push 0] =
      { ConcurrentStore.idle (s.pushed c) with returned := [(s.tailOffset, c)] } :=
    rfl
  unfold appendSections
  split_ifs with hle
  · have hsplit : [CriticalSection.takeOffset c, .push 0, .takeBuffer, .write 0 fault] =
        [.takeOffset c, .push 0] ++ [.takeBuffer, .write 0 fault] :=
      rfl
    rw [hsplit, run_append, hpush, appendUnder_of_le hle]
    exact run_flushSections fault bc _ rfl
  · rw [hpush, appendUnder_of_lt (Nat.lt_of_not_le hle)]
    exact ⟨rfl, rfl, rfl, rfl⟩

/-! ## Writing what was taken -/

/-- A write that succeeds adds the records of the changes to the log. -/
theorem openOn_writeTaken {fault : IoFault} {bc : Bincode} {s : FileChangeStore} {data : Bytes}
    {changes : List Change} {rs : List Record} (hopen : OpenOn s data)
    (henc : Encodes bc changes rs) (hok : (s.writeTaken fault bc changes).2 = .ok ()) :
    OpenOn (s.writeTaken fault bc changes).1 (data ++ recordBytes rs) := by
  rcases hopen.handle with ⟨f, hfile, _⟩
  unfold FileChangeStore.writeTaken at hok ⊢
  by_cases hadmits : fault.Admits (recordBytes rs).length
  · have hwrite := writeRecords_of_admits henc s.disk f hadmits
    simp only [hfile, hwrite] at hok ⊢
    split_ifs at hok ⊢ with hflush hsync
    · exact hopen.write hfile _ _ rfl rfl
    · exact hopen.write hfile _ _ rfl rfl
  · -- a write that is cut short fails
    cases fault with
    | write reached =>
        have hlt : reached < (recordBytes rs).length := Nat.lt_of_not_le hadmits
        rcases writeRecords_of_write_lt henc s.disk f hlt with ⟨e, hwrite⟩
        simp only [hfile, hwrite] at hok
        contradiction
    | none => exact absurd trivial hadmits
    | flush => exact absurd trivial hadmits
    | sync => exact absurd trivial hadmits

theorem exists_encodes {bc : Bincode} {cs : List Change} (h : ∀ c ∈ cs, Encodable bc c) :
    ∃ rs, Encodes bc cs rs := by
  induction cs with
  | nil => exact ⟨[], .nil⟩
  | cons c cs ih =>
      rcases h c List.mem_cons_self with ⟨r, hr⟩
      rcases ih fun c hc => h c (List.mem_cons_of_mem _ hc) with ⟨rs, hrs⟩
      exact ⟨r :: rs, .cons hr hrs⟩

/-! ## Distinct offsets -/

/-- The offsets of all appends, ended or not, are distinct and below the write
offset. -/
structure OffsetsDistinct (st : ConcurrentStore) : Prop where
  nodup : ((st.returned ++ st.begun).map Prod.fst).Nodup
  lt : ∀ o ∈ (st.returned ++ st.begun).map Prod.fst, o < st.store.tailOffset

theorem nodup_returned {st : ConcurrentStore}
    (h : ((st.returned ++ st.begun).map Prod.fst).Nodup) :
    (st.returned.map Prod.fst).Nodup := by
  rw [List.map_append] at h
  exact (List.nodup_append.mp h).1

theorem offsetsDistinct_idle (s : FileChangeStore) : OffsetsDistinct (.idle s) where
  nodup := List.nodup_nil
  lt _ ho := absurd ho List.not_mem_nil

theorem OffsetsDistinct.takeOffset {st : ConcurrentStore} (h : OffsetsDistinct st) (bc : Bincode)
    (c : Change) : OffsetsDistinct (st.next bc (.takeOffset c)) := by
  have hoffsets : (st.returned ++ (st.begun ++ [(st.store.tailOffset, c)])).map Prod.fst =
      (st.returned ++ st.begun).map Prod.fst ++ [st.store.tailOffset] := by
    simp
  constructor
  · simp only [ConcurrentStore.next, hoffsets]
    refine List.nodup_append.mpr ⟨h.nodup, List.pairwise_singleton _ _, fun o ho o' ho' => ?_⟩
    rw [List.mem_singleton.mp ho']
    exact Nat.ne_of_lt (h.lt o ho)
  · intro o ho
    simp only [ConcurrentStore.next, hoffsets] at ho ⊢
    rcases List.mem_append.mp ho with hold | hnew
    · exact Nat.lt_succ_of_lt (h.lt o hold)
    · rw [List.mem_singleton.mp hnew]
      exact Nat.lt_succ_self _

theorem OffsetsDistinct.push {st : ConcurrentStore} (h : OffsetsDistinct st) (bc : Bincode)
    (i : Nat) : OffsetsDistinct (st.next bc (.push i)) := by
  simp only [ConcurrentStore.next]
  split
  · exact h
  · rename_i call hcall
    -- the call moves from the appends in progress to those that return
    have hmove : (st.returned ++ [call] ++ st.begun.eraseIdx i).Perm
        (st.returned ++ st.begun) := by
      rw [List.append_assoc]
      rcases List.getElem?_eq_some_iff.mp hcall with ⟨hi, rfl⟩
      exact (List.getElem_cons_eraseIdx_perm hi).append_left _
    have hoffsets := hmove.map Prod.fst
    exact ⟨hoffsets.nodup_iff.mpr h.nodup, fun o ho => h.lt o (hoffsets.mem_iff.mp ho)⟩

/-- Every critical section keeps the offsets distinct. -/
theorem OffsetsDistinct.next {st : ConcurrentStore} (h : OffsetsDistinct st) (bc : Bincode)
    (e : CriticalSection) : OffsetsDistinct (st.next bc e) := by
  cases e with
  | takeOffset c => exact h.takeOffset bc c
  | push i => exact h.push bc i
  | takeBuffer =>
      simp only [ConcurrentStore.next]
      split_ifs
      · exact h
      · exact ⟨h.nodup, h.lt⟩
  | write i fault =>
      simp only [ConcurrentStore.next]
      split
      · exact h
      · rename_i changes _
        have htail := (writeTaken_frame fault bc st.store changes).2.1
        exact ⟨h.nodup, fun o ho => htail.symm ▸ h.lt o ho⟩

/-! ## Appends in order -/

/-- All sections so far came in the order of the offsets: the appends that ended
have the first offsets, and unless a flush has failed the log holds the first of
their changes, followed by what was taken and what is buffered. -/
structure OffsetsOrdered (bc : Bincode) (st : ConcurrentStore) : Prop where
  offsets : (st.returned ++ st.begun).map Prod.fst = List.range st.store.tailOffset
  encodable : ∀ c ∈ st.begun.map Prod.snd ++ (st.taken.flatten ++ st.store.buffer),
    Encodable bc c
  index : st.store.index = []
  log : st.failed = false → ∃ flushed rs, OpenOn st.store (logBytes rs) ∧
    Encodes bc flushed rs ∧
    st.returned.map Prod.snd = flushed ++ (st.taken.flatten ++ st.store.buffer)

theorem OffsetsOrdered.takeOffset {bc : Bincode} {st : ConcurrentStore} (h : OffsetsOrdered bc st)
    {c : Change} (hc : Encodable bc c) : OffsetsOrdered bc (st.next bc (.takeOffset c)) where
  offsets := by
    have hoffsets := h.offsets
    simp only [ConcurrentStore.next]
    rw [← List.append_assoc, List.map_append, hoffsets, List.range_succ]
    rfl
  encodable := by
    intro c' hc'
    simp only [ConcurrentStore.next, List.map_append, List.append_assoc] at hc'
    rcases List.mem_append.mp hc' with hbegun | hrest
    · exact h.encodable c' (List.mem_append_left _ hbegun)
    · rcases List.mem_append.mp hrest with hnew | hbuffered
      · obtain rfl : c' = c := List.mem_singleton.mp hnew
        exact hc
      · exact h.encodable c' (List.mem_append_right _ hbuffered)
  index := h.index
  log hfailed := by
    rcases h.log hfailed with ⟨flushed, rs, hopen, henc, hsplit⟩
    exact ⟨flushed, rs, ⟨hopen.handle⟩, henc, hsplit⟩

/-- The append with the first offset buffers its change. -/
theorem OffsetsOrdered.push {bc : Bincode} {st : ConcurrentStore} (h : OffsetsOrdered bc st) :
    OffsetsOrdered bc (st.next bc (.push 0)) := by
  simp only [ConcurrentStore.next]
  cases hbegun : st.begun with
  | nil => exact h
  | cons call rest =>
      have hoffsets := h.offsets
      have hencodable := h.encodable
      rw [hbegun] at hoffsets hencodable
      simp only [List.getElem?_cons_zero, List.eraseIdx_cons_zero]
      refine ⟨?_, fun c hc => hencodable c ?_, h.index, fun hfailed => ?_⟩
      · simpa using hoffsets
      · simp only [List.map_cons, List.cons_append, List.mem_cons, List.mem_append,
          List.not_mem_nil, or_false] at hc ⊢
        tauto
      · rcases h.log hfailed with ⟨flushed, rs, hopen, henc, hsplit⟩
        refine ⟨flushed, rs, ⟨hopen.handle⟩, henc, ?_⟩
        rw [List.map_append, hsplit]
        simp

theorem OffsetsOrdered.takeBuffer {bc : Bincode} {st : ConcurrentStore} (h : OffsetsOrdered bc st) :
    OffsetsOrdered bc (st.next bc .takeBuffer) := by
  simp only [ConcurrentStore.next]
  split_ifs
  · exact h
  · have hflatten : (st.taken ++ [st.store.buffer]).flatten ++ [] =
        st.taken.flatten ++ st.store.buffer := by
      simp
    refine ⟨h.offsets, fun c hc => h.encodable c ?_, h.index, fun hfailed => ?_⟩
    · rwa [hflatten] at hc
    · rcases h.log hfailed with ⟨flushed, rs, hopen, henc, hsplit⟩
      exact ⟨flushed, rs, ⟨hopen.handle⟩, henc, hsplit.trans (by rw [hflatten])⟩

/-- The flush that took its changes first writes them. -/
theorem OffsetsOrdered.write {bc : Bincode} {st : ConcurrentStore} (h : OffsetsOrdered bc st)
    (fault : IoFault)
    (hfew : ∀ changes, st.taken[0]? = some changes → changes.length < st.store.indexInterval) :
    OffsetsOrdered bc (st.next bc (.write 0 fault)) := by
  simp only [ConcurrentStore.next]
  cases htaken : st.taken with
  | nil => exact h
  | cons changes rest =>
      have hlt := hfew changes (by rw [htaken]; rfl)
      rcases writeTaken_frame fault bc st.store changes with ⟨hbuffer, htail, hindex⟩
      have hencodable := h.encodable
      rw [htaken] at hencodable
      simp only [List.getElem?_cons_zero, List.eraseIdx_cons_zero]
      refine ⟨?_, fun c hc => hencodable c ?_, ?_, fun hfailed => ?_⟩
      · rw [htail]
        exact h.offsets
      · rw [hbuffer] at hc
        simp only [List.mem_append, List.flatten_cons] at hc ⊢
        tauto
      · rw [hindex hlt, h.index]
      · cases hresult : (st.store.writeTaken fault bc changes).2 with
        | error e =>
            rw [hresult] at hfailed
            contradiction
        | ok u =>
            rw [hresult] at hfailed
            rcases h.log hfailed with ⟨flushed, rs, hopen, henc, hsplit⟩
            have hbatch : ∀ c ∈ changes, Encodable bc c := fun c hc =>
              hencodable c (by simp [hc])
            rcases exists_encodes hbatch with ⟨rs', henc'⟩
            refine ⟨flushed ++ changes, rs ++ rs', ?_, henc.append henc', ?_⟩
            · rw [logBytes_append]
              exact openOn_writeTaken hopen henc' hresult
            · rw [hsplit, htaken, hbuffer]
              simp

/-- Every critical section that comes in order keeps everything in order. -/
theorem OffsetsOrdered.next {bc : Bincode} {st : ConcurrentStore} (h : OffsetsOrdered bc st)
    {e : CriticalSection} (horder : InOrder st e) (hencodable : ∀ c ∈ e.appends, Encodable bc c) :
    OffsetsOrdered bc (st.next bc e) := by
  cases e with
  | takeOffset c => exact h.takeOffset (hencodable c (List.mem_singleton_self c))
  | push i =>
      obtain rfl : i = 0 := horder
      exact h.push
  | takeBuffer => exact h.takeBuffer
  | write i fault =>
      obtain rfl : i = 0 := horder.1
      exact h.write fault horder.2

/-- A store whose log had no record when it was opened. -/
theorem Fresh.ordered {s : FileChangeStore} {t : Nat} (h : Fresh s (logBytes []) t [])
    (bc : Bincode) : OffsetsOrdered bc (.idle s) where
  offsets := by
    simp only [ConcurrentStore.idle, h.tailOffset]
    rfl
  encodable := by simp [ConcurrentStore.idle, h.buffer]
  index := h.index_eq
  log _ := ⟨[], [], h.openOn, .nil, by simp [ConcurrentStore.idle, h.buffer]⟩

/-- Where the offsets of a list are its places, the change of an offset stands
there. -/
theorem getElem?_of_map_range {calls : List (Nat × Change)} {n : Nat}
    (hoffsets : calls.map Prod.fst = List.range n) {call : Nat × Change} (hcall : call ∈ calls) :
    (calls.map Prod.snd)[call.1]? = some call.2 := by
  rcases List.mem_iff_getElem?.mp hcall with ⟨i, hi⟩
  have hoffset : (calls.map Prod.fst)[i]? = some call.1 := by
    rw [List.getElem?_map, hi]
    rfl
  rw [hoffsets] at hoffset
  rcases List.getElem?_eq_some_iff.mp hoffset with ⟨hlt, hget⟩
  rw [List.getElem_range] at hget
  rw [← hget, List.getElem?_map, hi]
  rfl

/-- The append that returned an offset is found there. -/
theorem OffsetsOrdered.inStep {bc : Bincode} (hbc : bc.Lawful) {st : ConcurrentStore}
    (h : OffsetsOrdered bc st) : st.InStep bc := by
  refine ⟨nodup_returned (h.offsets ▸ List.nodup_range), ?_⟩
  rintro ⟨hbegun, htaken, hbuffer, hfailed⟩
  rcases h.log hfailed with ⟨flushed, rs, hopen, henc, hsplit⟩
  have hoffsets := h.offsets
  rw [hbegun, List.append_nil] at hoffsets
  rw [htaken, hbuffer, List.flatten_nil, List.append_nil, List.append_nil] at hsplit
  have hcount : flushed.length = st.store.tailOffset := by
    rw [← hsplit, List.length_map, ← List.length_map (f := Prod.fst), hoffsets, List.length_range]
  have hstored : Stored bc st.store flushed flushed :=
    ⟨⟨rs, hopen, henc⟩, ⟨[], hbuffer ▸ .nil⟩, by rw [hbuffer, List.append_nil], hcount.symm⟩
  refine ⟨flushed, rs, hopen.log, henc, fun call hcall => ?_⟩
  have hfound := getElem?_of_map_range hoffsets hcall
  rw [hsplit] at hfound
  refine ⟨hfound, flushed.drop (call.1 + 1), ?_⟩
  rw [hstored.getSince hbc (Or.inr h.index), List.drop_eq_getElem?_toList_append, hfound]
  rfl

/-! ## The in-memory store -/

/-- An in-memory store and the appends of it that have read the number of changes
and not yet added theirs. -/
structure ConcurrentMemory where
  store : MemoryChangeStore
  begun : List (Nat × Change)
  returned : List (Nat × Change)
deriving DecidableEq, Repr

/-- A critical section of an append to memory. -/
inductive MemorySection where
  | readLength (change : Change)
  | push (i : Nat)

/-- The critical sections of any number of threads, in any order. -/
def concurrentMemory : Machine ConcurrentMemory MemorySection Unit where
  next st e :=
    match e with
    | .readLength c => { st with begun := st.begun ++ [(st.store.changes.length, c)] }
    | .push i =>
        match st.begun[i]? with
        | none => st
        | some call =>
            { store := { changes := st.store.changes ++ [call.2] }
              begun := st.begun.eraseIdx i
              returned := st.returned ++ [call] }
  answer _ _ := ()

/-- A new store that no thread works on. -/
def ConcurrentMemory.new : ConcurrentMemory where
  store := .new
  begun := []
  returned := []

/-- The appends returned distinct offsets, the list has the change of every append
at the offset that it returned, and a read from there starts with it. -/
def ConcurrentMemory.InStep (st : ConcurrentMemory) : Prop :=
  (st.returned.map Prod.fst).Nodup ∧
    ∀ call ∈ st.returned, st.store.changes[call.1]? = some call.2 ∧
      ∃ rest, st.store.getSince call.1 = .ok (call.2 :: rest)

/-- No change was added since an append that adds its change has read the number
of changes. -/
def UpToDate (st : ConcurrentMemory) : MemorySection → Prop
  | .readLength _ => True
  | .push i => ∀ call, st.begun[i]? = some call → call.1 = st.store.changes.length

/-- Without other threads the sections of an append are that append. -/
theorem run_readLength_push (s : MemoryChangeStore) (c : Change) :
    concurrentMemory.run ⟨s, [], []⟩ [.readLength c, .push 0] =
      ⟨(s.append c).1, [], [(s.changes.length, c)]⟩ :=
  rfl

/-- All appends so far were up to date: each returned the place of its change. -/
structure Placed (st : ConcurrentMemory) : Prop where
  offsets : st.returned.map Prod.fst = List.range st.store.changes.length
  changes : st.returned.map Prod.snd = st.store.changes
  begun : ∀ call ∈ st.begun, call.1 ≤ st.store.changes.length

theorem placed_new : Placed .new where
  offsets := rfl
  changes := rfl
  begun := by simp [ConcurrentMemory.new]

theorem Placed.next {st : ConcurrentMemory} (h : Placed st) {e : MemorySection}
    (hup : UpToDate st e) : Placed (concurrentMemory.next st e) := by
  cases e with
  | readLength c =>
      refine ⟨h.offsets, h.changes, fun call hcall => ?_⟩
      rcases List.mem_append.mp hcall with hbegun | hnew
      · exact h.begun call hbegun
      · rw [List.mem_singleton.mp hnew]
        exact Nat.le_refl st.store.changes.length
  | push i =>
      simp only [concurrentMemory]
      split
      · exact h
      · rename_i call hcall
        have hoffset := hup call hcall
        refine ⟨?_, ?_, fun call' hcall' => ?_⟩
        · rw [List.map_append, h.offsets, List.length_append, List.length_singleton,
            List.range_succ, ← hoffset]
          rfl
        · rw [List.map_append, h.changes]
          rfl
        · have hle := h.begun call' (List.mem_of_mem_eraseIdx hcall')
          rw [List.length_append]
          exact Nat.le_add_right_of_le hle

theorem Placed.inStep {st : ConcurrentMemory} (h : Placed st) : st.InStep := by
  refine ⟨h.offsets ▸ List.nodup_range, fun call hcall => ?_⟩
  have hfound := getElem?_of_map_range h.offsets hcall
  rw [h.changes] at hfound
  refine ⟨hfound, st.store.changes.drop (call.1 + 1), ?_⟩
  rw [MemoryChangeStore.getSince, List.drop_eq_getElem?_toList_append, hfound]
  rfl

/-- What has been returned stays returned. -/
theorem returned_prefix_next (st : ConcurrentMemory) (e : MemorySection) :
    st.returned <+: (concurrentMemory.next st e).returned := by
  cases e with
  | readLength c => exact List.prefix_refl _
  | push i =>
      simp only [concurrentMemory]
      split
      · exact List.prefix_refl _
      · exact List.prefix_append _ _

/-- An append that is not up to date returns an offset that was returned before. -/
theorem Placed.upToDate_of_nodup {st : ConcurrentMemory} (h : Placed st) {e : MemorySection}
    (hnodup : ((concurrentMemory.next st e).returned.map Prod.fst).Nodup) : UpToDate st e := by
  cases e with
  | readLength c => trivial
  | push i =>
      intro call hcall
      have hle := h.begun call (List.mem_of_getElem? hcall)
      simp only [concurrentMemory, hcall, List.map_append, h.offsets] at hnodup
      have hnew := (List.nodup_append.mp hnodup).2.2 call.1
      by_contra hne
      have hlt : call.1 < st.store.changes.length := Nat.lt_of_le_of_ne hle hne
      exact hnew (List.mem_range.mpr hlt) call.1 (by simp) rfl

/-- Offsets and list stay in step exactly while all appends are up to date. -/
theorem memory_inStep_iff (sections : List MemorySection) :
    (concurrentMemory.run .new sections).InStep ↔
      concurrentMemory.Along UpToDate .new sections := by
  constructor
  · intro hstep
    apply along_of_run (I := Placed) (G := fun st => (st.returned.map Prod.fst).Nodup)
    · exact fun st e h hup => h.next hup
    · exact fun st e hnodup => hnodup.sublist ((returned_prefix_next st e).sublist.map Prod.fst)
    · exact fun st e h hnodup => h.upToDate_of_nodup hnodup
    · exact placed_new
    · exact hstep.1
  · intro halong
    exact (run_invariant (I := Placed) (fun st e h hup => h.next hup) placed_new halong).inStep

/-! ## Both stores -/

/-- In every interleaving of the critical sections of appends and flushes, the
offsets that appends to a file-based store return are distinct, and if the log had
no record when it was opened and the sections come in the order of the offsets then
offsets and log are in step.  Offsets and list of an in-memory store are in step
exactly if every append adds its change before any other change is added. -/
theorem appends_in_step (bc : Bincode) (hbc : bc.Lawful) (d : Disk) (rs : List Record)
    (hlog : HoldsLog d rs) (t : Nat) (sections : List CriticalSection)
    (hsections : ∀ e ∈ sections, ∀ c ∈ e.appends, Encodable bc c)
    (memorySections : List MemorySection) :
    (∃ s, FileChangeStore.new d t = .ok s ∧
      (((concurrentStore bc).run (.idle s) sections).returned.map Prod.fst).Nodup ∧
      (rs = [] → (concurrentStore bc).Along InOrder (.idle s) sections →
        ((concurrentStore bc).run (.idle s) sections).InStep bc)) ∧
    ((concurrentMemory.run .new memorySections).InStep ↔
      concurrentMemory.Along UpToDate .new memorySections) := by
  rcases new_logBytes hlog t with ⟨s, hnew, hs⟩
  refine ⟨⟨s, hnew, ?_, ?_⟩, memory_inStep_iff memorySections⟩
  · apply nodup_returned
    exact (run_invariant (I := OffsetsDistinct) (P := fun _ _ => True)
      (fun st e h _ => h.next bc e) (offsetsDistinct_idle s) (along_trivial _ _)).nodup
  · rintro rfl halong
    apply OffsetsOrdered.inStep hbc
    exact run_invariant (I := OffsetsOrdered bc) (fun st e h he => h.next he.1 he.2)
      (hs.ordered bc) (halong.and hsections)

/-- Two appends that both take their offset before either buffers its change, and two
flushes, the second of which takes its changes before the first has written. -/
def appendTwice : List CriticalSection :=
  [.takeOffset sampleChange, .takeOffset sampleChange, .push 0, .takeBuffer, .push 0,
    .takeBuffer, .write 0 .none, .write 0 .none]

/-- An append, and then two that both read the number of changes before the first of
them adds its change. -/
def appendThrice : List MemorySection :=
  [.readLength sampleChange, .push 0, .readLength sampleChange, .readLength sampleChange,
    .push 0]

/-- Both stores are in step after overlapping appends. -/
theorem appends_in_step_twice :
    (∃ s, FileChangeStore.new Disk.empty 10 = .ok s ∧
      ((concurrentStore sampleBincode).run (.idle s) appendTwice).InStep sampleBincode) ∧
    (concurrentMemory.run .new appendThrice).InStep := by
  have hsections : ∀ e ∈ appendTwice, ∀ c ∈ e.appends, Encodable sampleBincode c := by
    intro e he c hc
    have happends : appendTwice.flatMap CriticalSection.appends = [sampleChange, sampleChange] :=
      rfl
    have hmem : c ∈ [sampleChange, sampleChange] :=
      happends ▸ List.mem_flatMap.mpr ⟨e, he, hc⟩
    obtain rfl : c = sampleChange := by simpa using hmem
    exact ⟨sampleRecord, serialize_sampleChange⟩
  rcases appends_in_step sampleBincode sampleBincode_lawful Disk.empty [] (Or.inr ⟨rfl, rfl⟩) 10
    appendTwice hsections appendThrice with ⟨⟨s, hnew, _, hordered⟩, hmemory⟩
  refine ⟨⟨s, hnew, hordered rfl ?_⟩, hmemory.mpr ?_⟩
  · obtain rfl := Except.ok.inj hnew
    refine ⟨trivial, trivial, rfl, trivial, rfl, trivial, ⟨rfl, fun changes htaken => ?_⟩,
      ⟨rfl, fun changes htaken => ?_⟩, trivial⟩
    · obtain rfl := Option.some.inj htaken
      decide
    · obtain rfl := Option.some.inj htaken
      decide
  · refine ⟨trivial, fun call hcall => ?_, trivial, trivial, fun call hcall => ?_, trivial⟩
    · obtain rfl := Option.some.inj hcall
      rfl
    · obtain rfl := Option.some.inj hcall
      rfl

/-- The encoding of the other small change. -/
def otherBytes : Bytes :=
  le64 16 ++ List.replicate 16 1 ++ le64 1 ++ le64 1 ++ [110] ++ le64 1 ++ [100] ++ [0] ++
    leBytes 2 ++ [1] ++ le64 1 ++ [8] ++ [0] ++ le64 0

/-- The encoding restricted to the two small changes. -/
def twoBincode : Bincode where
  serialize c := if c = otherChange then .ok otherBytes else sampleBincode.serialize c
  deserialize b := if b = otherBytes then .ok otherChange else sampleBincode.deserialize b

set_option maxRecDepth 10000 in
/-- An append that takes the second offset buffers its change first, and two
appends to memory read the same number of changes. -/
theorem not_inStep_overtaken :
    (∃ s, FileChangeStore.new Disk.empty 10 = .ok s ∧
      ¬ ((concurrentStore twoBincode).run (.idle s)
        [.takeOffset sampleChange, .takeOffset otherChange, .push 1, .push 0, .takeBuffer,
          .write 0 .none]).InStep twoBincode) ∧
    ¬ (concurrentMemory.run .new
        [.readLength sampleChange, .readLength otherChange, .push 0, .push 0]).InStep := by
  refine ⟨⟨_, rfl, fun hstep => ?_⟩, fun hstep => ?_⟩
  · rcases hstep.2 ⟨rfl, rfl, rfl, rfl⟩ with ⟨all, rs, _, _, hcalls⟩
    rcases (hcalls (0, sampleChange) (by decide)).2 with ⟨rest, hread⟩
    have hfirst := (congrArg (fun r => r.toOption.bind List.head?) hread).trans
      (rfl : _ = some sampleChange)
    exact absurd hfirst (by decide)
  · exact absurd hstep.1 (by decide)

end IrohSync
