import IrohSync.Persist.Session

/-!
# Failed flushes

A flush takes the buffer before it writes the first byte and never puts it back.
A failure after the last byte therefore loses nothing, while a failure before it
loses the changes that were not written and leaves a torn record behind.

Main results:

- Theorem {lit}`Split.flushUnder_cut`: what a flush that is cut short leaves.
- Theorem {lit}`losesNothing_iff`: exactly which failures of one operation lose
  nothing.
- Theorem {lit}`Recorded.run_holds`: runs whose failures are all of that kind.
- Theorem {lit}`failed_flush_iff`: both together.
-/

namespace IrohSync

open FileIo Framing Loop

/-! ## Operations under faults -/

/-- The store after an operation has taken up its change and before it flushes. -/
def StoreOp.takenUp (op : StoreOp) (s : FileChangeStore) : FileChangeStore :=
  match op with
  | .append c => s.pushed c
  | .flush => s

/-- Run one operation under a fault of the device. -/
def FileChangeStore.stepUnder (fault : IoFault) (bc : Bincode) (s : FileChangeStore)
    (op : StoreOp) : FileChangeStore × Except Error Unit :=
  match op with
  | .append c =>
      let result := s.appendUnder fault bc c
      (result.1, result.2.map fun _ => ())
  | .flush => s.flushUnder fault bc

/-- An operation returns an error. -/
def Fails (fault : IoFault) (bc : Bincode) (s : FileChangeStore) (op : StoreOp) : Prop :=
  ∃ e, (s.stepUnder fault bc op).2 = .error e

/-- An operation that fails has flushed. -/
theorem Fails.flushed {fault : IoFault} {bc : Bincode} {s : FileChangeStore} {op : StoreOp}
    (h : Fails fault bc s op) :
    (s.stepUnder fault bc op).1 = ((op.takenUp s).flushUnder fault bc).1 ∧
      ∃ e, ((op.takenUp s).flushUnder fault bc).2 = .error e := by
  cases op with
  | flush => exact ⟨rfl, h⟩
  | append c =>
      rcases h with ⟨e, he⟩
      by_cases hle : s.flushThreshold ≤ s.buffer.length + 1
      · simp only [FileChangeStore.stepUnder, appendUnder_of_le hle, StoreOp.takenUp] at he ⊢
        refine ⟨trivial, ?_⟩
        cases hflush : ((s.pushed c).flushUnder fault bc).2 with
        | error e' => exact ⟨e', rfl⟩
        | ok u => simp [hflush, Except.map] at he
      · simp [FileChangeStore.stepUnder, appendUnder_of_lt (Nat.lt_of_not_le hle),
          Except.map] at he

/-- The size of the records of buffered changes. -/
def bufferedSize (bc : Bincode) (cs : List Change) : Nat :=
  (cs.map fun c =>
    match bc.serialize c with
    | .ok bytes => 4 + bytes.length
    | .error _ => 0).sum

theorem bufferedSize_eq {bc : Bincode} {cs : List Change} {rs : List Record}
    (henc : Encodes bc cs rs) : bufferedSize bc cs = (recordBytes rs).length := by
  induction henc with
  | nil => rfl
  | cons hc _ ih =>
      rw [recordBytes_cons, List.length_append, frame_length, ← ih]
      simp [bufferedSize, hc]

/-! ## What must be kept -/

/-- Changes are complete records of the log or buffered, in order and exactly
once; the write offset counts both; and whatever follows, a flush makes all of
them readable. -/
structure Kept (bc : Bincode) (s : FileChangeStore) (cs : List Change) : Prop where
  contents : ∃ flushed pending left, s.log = some (logBytes flushed ++ left) ∧
    Incomplete le left ∧ Encodes bc cs (flushed ++ pending) ∧ Encodes bc s.buffer pending ∧
    s.tailOffset = flushed.length + s.buffer.length
  readsBack : ReadsBack bc s cs

/-- After an operation on a store with these changes nothing is lost.  A change
whose own append failed may be kept or not. -/
def LosesNothing (bc : Bincode) (s : FileChangeStore) (accepted : List Change) :
    StoreOp → Prop
  | .flush => Kept bc s accepted
  | .append c => Kept bc s accepted ∨ Kept bc s (accepted ++ [c])

/-- Faults that lose nothing: all bytes reach the file and the write offset was
right, or the write offset was one too low and the write of an appended change
fails exactly between the earlier changes and this one. -/
def Harmless (fault : IoFault) (bc : Bincode) (s : FileChangeStore) (op : StoreOp) : Prop :=
  ∃ flushed, s.log = some (logBytes flushed) ∧
    ((s.tailOffset = flushed.length + s.buffer.length ∧
        fault.Admits (bufferedSize bc (op.takenUp s).buffer)) ∨
      (s.tailOffset + 1 = flushed.length + s.buffer.length ∧ (∃ c, op = .append c) ∧
        fault = .write (bufferedSize bc s.buffer)))

/-! ## The log after a failed flush -/

/-- The flushed and the buffered records of an open store. -/
structure Split (bc : Bincode) (s : FileChangeStore) (accepted : List Change)
    (flushed pending : List Record) : Prop where
  openOn : OpenOn s (logBytes flushed)
  accepted : Encodes bc accepted (flushed ++ pending)
  buffered : Encodes bc s.buffer pending

theorem Holds.split {bc : Bincode} {s : FileChangeStore} {cs : List Change}
    (h : Holds bc s header cs) : ∃ flushed pending, Split bc s cs flushed pending := by
  rcases h with ⟨flushed, pending, hopen, henc, hbuffered⟩
  exact ⟨flushed, pending, hopen, henc, hbuffered⟩

theorem Split.pushed {bc : Bincode} {s : FileChangeStore} {cs : List Change}
    {flushed pending : List Record} (h : Split bc s cs flushed pending) {c : Change} {r : Record}
    (hc : bc.serialize c = .ok r.bytes) :
    Split bc (s.pushed c) (cs ++ [c]) flushed (pending ++ [r]) where
  openOn := ⟨h.openOn.handle⟩
  accepted := by
    rw [← List.append_assoc]
    exact h.accepted.append (.cons hc .nil)
  buffered := h.buffered.append (.cons hc .nil)

/-- The number of accepted changes. -/
theorem Split.length_eq {bc : Bincode} {s : FileChangeStore} {cs : List Change}
    {flushed pending : List Record} (h : Split bc s cs flushed pending) :
    cs.length = flushed.length + s.buffer.length := by
  rw [h.accepted.length_eq, List.length_append, h.buffered.length_eq]

/-- A harmless fault measured by the flushed records. -/
theorem Split.harmless_iff {bc : Bincode} {s : FileChangeStore} {cs : List Change}
    {flushed pending : List Record} (h : Split bc s cs flushed pending) {fault : IoFault}
    {op : StoreOp} :
    Harmless fault bc s op ↔
      (s.tailOffset = cs.length ∧ fault.Admits (bufferedSize bc (op.takenUp s).buffer)) ∨
        (s.tailOffset + 1 = cs.length ∧ (∃ c, op = .append c) ∧
          fault = .write (bufferedSize bc s.buffer)) := by
  rw [h.length_eq]
  constructor
  · rintro ⟨flushed', hlog, hcond⟩
    have heq : logBytes flushed' ++ [] = logBytes flushed ++ [] := by
      simpa using Option.some.inj (hlog.symm.trans h.openOn.log)
    rcases logBytes_append_inj incomplete_nil incomplete_nil heq with ⟨rfl, _⟩
    exact hcond
  · exact fun hcond => ⟨flushed, h.openOn.log, hcond⟩

/-- A failing flush whose bytes all reach the file. -/
theorem Split.flushUnder_whole {bc : Bincode} {s : FileChangeStore} {cs : List Change}
    {flushed pending : List Record} (h : Split bc s cs flushed pending) {fault : IoFault}
    (hadmits : fault.Admits (bufferedSize bc s.buffer)) :
    FlushEffect s (s.flushUnder fault bc).1 (logBytes (flushed ++ pending)) := by
  rw [bufferedSize_eq h.buffered] at hadmits
  rw [logBytes_append]
  exact (flushUnder_of_admits h.openOn h.buffered hadmits).1

/-- A flush that is cut short leaves some of its records and the first bytes of
the next one. -/
theorem Split.flushUnder_cut {bc : Bincode} {s : FileChangeStore} {cs : List Change}
    {flushed pending : List Record} (h : Split bc s cs flushed pending) {fault : IoFault}
    (hcut : ¬ fault.Admits (bufferedSize bc s.buffer)) :
    ∃ reached j torn, fault = .write reached ∧ j < pending.length ∧
      FlushEffect s (s.flushUnder fault bc).1 (logBytes (flushed ++ pending.take j) ++ torn) ∧
      reached = (recordBytes (pending.take j)).length + torn.length ∧
      (torn = [] ∨ ∃ r m, pending[j]? = some r ∧ 0 < m ∧ m < 4 + r.bytes.length ∧
        torn = (frame le r.bytes).take m) := by
  rw [bufferedSize_eq h.buffered] at hcut
  cases fault with
  | none => exact absurd trivial hcut
  | flush => exact absurd trivial hcut
  | sync => exact absurd trivial hcut
  | write reached =>
      have hlt : reached < (recordBytes pending).length := Nat.lt_of_not_le hcut
      have heffect := (flushUnder_of_write_lt h.openOn h.buffered hlt).1
      rcases take_frames le (pending.map Record.bytes) reached with ⟨j, hj, torn, htake, htorn⟩
      rw [List.length_map] at hj
      have hbytes : (recordBytes pending).take reached = recordBytes (pending.take j) ++ torn := by
        rw [recordBytes, htake, recordBytes, List.map_take]
      have hreached : reached = (recordBytes (pending.take j)).length + torn.length := by
        rw [← List.length_append, ← hbytes, List.length_take]
        omega
      refine ⟨reached, j, torn, rfl, ?_, ?_, hreached, ?_⟩
      · refine Nat.lt_of_le_of_ne hj fun hall => ?_
        rw [hall, List.take_length] at hreached
        omega
      · rw [logBytes_append, List.append_assoc, ← hbytes]
        exact heffect
      · rcases htorn with hnil | ⟨body, m, hbody, hpos, hm, htorn⟩
        · exact Or.inl hnil
        · rw [List.getElem?_map, Option.map_eq_some_iff] at hbody
          rcases hbody with ⟨r, hr, rfl⟩
          exact Or.inr ⟨r, m, hr, hpos, hm, htorn⟩

/-- A write that fails exactly between the earlier changes and the appended one. -/
theorem Split.flushUnder_between {bc : Bincode} {s : FileChangeStore} {cs : List Change}
    {flushed pending : List Record} (h : Split bc s cs flushed pending) {c : Change} {r : Record}
    (hc : bc.serialize c = .ok r.bytes) :
    FlushEffect (s.pushed c) ((s.pushed c).flushUnder (.write (bufferedSize bc s.buffer)) bc).1
      (logBytes (flushed ++ pending)) := by
  have hpushed := h.pushed hc
  have hsize := bufferedSize_eq h.buffered
  have hlt : (recordBytes pending).length < (recordBytes (pending ++ [r])).length := by
    rw [recordBytes_append, List.length_append, recordBytes_cons, List.length_append,
      frame_length]
    omega
  have heffect := (flushUnder_of_write_lt hpushed.openOn hpushed.buffered hlt).1
  rwa [recordBytes_append, List.take_left, ← logBytes_append, ← hsize] at heffect

/-- The first bytes of a record are no complete record. -/
theorem incomplete_take_frame {r : Record} {m : Nat} (hm : m < 4 + r.bytes.length) :
    Incomplete le ((frame le r.bytes).take m) := by
  have hlen : ((frame le r.bytes).take m).length = m := by
    rw [List.length_take, frame_length]
    omega
  by_cases h4 : m < 4
  · exact Or.inl (hlen.symm ▸ h4)
  · right
    have hread := read_take_frame (p := le) [] r.length_lt
    rw [List.append_nil] at hread
    rw [List.take_take, Nat.min_eq_left (Nat.le_of_not_lt h4), hread, hlen]
    exact hm

/-! ## One failing operation -/

/-- Changes that are all in the log are kept if the write offset counts them. -/
theorem kept_of_log {bc : Bincode} (hbc : bc.Lawful) {s : FileChangeStore} {cs : List Change}
    {rs : List Record} (hopen : OpenOn s (logBytes rs)) (hbuffer : s.buffer = [])
    (henc : Encodes bc cs rs) (htail : s.tailOffset = cs.length) : Kept bc s cs where
  contents := by
    refine ⟨rs, [], [], by simpa using hopen.log, incomplete_nil, by simpa using henc,
      hbuffer ▸ .nil, ?_⟩
    rw [htail, hbuffer, henc.length_eq, List.length_nil, Nat.add_zero]
  readsBack := Holds.readsBack hbc ⟨rs, [], hopen, by simpa using henc, hbuffer ▸ .nil⟩

/-- Changes that are kept without a buffer are the records of the log. -/
theorem Kept.of_log {bc : Bincode} {s : FileChangeStore} {cs : List Change}
    (h : Kept bc s cs) (hbuffer : s.buffer = []) {rs : List Record} {left : Bytes}
    (hlog : s.log = some (logBytes rs ++ left)) (hleft : Incomplete le left) :
    Encodes bc cs rs ∧ s.tailOffset = rs.length := by
  rcases h.contents with ⟨flushed, pending, left', hlog', hleft', henc, hbuffered, htail⟩
  have heq := Option.some.inj (hlog'.symm.trans hlog)
  rcases logBytes_append_inj hleft' hleft heq with ⟨rfl, _⟩
  rw [hbuffer] at hbuffered htail
  rw [hbuffered.eq_nil, List.append_nil] at henc
  exact ⟨henc, htail⟩

/-- A flush whose bytes all reach the file keeps the changes exactly if the
write offset was right. -/
theorem Split.kept_whole_iff {bc : Bincode} (hbc : bc.Lawful) {s : FileChangeStore}
    {cs : List Change} {flushed pending : List Record} (h : Split bc s cs flushed pending)
    {fault : IoFault} (hadmits : fault.Admits (bufferedSize bc s.buffer)) {held : List Change} :
    Kept bc (s.flushUnder fault bc).1 held ↔
      Encodes bc held (flushed ++ pending) ∧ s.tailOffset = cs.length := by
  have heffect := h.flushUnder_whole hadmits
  have hlen := h.accepted.length_eq
  constructor
  · intro hkept
    have hlog := heffect.openOn.log
    rw [← List.append_nil (logBytes _)] at hlog
    rcases hkept.of_log heffect.buffer hlog incomplete_nil with ⟨henc, htail⟩
    exact ⟨henc, by rw [← heffect.tailOffset, htail, hlen]⟩
  · rintro ⟨henc, htail⟩
    exact kept_of_log hbc heffect.openOn heffect.buffer henc
      (by rw [heffect.tailOffset, htail, hlen, henc.length_eq])

/-- A flush that is cut short keeps fewer changes than there were, and only
those in front of a cut between two records. -/
theorem Split.kept_cut {bc : Bincode} (hbc : bc.Lawful) {c : Change} {small : Record}
    (hc : bc.serialize c = .ok small.bytes) (hsmall : small.bytes.length < 256)
    {s : FileChangeStore} {cs : List Change} {flushed pending : List Record}
    (h : Split bc s cs flushed pending) {fault : IoFault}
    (hcut : ¬ fault.Admits (bufferedSize bc s.buffer)) {held : List Change}
    (hkept : Kept bc (s.flushUnder fault bc).1 held) :
    ∃ j, j < pending.length ∧ held.length = flushed.length + j ∧
      s.tailOffset = held.length ∧ fault = .write (recordBytes (pending.take j)).length := by
  rcases h.flushUnder_cut hcut with ⟨reached, j, torn, rfl, hj, heffect, hreached, htorn⟩
  have hincomplete : Incomplete le torn := by
    rcases htorn with rfl | ⟨r, m, _, _, hm, rfl⟩
    · exact incomplete_nil
    · exact incomplete_take_frame hm
  rcases hkept.of_log heffect.buffer heffect.openOn.log hincomplete with ⟨henc, htail⟩
  have hlen : held.length = flushed.length + j := by
    rw [henc.length_eq, List.length_append, List.length_take, Nat.min_eq_left (Nat.le_of_lt hj)]
  refine ⟨j, hj, hlen, by rw [← heffect.tailOffset, htail, henc.length_eq], ?_⟩
  rcases htorn with rfl | ⟨r, m, _, hpos, hm, rfl⟩
  · rw [hreached, List.length_nil, Nat.add_zero]
  · exact absurd hkept.readsBack (not_readsBack_torn hbc hc hsmall henc hpos hm
      ⟨[], by simpa using heffect.openOn, .nil, heffect.buffer⟩)

/-- A failing flush loses nothing exactly if its fault is harmless. -/
theorem Split.losesNothing_flush_iff {bc : Bincode} (hbc : bc.Lawful) {c : Change}
    {small : Record} (hc : bc.serialize c = .ok small.bytes) (hsmall : small.bytes.length < 256)
    {s : FileChangeStore} {cs : List Change} {flushed pending : List Record}
    (h : Split bc s cs flushed pending) {fault : IoFault} :
    LosesNothing bc (s.flushUnder fault bc).1 cs .flush ↔ Harmless fault bc s .flush := by
  rw [h.harmless_iff, LosesNothing, StoreOp.takenUp]
  by_cases hadmits : fault.Admits (bufferedSize bc s.buffer)
  · rw [h.kept_whole_iff hbc hadmits]
    simp [h.accepted, hadmits]
  · constructor
    · intro hkept
      rcases h.kept_cut hbc hc hsmall hadmits hkept with ⟨j, hj, hlen, _, _⟩
      rw [h.accepted.length_eq, List.length_append] at hlen
      omega
    · rintro (⟨_, hadmits'⟩ | ⟨_, ⟨c', hop⟩, _⟩)
      · exact absurd hadmits' hadmits
      · contradiction

/-- A failing append loses nothing exactly if its fault is harmless. -/
theorem Split.losesNothing_append_iff {bc : Bincode} (hbc : bc.Lawful) {c : Change}
    {small : Record} (hc : bc.serialize c = .ok small.bytes) (hsmall : small.bytes.length < 256)
    {s : FileChangeStore} {cs : List Change} {flushed pending : List Record}
    (h : Split bc s cs flushed pending) {fault : IoFault} {c' : Change} {r : Record}
    (hr : bc.serialize c' = .ok r.bytes) :
    LosesNothing bc ((s.pushed c').flushUnder fault bc).1 cs (.append c') ↔
      Harmless fault bc s (.append c') := by
  have hpushed := h.pushed hr
  have hlen := h.accepted.length_eq
  have hsize := bufferedSize_eq h.buffered
  have hsize' := bufferedSize_eq hpushed.buffered
  have hmore : (recordBytes (pending ++ [r])).length =
      (recordBytes pending).length + (4 + r.bytes.length) := by
    rw [recordBytes_append, List.length_append, recordBytes_cons, recordBytes_nil,
      List.append_nil, frame_length]
  rw [h.harmless_iff, LosesNothing, StoreOp.takenUp]
  by_cases hadmits : fault.Admits (bufferedSize bc (s.pushed c').buffer)
  · rw [hpushed.kept_whole_iff hbc hadmits, hpushed.kept_whole_iff hbc hadmits]
    have htail : (s.pushed c').tailOffset = s.tailOffset + 1 := rfl
    constructor
    · rintro (⟨_, hcount⟩ | ⟨_, hcount⟩) <;>
        exact Or.inl ⟨by simpa [htail] using hcount, hadmits⟩
    · rintro (⟨hcount, _⟩ | ⟨_, _, hfault⟩)
      · exact Or.inr ⟨hpushed.accepted, by simp [htail, hcount]⟩
      · subst hfault
        simp only [IoFault.Admits, hsize, hsize', hmore] at hadmits
        omega
  · constructor
    · intro hkept
      rcases hkept with hkept | hkept
      · rcases hpushed.kept_cut hbc hc hsmall hadmits hkept with ⟨j, hj, hheld, htail, hfault⟩
        have hjall : j = pending.length := by
          rw [hlen, List.length_append] at hheld
          omega
        rw [hjall, List.take_left] at hfault
        exact Or.inr ⟨htail, ⟨c', rfl⟩, by rw [hfault, hsize]⟩
      · rcases hpushed.kept_cut hbc hc hsmall hadmits hkept with ⟨j, hj, hheld, _, _⟩
        simp only [List.length_append, List.length_singleton] at hheld hj hlen
        omega
    · rintro (⟨_, hadmits'⟩ | ⟨hcount, _, rfl⟩)
      · exact absurd hadmits' hadmits
      · -- the log ends exactly with the earlier changes
        have heffect := h.flushUnder_between hr
        exact Or.inl (kept_of_log hbc heffect.openOn heffect.buffer h.accepted
          (by rw [heffect.tailOffset]; exact hcount))

/-- A failing operation loses nothing exactly if its fault is harmless. -/
theorem losesNothing_iff {bc : Bincode} (hbc : bc.Lawful) {c : Change} {small : Record}
    (hc : bc.serialize c = .ok small.bytes) (hsmall : small.bytes.length < 256)
    {s : FileChangeStore} {cs : List Change} (hholds : Holds bc s header cs) {fault : IoFault}
    {op : StoreOp} (hop : ∀ c ∈ appended [op], Encodable bc c) (hfails : Fails fault bc s op) :
    LosesNothing bc (s.stepUnder fault bc op).1 cs op ↔ Harmless fault bc s op := by
  rcases hholds.split with ⟨flushed, pending, hsplit⟩
  rw [hfails.flushed.1]
  cases op with
  | flush => exact hsplit.losesNothing_flush_iff hbc hc hsmall
  | append c' =>
      rcases hop c' (by simp [appended]) with ⟨r, hr⟩
      exact hsplit.losesNothing_append_iff hbc hc hsmall hr

/-! ## Runs with failing operations -/

/-- An operation and the fault of the device under it. -/
structure FaultyOp where
  fault : IoFault
  op : StoreOp

/-- A store and the changes it was asked to append, each with the success of its
append. -/
structure Recorded where
  store : FileChangeStore
  outcomes : List (Change × Bool)

/-- Run one operation and record its outcome. -/
def Recorded.step (bc : Bincode) (r : Recorded) (step : FaultyOp) : Recorded :=
  let result := r.store.stepUnder step.fault bc step.op
  { store := result.1
    outcomes := r.outcomes ++ (appended [step.op]).map fun c => (c, result.2.isOk) }

/-- Run operations one after the other. -/
def Recorded.run (bc : Bincode) (r : Recorded) (steps : List FaultyOp) : Recorded :=
  steps.foldl (Recorded.step bc) r

/-- The next operation of a run fails. -/
def Recorded.Fails (bc : Bincode) (r : Recorded) (step : FaultyOp) : Prop :=
  IrohSync.Fails step.fault bc r.store step.op

/-- Changes that account for the outcomes of appends: all that succeeded, and of
the others some, in order. -/
structure Accounts (outcomes : List (Change × Bool)) (held : List Change) : Prop where
  accepted : ((outcomes.filter Prod.snd).map Prod.fst).Sublist held
  attempted : held.Sublist (outcomes.map Prod.fst)

theorem Accounts.kept {outcomes : List (Change × Bool)} {held : List Change}
    (h : Accounts outcomes held) (cs : List Change) (success : Bool) :
    Accounts (outcomes ++ cs.map fun c => (c, success)) (held ++ cs) where
  accepted := by
    rw [List.filter_append, List.map_append]
    refine h.accepted.append ?_
    cases success with
    | false =>
        rw [List.filter_eq_nil_iff.mpr (by simp)]
        exact List.nil_sublist cs
    | true =>
        rw [List.filter_eq_self.mpr (by simp), List.map_map]
        simp [Function.comp_def]
  attempted := by
    rw [List.map_append, List.map_map]
    exact h.attempted.append (by simp [Function.comp_def])

theorem Accounts.dropped {outcomes : List (Change × Bool)} {held : List Change}
    (h : Accounts outcomes held) (cs : List Change) :
    Accounts (outcomes ++ cs.map fun c => (c, false)) held where
  accepted := by
    have hnone : (cs.map fun c => (c, false)).filter Prod.snd = [] :=
      List.filter_eq_nil_iff.mpr (by simp)
    rw [List.filter_append, hnone, List.append_nil]
    exact h.accepted
  attempted := by
    rw [List.map_append]
    exact h.attempted.trans (List.sublist_append_left _ _)

/-- What an operation takes up. -/
theorem Split.takenUp {bc : Bincode} {s : FileChangeStore} {cs : List Change}
    {flushed pending : List Record} (h : Split bc s cs flushed pending) {op : StoreOp}
    (hop : ∀ c ∈ appended [op], Encodable bc c) :
    ∃ pending', Split bc (op.takenUp s) (cs ++ appended [op]) flushed pending' := by
  cases op with
  | flush => exact ⟨pending, by simpa [StoreOp.takenUp, appended] using h⟩
  | append c =>
      rcases hop c (by simp [appended]) with ⟨r, hr⟩
      exact ⟨pending ++ [r], h.pushed hr⟩

/-- An operation that does not fail keeps what there was and what it took up. -/
theorem Holds.stepUnder {bc : Bincode} {s : FileChangeStore} {cs : List Change}
    (hholds : Holds bc s header cs) {fault : IoFault} {op : StoreOp}
    (hop : ∀ c ∈ appended [op], Encodable bc c) (hok : ¬ Fails fault bc s op) :
    Holds bc (s.stepUnder fault bc op).1 header (cs ++ appended [op]) := by
  rcases hholds.split with ⟨flushed, pending, hsplit⟩
  rcases hsplit.takenUp hop with ⟨pending', htaken⟩
  have hflushed : (∀ e, ((op.takenUp s).flushUnder fault bc).2 ≠ .error e) →
      Holds bc ((op.takenUp s).flushUnder fault bc).1 header (cs ++ appended [op]) := by
    intro hsuccess
    by_cases hadmits : fault.Admits (bufferedSize bc (op.takenUp s).buffer)
    · have heffect := htaken.flushUnder_whole hadmits
      exact ⟨flushed ++ pending', [], heffect.openOn, by simpa using htaken.accepted,
        heffect.buffer ▸ .nil⟩
    · rw [bufferedSize_eq htaken.buffered] at hadmits
      cases fault with
      | write reached =>
          rcases (flushUnder_of_write_lt htaken.openOn htaken.buffered
            (Nat.lt_of_not_le hadmits)).2 with ⟨e, he⟩
          exact absurd he (hsuccess e)
      | none => exact absurd trivial hadmits
      | flush => exact absurd trivial hadmits
      | sync => exact absurd trivial hadmits
  cases op with
  | flush => exact hflushed fun e he => hok ⟨e, he⟩
  | append c =>
      by_cases hle : s.flushThreshold ≤ s.buffer.length + 1
      · simp only [FileChangeStore.stepUnder, appendUnder_of_le hle]
        refine hflushed fun e he => hok ⟨e, ?_⟩
        simp only [StoreOp.takenUp] at he
        simp [FileChangeStore.stepUnder, appendUnder_of_le hle, he, Except.map]
      · simp only [FileChangeStore.stepUnder, appendUnder_of_lt (Nat.lt_of_not_le hle)]
        exact ⟨flushed, pending', htaken.openOn, htaken.accepted, htaken.buffered⟩

/-- A harmless fault leaves a well-formed log and nothing buffered. -/
theorem Split.harmless_log {bc : Bincode} {s : FileChangeStore} {cs : List Change}
    {flushed pending : List Record} (h : Split bc s cs flushed pending) {fault : IoFault}
    {op : StoreOp} (hop : ∀ c ∈ appended [op], Encodable bc c)
    (hharmless : Harmless fault bc s op) :
    ∃ rs, FlushEffect (op.takenUp s) ((op.takenUp s).flushUnder fault bc).1 (logBytes rs) := by
  rcases h.harmless_iff.mp hharmless with ⟨_, hadmits⟩ | ⟨_, ⟨c, rfl⟩, rfl⟩
  · rcases h.takenUp hop with ⟨pending', htaken⟩
    exact ⟨_, htaken.flushUnder_whole hadmits⟩
  · rcases hop c (by simp [appended]) with ⟨r, hr⟩
    exact ⟨_, h.flushUnder_between hr⟩

/-- Changes that are kept in a well-formed log without a buffer are held. -/
theorem Kept.holds {bc : Bincode} {s : FileChangeStore} {cs : List Change} (h : Kept bc s cs)
    {rs : List Record} (hopen : OpenOn s (logBytes rs)) (hbuffer : s.buffer = []) :
    Holds bc s header cs := by
  have hlog := hopen.log
  rw [← List.append_nil (logBytes rs)] at hlog
  rcases h.of_log hbuffer hlog incomplete_nil with ⟨henc, _⟩
  exact ⟨rs, [], hopen, by simpa using henc, hbuffer ▸ .nil⟩

/-- One step of a run whose faults are harmless. -/
theorem Recorded.step_holds {bc : Bincode} (hbc : bc.Lawful) {c : Change} {small : Record}
    (hc : bc.serialize c = .ok small.bytes) (hsmall : small.bytes.length < 256)
    {r : Recorded} {cs held : List Change} (hholds : Holds bc r.store header (cs ++ held))
    (haccounts : Accounts r.outcomes held) {step : FaultyOp}
    (hop : ∀ c ∈ appended [step.op], Encodable bc c)
    (hharmless : r.Fails bc step → Harmless step.fault bc r.store step.op) :
    ∃ held', Holds bc (r.step bc step).store header (cs ++ held') ∧
      Accounts (r.step bc step).outcomes held' ∧
      (r.Fails bc step → Kept bc (r.step bc step).store (cs ++ held')) := by
  by_cases hfails : r.Fails bc step
  · rcases hholds.split with ⟨flushed, pending, hsplit⟩
    rcases hsplit.harmless_log hop (hharmless hfails) with ⟨rs, heffect⟩
    rw [← hfails.flushed.1] at heffect
    have hkept := (losesNothing_iff hbc hc hsmall hholds hop hfails).mpr (hharmless hfails)
    have hresult : (r.store.stepUnder step.fault bc step.op).2.isOk = false := by
      rcases hfails with ⟨e, he⟩
      rw [he]
      rfl
    rcases step with ⟨fault, op⟩
    simp only [Recorded.step, hresult]
    cases op with
    | flush =>
        exact ⟨held, Kept.holds hkept heffect.openOn heffect.buffer, haccounts.dropped _,
          fun _ => hkept⟩
    | append c' =>
        rcases hkept with hkept | hkept
        · exact ⟨held, Kept.holds hkept heffect.openOn heffect.buffer, haccounts.dropped _,
            fun _ => hkept⟩
        · rw [List.append_assoc] at hkept
          exact ⟨held ++ [c'], Kept.holds hkept heffect.openOn heffect.buffer,
            haccounts.kept _ _, fun _ => hkept⟩
  · have hnext := hholds.stepUnder hop hfails
    rw [List.append_assoc] at hnext
    exact ⟨held ++ appended [step.op], hnext, haccounts.kept _ _, fun h => absurd h hfails⟩

/-- Every failing operation of a run has a harmless fault. -/
def FailuresHarmless (bc : Bincode) (r : Recorded) (steps : List FaultyOp) : Prop :=
  ∀ front step back, steps = front ++ step :: back → (r.run bc front).Fails bc step →
    Harmless step.fault bc (r.run bc front).store step.op

/-- A run whose failures are all harmless keeps everything. -/
theorem Recorded.run_holds {bc : Bincode} (hbc : bc.Lawful) {c : Change} {small : Record}
    (hc : bc.serialize c = .ok small.bytes) (hsmall : small.bytes.length < 256)
    {r : Recorded} {cs held : List Change} (hholds : Holds bc r.store header (cs ++ held))
    (haccounts : Accounts r.outcomes held) {steps : List FaultyOp}
    (hops : ∀ step ∈ steps, ∀ c ∈ appended [step.op], Encodable bc c)
    (hharmless : FailuresHarmless bc r steps) :
    ∃ held', Holds bc (r.run bc steps).store header (cs ++ held') ∧
      Accounts (r.run bc steps).outcomes held' := by
  induction steps using List.reverseRecOn with
  | nil => exact ⟨held, hholds, haccounts⟩
  | append_singleton front step ih =>
      rcases ih (fun s hs => hops s (List.mem_append_left _ hs))
        (fun front' s back hfront => hharmless front' s (back ++ [step]) (by simp [hfront])) with
        ⟨held', hholds', haccounts'⟩
      rcases Recorded.step_holds hbc hc hsmall hholds' haccounts' (hops step (by simp))
        (hharmless front step [] rfl) with ⟨held'', hholds'', haccounts'', _⟩
      refine ⟨held'', ?_, ?_⟩
      · simpa [Recorded.run] using hholds''
      · simpa [Recorded.run] using haccounts''

/-- A failing flush or append loses nothing exactly if its fault is harmless,
and in a run whose failures are all harmless every failing operation leaves all
that was accepted before. -/
theorem failed_flush_iff (bc : Bincode) (hbc : bc.Lawful) (c : Change) (small : Record)
    (hc : bc.serialize c = .ok small.bytes) (hsmall : small.bytes.length < 256)
    (s : FileChangeStore) (cs : List Change) (hholds : Holds bc s header cs) :
    (∀ (fault : IoFault) (op : StoreOp), (∀ c ∈ appended [op], Encodable bc c) →
      Fails fault bc s op →
      (LosesNothing bc (s.stepUnder fault bc op).1 cs op ↔ Harmless fault bc s op)) ∧
    (∀ steps : List FaultyOp, (∀ step ∈ steps, ∀ c ∈ appended [step.op], Encodable bc c) →
      FailuresHarmless bc ⟨s, []⟩ steps →
      ∀ front step back, steps = front ++ step :: back →
        Recorded.Fails bc (Recorded.run bc ⟨s, []⟩ front) step →
        ∃ held, Accounts (Recorded.run bc ⟨s, []⟩ (front ++ [step])).outcomes held ∧
          Kept bc (Recorded.run bc ⟨s, []⟩ (front ++ [step])).store (cs ++ held)) := by
  constructor
  · intro fault op hop hfails
    exact losesNothing_iff hbc hc hsmall hholds hop hfails
  · intro steps hops hharmless front step back hsteps hfails
    subst hsteps
    have hfront : FailuresHarmless bc ⟨s, []⟩ front := fun front' s' back' heq =>
      hharmless front' s' (back' ++ step :: back) (by simp [heq])
    have hstart : Holds bc (Recorded.mk s []).store header (cs ++ []) := by simpa using hholds
    rcases Recorded.run_holds hbc hc hsmall hstart ⟨by simp, by simp⟩
      (fun s' hs' => hops s' (List.mem_append_left _ hs')) hfront with
      ⟨held, hholds', haccounts⟩
    rcases Recorded.step_holds hbc hc hsmall hholds' haccounts (hops step (by simp))
      (hharmless front step back rfl) with ⟨held', _, haccounts', hkept⟩
    refine ⟨held', ?_, ?_⟩
    · simpa [Recorded.run] using haccounts'
    · simpa [Recorded.run] using hkept hfails

/-- An open store with an empty log and one buffered change. -/
def bufferingStore : FileChangeStore :=
  { storeOf [] with
    tailOffset := 1
    file := some ⟨0, 0, true⟩
    buffer := [sampleChange] }

theorem bufferingStore_split :
    Split sampleBincode bufferingStore [sampleChange] [] [sampleRecord] where
  openOn := ⟨_, rfl, rfl, rfl, rfl⟩
  accepted := .cons serialize_sampleChange .nil
  buffered := .cons serialize_sampleChange .nil

theorem bufferingStore_holds : Holds sampleBincode bufferingStore header [sampleChange] :=
  ⟨[], [sampleRecord], bufferingStore_split.openOn, bufferingStore_split.accepted,
    bufferingStore_split.buffered⟩

/-- A flush of the buffered change fails under any fault that can strike it. -/
theorem bufferingStore_fails (fault : IoFault)
    (hfault : fault = .sync ∨ fault = .write 0) :
    Fails fault sampleBincode bufferingStore .flush := by
  rcases hfault with rfl | rfl
  · have hadmits : IoFault.Admits .sync (recordBytes [sampleRecord]).length := trivial
    exact (flushUnder_of_admits bufferingStore_split.openOn bufferingStore_split.buffered
      hadmits).2.mpr ⟨List.cons_ne_nil _ _, Or.inr rfl⟩
  · exact (flushUnder_of_write_lt bufferingStore_split.openOn bufferingStore_split.buffered
      (by decide)).2

/-- The criterion and a run for a sync that fails. -/
theorem failed_flush_iff_sync :
    (LosesNothing sampleBincode (bufferingStore.stepUnder .sync sampleBincode .flush).1
        [sampleChange] .flush ↔ Harmless .sync sampleBincode bufferingStore .flush) ∧
    ∃ held, Accounts (Recorded.run sampleBincode ⟨bufferingStore, []⟩
        ([] ++ [⟨.sync, .flush⟩])).outcomes held ∧
      Kept sampleBincode (Recorded.run sampleBincode ⟨bufferingStore, []⟩
        ([] ++ [⟨.sync, .flush⟩])).store ([sampleChange] ++ held) := by
  have hfails := bufferingStore_fails .sync (Or.inl rfl)
  have hiff := failed_flush_iff sampleBincode sampleBincode_lawful sampleChange sampleRecord
    serialize_sampleChange sampleRecord_small bufferingStore [sampleChange] bufferingStore_holds
  refine ⟨hiff.1 .sync .flush (by simp [appended]) hfails,
    hiff.2 [⟨.sync, .flush⟩] (by simp [appended]) ?_ [] _ [] rfl hfails⟩
  intro front step back hsteps _
  rcases List.append_eq_cons_iff.mp hsteps.symm with ⟨rfl, hstep⟩ | ⟨front', _, hnil⟩
  · obtain ⟨rfl, _⟩ := List.cons.inj hstep
    exact ⟨[], bufferingStore_split.openOn.log, Or.inl ⟨rfl, trivial⟩⟩
  · simp at hnil

/-- When not a byte reaches the file, the buffered change is lost. -/
theorem not_losesNothing_full :
    Holds sampleBincode bufferingStore header [sampleChange] ∧
    Fails (.write 0) sampleBincode bufferingStore .flush ∧
    ¬ LosesNothing sampleBincode (bufferingStore.stepUnder (.write 0) sampleBincode .flush).1
      [sampleChange] .flush := by
  refine ⟨bufferingStore_holds, bufferingStore_fails (.write 0) (Or.inr rfl), fun hkept => ?_⟩
  have hcut : ¬ IoFault.Admits (.write 0) (bufferedSize sampleBincode bufferingStore.buffer) := by
    rw [bufferedSize_eq bufferingStore_split.buffered]
    exact Nat.not_le.mpr (by decide)
  rcases bufferingStore_split.kept_cut sampleBincode_lawful serialize_sampleChange
    sampleRecord_small hcut hkept with ⟨j, hj, hlen, _, _⟩
  simp only [List.length_singleton, List.length_nil] at hj hlen
  omega

end IrohSync
