import IrohSync.Lib.Machine
import IrohSync.Persist.FailedFlush

/-!
# What a successful flush promises

A flush takes the buffer before it looks at the file handle.  Where closing the
store has released the handle, the changes that were buffered since then are
dropped and the flush reports success; so do the flush of a clone that is dropped
and the periodic one.  A flush that fails half way has lost its changes as well,
and the next flush finds nothing to write and succeeds.

Main results:

- Theorem {lit}`Durable.next`: what operations keep that can write what they take
  out of the buffer.
- Theorem {lit}`flush_ok_durable`: in every run of such operations a flush or a
  close that returns success leaves every accepted change in the log.
-/

namespace IrohSync

open FileIo Framing Loop Machine

/-! ## Runs -/

/-- Flush what is buffered and release the file handle, under a fault of the
device. -/
def FileChangeStore.closeUnder (fault : IoFault) (bc : Bincode) (s : FileChangeStore) :
    FileChangeStore × Except Error Unit :=
  match s.flushUnder fault bc with
  | (s, .error e) => (s, .error e)
  | (s, .ok ()) => ({ s with file := none }, .ok ())

theorem close_eq_closeUnder (bc : Bincode) (s : FileChangeStore) :
    s.close bc = s.closeUnder .none bc :=
  rfl

/-- An operation on a store that several clones share.  Dropping a clone and the
periodic task flush and ignore the result. -/
inductive SharedOp where
  | append (change : Change)
  | flush
  | close
  | dropClone
  | periodicFlush

/-- An operation and the fault of the device under it. -/
structure SharedStep where
  fault : IoFault
  op : SharedOp

/-- A store and the changes whose appends returned success. -/
structure Accepting where
  store : FileChangeStore
  accepted : List Change

/-- The store after an operation, and what the operation returns if it returns
anything. -/
def SharedStep.perform (bc : Bincode) (s : FileChangeStore) (step : SharedStep) :
    FileChangeStore × Option (Except Error Unit) :=
  match step.op with
  | .append c =>
      let result := s.appendUnder step.fault bc c
      (result.1, some (result.2.map fun _ => ()))
  | .flush =>
      let result := s.flushUnder step.fault bc
      (result.1, some result.2)
  | .close =>
      let result := s.closeUnder step.fault bc
      (result.1, some result.2)
  | .dropClone => ((s.flushUnder step.fault bc).1, none)
  | .periodicFlush => ((s.flushUnder step.fault bc).1, none)

/-- The changes that an operation with this result has accepted. -/
def SharedOp.accepts : SharedOp → Option (Except Error Unit) → List Change
  | .append c, some (.ok ()) => [c]
  | _, _ => []

/-- A store under operations, in any order, also after it was closed. -/
def sharedStore (bc : Bincode) : Machine Accepting SharedStep (Option (Except Error Unit)) where
  next a step :=
    { store := (step.perform bc a.store).1
      accepted := a.accepted ++ step.op.accepts (step.perform bc a.store).2 }
  answer a step := (step.perform bc a.store).2

/-- Accepted changes are complete records of the log, in order. -/
def OnDisk (bc : Bincode) (s : FileChangeStore) (accepted : List Change) : Prop :=
  ∃ rs held, s.log = some (logBytes rs) ∧ Encodes bc accepted held ∧ held.Sublist rs

/-- A flush or a close that returns success leaves all accepted changes in the
log. -/
def OkMeansDurable (bc : Bincode) (a : Accepting) (step : SharedStep) : Prop :=
  step.op = .flush ∨ step.op = .close → (sharedStore bc).answer a step = some (.ok ()) →
    OnDisk bc ((sharedStore bc).next a step).store ((sharedStore bc).next a step).accepted

/-- An operation that takes changes out of the buffer has the file handle and
gets all their bytes to the file; the write for an append may also fail exactly
in front of the change that it appends. -/
def CanWrite (bc : Bincode) (a : Accepting) (step : SharedStep) : Prop :=
  match step.op with
  | .append c =>
      a.store.flushThreshold ≤ a.store.buffer.length + 1 → a.store.file.isSome ∧
        (step.fault.Admits (bufferedSize bc (a.store.buffer ++ [c])) ∨
          step.fault = .write (bufferedSize bc a.store.buffer))
  | _ =>
      a.store.buffer = [] ∨
        a.store.file.isSome ∧ step.fault.Admits (bufferedSize bc a.store.buffer)

/-- The changes that an operation appends. -/
def SharedOp.appends : SharedOp → List Change
  | .append c => [c]
  | _ => []

/-! ## The invariant -/

/-- The accepted changes are complete records of a well-formed log, the rest of
them is buffered, and an open handle is on that log. -/
structure Durable (bc : Bincode) (s : FileChangeStore) (accepted : List Change) : Prop where
  contents : ∃ rs held pending, s.log = some (logBytes rs) ∧
    (s.file.isSome → OpenOn s (logBytes rs)) ∧ held.Sublist rs ∧
    Encodes bc accepted (held ++ pending) ∧ Encodes bc s.buffer pending

/-- Where nothing is buffered all accepted changes are in the log. -/
theorem Durable.onDisk {bc : Bincode} {s : FileChangeStore} {accepted : List Change}
    (h : Durable bc s accepted) (hbuffer : s.buffer = []) : OnDisk bc s accepted := by
  rcases h.contents with ⟨rs, held, pending, hlog, _, hsub, henc, hpending⟩
  rw [hbuffer] at hpending
  rw [hpending.eq_nil, List.append_nil] at henc
  exact ⟨rs, held, hlog, henc, hsub⟩

/-- A freshly opened store. -/
theorem Fresh.durable {s : FileChangeStore} {rs : List Record} {t : Nat}
    {index : List IndexEntry} (h : Fresh s (logBytes rs) t index) (bc : Bincode) :
    Durable bc s [] where
  contents := ⟨rs, [], [], h.openOn.log, fun _ => h.openOn, List.nil_sublist _, .nil,
    h.buffer ▸ .nil⟩

/-- A flush empties the buffer, whatever happens. -/
theorem flushUnder_buffer (fault : IoFault) (bc : Bincode) (s : FileChangeStore) :
    (s.flushUnder fault bc).1.buffer = [] := by
  rw [flushUnder_eq_writeTaken]
  split_ifs
  · rfl
  · exact (writeTaken_frame fault bc { s with buffer := [] } s.buffer).1

/-- A flush of nothing does nothing. -/
theorem flushUnder_nil {fault : IoFault} {bc : Bincode} {s : FileChangeStore}
    (hbuffer : s.buffer = []) : s.flushUnder fault bc = (s, .ok ()) := by
  unfold FileChangeStore.flushUnder
  simp only [hbuffer, List.isEmpty_nil, if_true]
  rw [← hbuffer]

/-- A flush that can write keeps the accepted changes. -/
theorem Durable.flush {bc : Bincode} {s : FileChangeStore} {accepted : List Change}
    (h : Durable bc s accepted) {fault : IoFault}
    (hwrite : s.buffer = [] ∨ s.file.isSome ∧ fault.Admits (bufferedSize bc s.buffer)) :
    Durable bc (s.flushUnder fault bc).1 accepted := by
  rcases hwrite with hempty | ⟨hfile, hadmits⟩
  · rw [flushUnder_nil hempty]
    exact h
  · rcases h.contents with ⟨rs, held, pending, _, hopen, hsub, henc, hpending⟩
    rw [bufferedSize_eq hpending] at hadmits
    have heffect := (flushUnder_of_admits (hopen hfile) hpending hadmits).1
    rw [← logBytes_append] at heffect
    refine ⟨rs ++ pending, held ++ pending, [], heffect.openOn.log, fun _ => heffect.openOn,
      hsub.append (List.Sublist.refl _), by rwa [List.append_nil], heffect.buffer ▸ .nil⟩

/-- An append that can write keeps the accepted changes, and its own one if it
succeeds. -/
theorem Durable.append {bc : Bincode} {s : FileChangeStore} {accepted : List Change}
    (h : Durable bc s accepted) {c : Change} (hc : Encodable bc c) {fault : IoFault}
    (hwrite : s.flushThreshold ≤ s.buffer.length + 1 → s.file.isSome ∧
      (fault.Admits (bufferedSize bc (s.buffer ++ [c])) ∨
        fault = .write (bufferedSize bc s.buffer))) :
    Durable bc (s.appendUnder fault bc c).1
      (accepted ++ SharedOp.accepts (.append c)
        (some ((s.appendUnder fault bc c).2.map fun _ => ()))) := by
  rcases h.contents with ⟨rs, held, pending, hlog, hopen, hsub, henc, hpending⟩
  rcases hc with ⟨r, hr⟩
  have hpushedEnc : Encodes bc (s.pushed c).buffer (pending ++ [r]) :=
    hpending.append (.cons hr .nil)
  have hacceptedEnc : Encodes bc (accepted ++ [c]) (held ++ (pending ++ [r])) := by
    rw [← List.append_assoc]
    exact henc.append (.cons hr .nil)
  by_cases hle : s.flushThreshold ≤ s.buffer.length + 1
  · rw [appendUnder_of_le hle]
    rcases hwrite hle with ⟨hfile, hfault⟩
    have hpushedOpen : OpenOn (s.pushed c) (logBytes rs) := ⟨(hopen hfile).handle⟩
    rcases hfault with hadmits | hbetween
    · -- everything is written, the appended change too
      have hadmits' : fault.Admits (recordBytes (pending ++ [r])).length := by
        rwa [← bufferedSize_eq hpushedEnc]
      have heffect := (flushUnder_of_admits hpushedOpen hpushedEnc hadmits').1
      rw [← logBytes_append] at heffect
      cases hresult : ((s.pushed c).flushUnder fault bc).2 with
      | ok u =>
          refine ⟨rs ++ (pending ++ [r]), held ++ (pending ++ [r]), [], heffect.openOn.log,
            fun _ => heffect.openOn, hsub.append (List.Sublist.refl _), ?_,
            heffect.buffer ▸ .nil⟩
          rw [List.append_nil]
          exact hacceptedEnc
      | error e =>
          refine ⟨rs ++ (pending ++ [r]), held ++ pending, [], heffect.openOn.log,
            fun _ => heffect.openOn, hsub.append (List.sublist_append_left _ _), ?_,
            heffect.buffer ▸ .nil⟩
          simpa [Except.map, SharedOp.accepts] using henc
    · -- the write stops in front of the appended change and the append fails
      have hlt : (recordBytes pending).length < (recordBytes (pending ++ [r])).length := by
        rw [recordBytes_append, List.length_append, recordBytes_cons, List.length_append,
          frame_length]
        omega
      rw [bufferedSize_eq hpending] at hbetween
      subst hbetween
      rcases flushUnder_of_write_lt hpushedOpen hpushedEnc hlt with ⟨heffect, e, hresult⟩
      rw [recordBytes_append, List.take_left, ← logBytes_append] at heffect
      refine ⟨rs ++ pending, held ++ pending, [], heffect.openOn.log, fun _ => heffect.openOn,
        hsub.append (List.Sublist.refl _), ?_, heffect.buffer ▸ .nil⟩
      simpa [hresult, Except.map, SharedOp.accepts] using henc
  · rw [appendUnder_of_lt (Nat.lt_of_not_le hle)]
    exact ⟨rs, held, pending ++ [r], hlog, fun hfile => ⟨(hopen hfile).handle⟩, hsub,
      hacceptedEnc, hpushedEnc⟩

/-- A close that can write keeps the accepted changes and leaves nothing
buffered. -/
theorem Durable.close {bc : Bincode} {s : FileChangeStore} {accepted : List Change}
    (h : Durable bc s accepted) {fault : IoFault}
    (hwrite : s.buffer = [] ∨ s.file.isSome ∧ fault.Admits (bufferedSize bc s.buffer)) :
    Durable bc (s.closeUnder fault bc).1 accepted ∧ (s.closeUnder fault bc).1.buffer = [] := by
  have hflushed := h.flush hwrite
  have hbuffer := flushUnder_buffer fault bc s
  unfold FileChangeStore.closeUnder
  generalize s.flushUnder fault bc = result at hflushed hbuffer
  rcases result with ⟨s', e | u⟩
  · exact ⟨hflushed, hbuffer⟩
  · rcases hflushed.contents with ⟨rs, held, pending, hlog, _, hrest⟩
    exact ⟨⟨rs, held, pending, hlog, by simp, hrest⟩, hbuffer⟩

/-- Every operation that can write keeps the accepted changes, and a flush or a
close leaves nothing buffered. -/
theorem Durable.next {bc : Bincode} {a : Accepting} (h : Durable bc a.store a.accepted)
    {step : SharedStep} (hstep : ∀ c ∈ step.op.appends, Encodable bc c)
    (hwrite : CanWrite bc a step) :
    Durable bc ((sharedStore bc).next a step).store ((sharedStore bc).next a step).accepted ∧
      (step.op = .flush ∨ step.op = .close →
        ((sharedStore bc).next a step).store.buffer = []) := by
  rcases step with ⟨fault, op⟩
  cases op with
  | append c =>
      exact ⟨h.append (hstep c (List.mem_singleton_self c)) hwrite, by simp⟩
  | flush =>
      refine ⟨?_, fun _ => flushUnder_buffer fault bc a.store⟩
      simpa [sharedStore, SharedStep.perform, SharedOp.accepts] using h.flush hwrite
  | close =>
      rcases h.close hwrite with ⟨hclosed, hbuffer⟩
      refine ⟨?_, fun _ => hbuffer⟩
      simpa [sharedStore, SharedStep.perform, SharedOp.accepts] using hclosed
  | dropClone =>
      refine ⟨?_, by simp⟩
      simpa [sharedStore, SharedStep.perform, SharedOp.accepts] using h.flush hwrite
  | periodicFlush =>
      refine ⟨?_, by simp⟩
      simpa [sharedStore, SharedStep.perform, SharedOp.accepts] using h.flush hwrite

/-- In every run of appends, flushes, closes, drops of clones and periodic flushes
whose operations can write what they take out of the buffer, a flush or a close
that returns success leaves every change in the log whose append had returned
success. -/
theorem flush_ok_durable (bc : Bincode) (d : Disk) (rs : List Record) (hlog : HoldsLog d rs)
    (t : Nat) (steps : List SharedStep)
    (hsteps : ∀ step ∈ steps, ∀ c ∈ step.op.appends, Encodable bc c) :
    ∃ s, FileChangeStore.new d t = .ok s ∧
      ((sharedStore bc).Along (CanWrite bc) ⟨s, []⟩ steps →
        (sharedStore bc).Along (OkMeansDurable bc) ⟨s, []⟩ steps) := by
  rcases new_logBytes hlog t with ⟨s, hnew, hfresh⟩
  refine ⟨s, hnew, fun halong => ?_⟩
  apply Along.of_invariant (I := fun a => Durable bc a.store a.accepted)
    (P := fun a step => CanWrite bc a step ∧ ∀ c ∈ step.op.appends, Encodable bc c)
  · rintro a step h ⟨hwrite, hstep⟩
    exact (h.next hstep hwrite).1
  · rintro a step h ⟨hwrite, hstep⟩ hop _
    rcases h.next hstep hwrite with ⟨hdurable, hbuffer⟩
    exact hdurable.onDisk (hbuffer hop)
  · exact hfresh.durable bc
  · exact halong.and hsteps

/-- An append and a flush in a new directory. -/
theorem flush_ok_durable_sample :
    ∃ s, FileChangeStore.new Disk.empty 10 = .ok s ∧
      (sharedStore sampleBincode).Along (OkMeansDurable sampleBincode) ⟨s, []⟩
        [⟨.none, .append sampleChange⟩, ⟨.none, .flush⟩] := by
  have hempty : HoldsLog Disk.empty [] := Or.inr ⟨rfl, rfl⟩
  rcases new_logBytes hempty 10 with ⟨s, hnew, hfresh⟩
  rcases flush_ok_durable sampleBincode Disk.empty [] hempty 10
    [⟨.none, .append sampleChange⟩, ⟨.none, .flush⟩]
    (by
      intro step hstep c hc
      obtain rfl : c = sampleChange := by
        simp only [List.mem_cons, List.not_mem_nil, or_false] at hstep
        rcases hstep with rfl | rfl
        · exact List.mem_singleton.mp hc
        · simp [SharedOp.appends] at hc
      exact ⟨sampleRecord, serialize_sampleChange⟩) with ⟨s', hnew', hdurable⟩
  obtain rfl : s = s' := Except.ok.inj (hnew.symm.trans hnew')
  refine ⟨s, hnew, hdurable ⟨fun hle => ?_, Or.inr ⟨?_, trivial⟩, trivial⟩⟩
  · rw [hfresh.buffer, hfresh.flushThreshold] at hle
    exact absurd hle (by decide)
  · rcases hfresh.openOn.handle with ⟨f, hfile, _⟩
    have happend : s.appendUnder .none sampleBincode sampleChange =
        (s.pushed sampleChange, .ok s.tailOffset) := by
      apply appendUnder_of_lt
      rw [hfresh.buffer, hfresh.flushThreshold]
      decide
    simp [sharedStore, SharedStep.perform, happend, FileChangeStore.pushed, hfile]

/-- After a close an appended change is accepted, the next flush returns success,
and the change is nowhere. -/
theorem not_okMeansDurable_closed :
    ∃ s, FileChangeStore.new Disk.empty 10 = .ok s ∧
      ¬ (sharedStore sampleBincode).Along (OkMeansDurable sampleBincode) ⟨s, []⟩
        [⟨.none, .close⟩, ⟨.none, .append sampleChange⟩, ⟨.none, .flush⟩] := by
  have hempty : HoldsLog Disk.empty [] := Or.inr ⟨rfl, rfl⟩
  rcases new_logBytes hempty 10 with ⟨s, hnew, hfresh⟩
  refine ⟨s, hnew, ?_⟩
  rintro ⟨_, _, hflush, _⟩
  have hclose : s.closeUnder .none sampleBincode = ({ s with file := none }, .ok ()) := by
    rw [FileChangeStore.closeUnder, flushUnder_nil hfresh.buffer]
  have happend : ({ s with file := none } : FileChangeStore).appendUnder .none sampleBincode
      sampleChange = (({ s with file := none } : FileChangeStore).pushed sampleChange,
        .ok s.tailOffset) := by
    apply appendUnder_of_lt
    simp only [hfresh.buffer, hfresh.flushThreshold]
    decide
  have hdropped : (({ s with file := none } : FileChangeStore).pushed sampleChange).flushUnder
      .none sampleBincode = ({ ({ s with file := none } : FileChangeStore).pushed sampleChange
        with buffer := [] }, .ok ()) := by
    simp [FileChangeStore.flushUnder, FileChangeStore.pushed]
  have hdisk := hflush (Or.inl rfl) (by
    simp [sharedStore, SharedStep.perform, hclose, happend, hdropped])
  simp only [sharedStore, SharedStep.perform, hclose, happend, hdropped, SharedOp.accepts,
    Except.map] at hdisk
  rcases hdisk with ⟨rs, held, hlog, henc, hsub⟩
  -- the log is still the one that was found when the store was opened
  have heq : logBytes [] ++ [] = logBytes rs ++ [] := by
    simpa using Option.some.inj (hfresh.openOn.log.symm.trans hlog)
  rcases logBytes_append_inj incomplete_nil incomplete_nil heq with ⟨rfl, _⟩
  have hlength := henc.length_eq
  rw [List.eq_nil_of_sublist_nil hsub] at hlength
  simp at hlength

end IrohSync
