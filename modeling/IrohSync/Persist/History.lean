import IrohSync.Lib.Journal
import IrohSync.Persist.Session

/-!
# Histories of a store

A directory over any number of processes: a store is opened on it, used, and closed, dropped or
lost in a crash between two calls, and a store is opened again.  Dropping a store flushes it.
No operation on a file fails.  Whether calls succeed, what reads from offset 0 return and what
the directory holds is that of a journal.

Main results:

- Theorem {lit}`store_follows_journal`: in every history all calls succeed, and every read from
  offset 0 returns the durable changes of the journal.
- Theorem {lit}`crashes_lose_little`: what is read after a history in which nothing is appended
  to a closed store; crashes alone lose changes, and each fewer than the flush threshold.
-/

namespace IrohSync

open FileIo Framing Machine

/-- A directory, or a store that is open on it. -/
inductive Deployed where
  | down (disk : Disk)
  | up (store : FileChangeStore)

/-- The directory. -/
def Deployed.disk : Deployed → Disk
  | .down d => d
  | .up s => s.disk

/-- What becomes of an open store. -/
def FileChangeStore.next (bc : Bincode) (s : FileChangeStore) : JournalEvent Change → Deployed
  | .open _ => .up s
  | .put change => .up (s.append bc change).1
  | .flush => .up (s.flush bc).1
  | .read => .up s
  | .close => .up (s.close bc).1
  | .drop => .down (s.flush bc).1.disk
  | .crash => .down s.disk

/-- What the calls on an open store return; the changes only of a read, and not the offset of an
appended change. -/
def FileChangeStore.answer (bc : Bincode) (s : FileChangeStore) :
    JournalEvent Change → Except Error (List Change)
  | .open _ => .ok []
  | .put change => (s.append bc change).2.map fun _ => []
  | .flush => (s.flush bc).2.map fun _ => []
  | .read => s.getSince bc 0
  | .close => (s.close bc).2.map fun _ => []
  | .drop => .ok []
  | .crash => .ok []

/-- The state after an event.  An open that fails has recovered the directory. -/
def Deployed.next (bc : Bincode) : Deployed → JournalEvent Change → Deployed
  | .up s, event => s.next bc event
  | .down d, .open flushThreshold =>
      match FileChangeStore.new d flushThreshold with
      | .ok s => .up s
      | .error _ => .down ((recoverTempFiles d).openAppend logName).1
  | .down d, _ => .down d

/-- What is returned by an event. -/
def Deployed.answer (bc : Bincode) : Deployed → JournalEvent Change → Except Error (List Change)
  | .up s, event => s.answer bc event
  | .down d, .open flushThreshold => (FileChangeStore.new d flushThreshold).map fun _ => []
  | .down _, _ => .ok []

/-- A directory and the stores that are opened on it. -/
def deployed (bc : Bincode) :
    Machine Deployed (JournalEvent Change) (Except Error (List Change)) where
  next := Deployed.next bc
  answer := Deployed.answer bc

/-- The journal that a directory is to be. -/
def changeJournal :
    Machine (Journal Change) (JournalEvent Change) (Except Error (List Change)) where
  next := Journal.next
  answer := fun j event => .ok (j.answer event)

/-- A directory and a journal hold the same changes.  In the log there are the records of the
durable ones; a store that was closed has no file any more. -/
inductive Follows (bc : Bincode) : Deployed → Journal Change → Prop
  | down {d : Disk} {durable : List Change} {rs : List Record} (log : HoldsLog d rs)
      (encodes : Encodes bc durable rs) : Follows bc (.down d) ⟨durable, none⟩
  | up {s : FileChangeStore} {durable : List Change} {b : JournalBuffer Change}
      {rs pending : List Record} (threshold : s.flushThreshold = b.threshold)
      (buffer : s.buffer = b.pending) (encodes : Encodes bc durable rs)
      (pends : Encodes bc b.pending pending) (log : s.log = some (logBytes rs))
      (writable : b.writable = true → OpenOn s (logBytes rs))
      (closed : b.writable = false → s.file = none) : Follows bc (.up s) ⟨durable, some b⟩

variable {bc : Bincode} {s : FileChangeStore} {durable : List Change} {b : JournalBuffer Change}

/-- No store is open where the journal is not. -/
theorem Follows.exists_down {deployment : Deployed}
    (h : Follows bc deployment ⟨durable, none⟩) : ∃ d, deployment = .down d := by
  cases h
  exact ⟨_, rfl⟩

/-- A store is open where the journal is. -/
theorem Follows.exists_up {deployment : Deployed}
    (h : Follows bc deployment ⟨durable, some b⟩) : ∃ s, deployment = .up s := by
  cases h
  exact ⟨_, rfl⟩

/-! ## Steps -/

/-- A flush succeeds, with the buffer in the log behind it unless the store was closed. -/
theorem Follows.flush (h : Follows bc (.up s) ⟨durable, some b⟩) :
    ∃ s', s.flush bc = (s', .ok ()) ∧
      Follows bc (.up s') ⟨b.settled durable, some b.emptied⟩ := by
  cases h with
  | @up _ _ _ rs pending threshold buffer encodes pends log writable closed =>
      cases hwritable : b.writable with
      | true =>
          rw [← buffer] at pends
          rcases flush_spec (writable hwritable) pends with ⟨s', hflush, heffect⟩
          refine ⟨s', hflush, ?_⟩
          have hopen : OpenOn s' (logBytes (rs ++ pending)) := by
            rw [logBytes_append]
            exact heffect.openOn
          have hsettled : b.settled durable = durable ++ s.buffer := by
            rw [JournalBuffer.settled, if_pos hwritable, buffer]
          rw [hsettled]
          exact .up (heffect.flushThreshold.trans threshold) heffect.buffer (encodes.append pends)
            .nil hopen.log (fun _ => hopen) (fun hclosed => nomatch hwritable.symm.trans hclosed)
      | false =>
          have hfile := closed hwritable
          have hflush : s.flush bc = ({ s with buffer := [] }, .ok ()) := by
            simp [FileChangeStore.flush, FileChangeStore.flushUnder, hfile]
          refine ⟨_, hflush, ?_⟩
          have hsettled : b.settled durable = durable := by
            rw [JournalBuffer.settled, hwritable, if_neg Bool.false_ne_true]
          rw [hsettled]
          exact .up threshold rfl encodes .nil log
            (fun hopen => nomatch hopen.symm.trans hwritable) closed

/-- A change goes to the buffer. -/
theorem Follows.pushed (h : Follows bc (.up s) ⟨durable, some b⟩) {change : Change}
    (hchange : Encodable bc change) :
    Follows bc (.up (s.pushed change)) ⟨durable, some (b.with change)⟩ := by
  cases h with
  | up threshold buffer encodes pends log writable closed =>
      rcases hchange with ⟨r, hr⟩
      exact .up threshold (congrArg (· ++ [change]) buffer) encodes
        (Encodes.append pends (.cons hr .nil)) log
        (fun hopen => ⟨(writable hopen).handle⟩) closed

/-- An append succeeds and flushes a full buffer. -/
theorem Follows.append (h : Follows bc (.up s) ⟨durable, some b⟩) {change : Change}
    (hchange : Encodable bc change) :
    ∃ s', s.append bc change = (s', .ok s.tailOffset) ∧
      Follows bc (.up s') (Journal.nextOpen durable b (.put change)) := by
  have hpushed := h.pushed hchange
  have hfull : (b.with change).Full ↔ s.flushThreshold ≤ s.buffer.length + 1 := by
    cases h with
    | up threshold buffer =>
        rw [JournalBuffer.Full, JournalBuffer.pending_with, List.length_append, threshold, buffer]
        exact Iff.rfl
  by_cases hle : s.flushThreshold ≤ s.buffer.length + 1
  · rcases hpushed.flush with ⟨s', hflush, hfollows⟩
    refine ⟨s', ?_, ?_⟩
    · rw [FileChangeStore.append, appendUnder_of_le hle]
      rw [FileChangeStore.flush] at hflush
      simp [hflush, Except.map]
    · rw [Journal.nextOpen, if_pos (hfull.mpr hle)]
      exact hfollows
  · refine ⟨s.pushed change, appendUnder_of_lt (Nat.lt_of_not_le hle), ?_⟩
    rw [Journal.nextOpen, if_neg (mt hfull.mp hle)]
    exact hpushed

/-- Closing flushes and gives up the file. -/
theorem Follows.close (h : Follows bc (.up s) ⟨durable, some b⟩) :
    ∃ s', s.close bc = (s', .ok ()) ∧
      Follows bc (.up s') (Journal.nextOpen durable b .close) := by
  rcases h.flush with ⟨s', hflush, hfollows⟩
  refine ⟨{ s' with file := none }, by simp [FileChangeStore.close, hflush], ?_⟩
  cases hfollows with
  | up threshold buffer encodes pends log writable closed =>
      exact .up threshold buffer encodes pends log (fun hopen => nomatch hopen) (fun _ => rfl)

/-- The directory of an open store. -/
theorem Follows.disk (h : Follows bc (.up s) ⟨durable, some b⟩) :
    Follows bc (.down s.disk) ⟨durable, none⟩ := by
  cases h with
  | up threshold buffer encodes pends log =>
      refine .down (Or.inl ?_) encodes
      rw [FileChangeStore.log] at log
      rw [foundLog, log, Option.getD_some]

/-- A read from offset 0 returns the durable changes. -/
theorem Follows.getSince (hbc : bc.Lawful) (h : Follows bc (.up s) ⟨durable, some b⟩) :
    s.getSince bc 0 = .ok durable := by
  cases h with
  | up threshold buffer encodes pends log => exact getSince_zero_logBytes hbc encodes log

/-- A store is opened on the durable changes. -/
theorem Follows.new {d : Disk} (h : Follows bc (.down d) ⟨durable, none⟩) (flushThreshold : Nat) :
    ∃ s, FileChangeStore.new d flushThreshold = .ok s ∧
      Follows bc (.up s) ⟨durable, some ⟨flushThreshold, true, []⟩⟩ := by
  cases h with
  | down log encodes =>
      rcases new_logBytes log flushThreshold with ⟨s, hnew, hfresh⟩
      exact ⟨s, hnew, .up hfresh.flushThreshold hfresh.buffer encodes .nil hfresh.openOn.log
        (fun _ => hfresh.openOn) (fun hclosed => nomatch hclosed)⟩

/-- A change that is put can be encoded. -/
def EncodableEvent (bc : Bincode) : JournalEvent Change → Prop
  | .put change => Encodable bc change
  | _ => True

/-- One event: the call succeeds, and returns what the journal does. -/
theorem Follows.next (hbc : bc.Lawful) {deployment : Deployed} {j : Journal Change}
    (h : Follows bc deployment j) {event : JournalEvent Change} (hevent : EncodableEvent bc event) :
    Follows bc (deployment.next bc event) (j.next event) ∧
      deployment.answer bc event = .ok (j.answer event) := by
  rcases j with ⟨durable, _ | b⟩
  · rcases h.exists_down with ⟨d, rfl⟩
    cases event with
    | «open» flushThreshold =>
        rcases h.new flushThreshold with ⟨s, hnew, hfollows⟩
        simp only [Deployed.next, Deployed.answer, hnew]
        exact ⟨hfollows, rfl⟩
    | _ => exact ⟨h, rfl⟩
  · rcases h.exists_up with ⟨s, rfl⟩
    simp only [Deployed.next, Deployed.answer, Journal.next]
    cases event with
    | «open» flushThreshold => exact ⟨h, rfl⟩
    | put change =>
        rcases h.append hevent with ⟨s', happend, hfollows⟩
        rw [FileChangeStore.next, FileChangeStore.answer, happend]
        exact ⟨hfollows, rfl⟩
    | flush =>
        rcases h.flush with ⟨s', hflush, hfollows⟩
        rw [FileChangeStore.next, FileChangeStore.answer, hflush]
        exact ⟨hfollows, rfl⟩
    | read => exact ⟨h, h.getSince hbc⟩
    | close =>
        rcases h.close with ⟨s', hclose, hfollows⟩
        rw [FileChangeStore.next, FileChangeStore.answer, hclose]
        exact ⟨hfollows, rfl⟩
    | drop =>
        rcases h.flush with ⟨s', hflush, hfollows⟩
        rw [FileChangeStore.next, hflush]
        exact ⟨hfollows.disk, rfl⟩
    | crash => exact ⟨h.disk, rfl⟩

/-! ## Histories -/

/-- A history: all calls succeed and return what the journal does. -/
theorem Follows.run (hbc : bc.Lawful) {deployment : Deployed} {j : Journal Change}
    (h : Follows bc deployment j) {events : List (JournalEvent Change)}
    (hevents : ∀ event ∈ events, EncodableEvent bc event) :
    Follows bc ((deployed bc).run deployment events) (changeJournal.run j events) ∧
      (deployed bc).answers deployment events = changeJournal.answers j events := by
  induction events generalizing deployment j with
  | nil => exact ⟨h, rfl⟩
  | cons event events ih =>
      rcases h.next hbc (hevents event List.mem_cons_self) with ⟨hfollows, hanswer⟩
      rcases ih hfollows fun e he => hevents e (List.mem_cons_of_mem _ he) with ⟨hrun, hanswers⟩
      refine ⟨hrun, ?_⟩
      rw [answers_cons, answers_cons]
      exact congrArg₂ _ hanswer hanswers

/-- In every history over a directory with a well-formed log, or with none, all calls succeed;
what reads return and what the directory holds at the end is what a journal of the changes says
that begins with those in the log. -/
theorem store_follows_journal (bc : Bincode) (hbc : bc.Lawful) {d : Disk} {before : List Change}
    {rs : List Record} (hlog : HoldsLog d rs) (henc : Encodes bc before rs)
    (events : List (JournalEvent Change)) (hevents : ∀ event ∈ events, EncodableEvent bc event) :
    (deployed bc).answers (.down d) events = changeJournal.answers ⟨before, none⟩ events ∧
      Follows bc ((deployed bc).run (.down d) events) (changeJournal.run ⟨before, none⟩ events) :=
  And.symm ((Follows.down hlog henc).run hbc hevents)

/-- What a crash leaves of two changes at a threshold of two, and what is appended behind it. -/
theorem store_follows_journal_sample :
    (deployed sampleBincode).answers (.down Disk.empty)
        [.open 3, .put sampleChange, .flush, .put sampleChange, .crash, .open 3, .read] =
      changeJournal.answers ⟨[], none⟩
        [.open 3, .put sampleChange, .flush, .put sampleChange, .crash, .open 3, .read] ∧
      Follows sampleBincode ((deployed sampleBincode).run (.down Disk.empty)
          [.open 3, .put sampleChange, .flush, .put sampleChange, .crash, .open 3, .read])
        (changeJournal.run ⟨[], none⟩
          [.open 3, .put sampleChange, .flush, .put sampleChange, .crash, .open 3, .read]) := by
  have hlog : HoldsLog Disk.empty [] := Or.inr ⟨rfl, rfl⟩
  refine store_follows_journal sampleBincode sampleBincode_lawful hlog .nil _ ?_
  intro event hevent
  simp only [List.mem_cons, List.not_mem_nil, or_false] at hevent
  rcases hevent with rfl | rfl | rfl | rfl | rfl | rfl | rfl
  · trivial
  · exact ⟨sampleRecord, serialize_sampleChange⟩
  · trivial
  · exact ⟨sampleRecord, serialize_sampleChange⟩
  · trivial
  · trivial
  · trivial

/-! ## What a crash loses -/

/-- The change that an event appends to an open store. -/
def Deployed.appended : Deployed → JournalEvent Change → List Change
  | .up _, .put change => [change]
  | _, _ => []

/-- The changes that a history appends. -/
def appendedDuring (bc : Bincode) (deployment : Deployed) (events : List (JournalEvent Change)) :
    List Change :=
  (Machine.answers ⟨Deployed.next bc, Deployed.appended⟩ deployment events).flatten

/-- Dropping a store appends nothing. -/
theorem appendedDuring_drop (bc : Bincode) (deployment : Deployed)
    (events : List (JournalEvent Change)) :
    appendedDuring bc deployment (events ++ [.drop]) = appendedDuring bc deployment events := by
  have hnone : ∀ last : Deployed, last.appended .drop = [] := by
    intro last
    cases last <;> rfl
  rw [appendedDuring, answers_append, List.flatten_append, answers_cons, answers_nil]
  simp only [hnone, List.flatten_cons, List.flatten_nil, List.append_nil]
  rfl

/-- Nothing is appended to a store that was closed, and the flush threshold is bounded. -/
def Careful (limit : Nat) : Deployed → JournalEvent Change → Prop
  | .up s, .put _ => s.file.isSome
  | _, .open flushThreshold => flushThreshold ≤ limit
  | _, _ => True

theorem Follows.bounded {deployment : Deployed} {j : Journal Change}
    (h : Follows bc deployment j) {limit : Nat} {event : JournalEvent Change}
    (hcareful : Careful limit deployment event) : Journal.Bounded limit j event := by
  cases event with
  | «open» flushThreshold => cases deployment <;> exact hcareful
  | put change =>
      rintro b hb
      cases h with
      | down => contradiction
      | up threshold buffer encodes pends log writable closed =>
          obtain rfl := Option.some.inj hb
          by_contra hclosed
          have hfile := closed (Bool.eq_false_of_not_eq_true hclosed)
          simp [Careful, hfile] at hcareful
  | _ => trivial

theorem Follows.appended {deployment : Deployed} {j : Journal Change}
    (h : Follows bc deployment j) (event : JournalEvent Change) :
    deployment.appended event = j.taken event := by
  cases h <;> cases event <;> rfl

/-- The journal takes up what is appended, and is used with the same care. -/
theorem Follows.along (hbc : bc.Lawful) {limit : Nat} {deployment : Deployed}
    {j : Journal Change} (h : Follows bc deployment j) {events : List (JournalEvent Change)}
    (hevents : ∀ event ∈ events, EncodableEvent bc event)
    (hcareful : (deployed bc).Along (Careful limit) deployment events) :
    (Journal.observed Journal.answer).Along (Journal.Bounded limit) j events ∧
      appendedDuring bc deployment events =
        ((Journal.observed Journal.taken).answers j events).flatten := by
  induction events generalizing deployment j with
  | nil => exact ⟨trivial, rfl⟩
  | cons event events ih =>
      have hnext := (h.next hbc (hevents event List.mem_cons_self)).1
      rcases ih hnext (fun e he => hevents e (List.mem_cons_of_mem _ he)) hcareful.2 with
        ⟨hbounded, hsame⟩
      refine ⟨⟨h.bounded hcareful.1, hbounded⟩, ?_⟩
      exact congrArg₂ (· ++ ·) (h.appended event) hsame

/-- A store is opened after a history in which nothing was appended to a closed store.  It reads
what the first store found, and behind that changes that were appended, in order; what is
missing are fewer changes than the flush threshold for each crash between two calls. -/
theorem crashes_lose_little (bc : Bincode) (hbc : bc.Lawful) {d : Disk} {before : List Change}
    {rs : List Record} (hlog : HoldsLog d rs) (henc : Encodes bc before rs)
    (events : List (JournalEvent Change)) (hevents : ∀ event ∈ events, EncodableEvent bc event)
    (limit : Nat) (hcareful : (deployed bc).Along (Careful limit) (.down d) events)
    (flushThreshold : Nat) :
    ∃ d' s found, (deployed bc).run (.down d) (events ++ [.drop]) = .down d' ∧
      FileChangeStore.new d' flushThreshold = .ok s ∧ s.getSince bc 0 = .ok found ∧
      before <+: found ∧ found.Sublist (before ++ appendedDuring bc (.down d) events) ∧
      before.length + (appendedDuring bc (.down d) events).length ≤
        found.length + events.countP JournalEvent.isCrash * (limit - 1) := by
  have hfollows : Follows bc (.down d) ⟨before, none⟩ := .down hlog henc
  have hdropped : ∀ event ∈ events ++ [.drop], EncodableEvent bc event := by
    intro event hevent
    rcases List.mem_append.mp hevent with hold | hnew
    · exact hevents event hold
    · rw [List.mem_singleton.mp hnew]
      trivial
  have hcareful' : (deployed bc).Along (Careful limit) (.down d) (events ++ [.drop]) := by
    refine (along_append _ _ _).mpr ⟨hcareful, ?_, trivial⟩
    cases (deployed bc).run (.down d) events <;> trivial
  rcases hfollows.along hbc hdropped hcareful' with ⟨hbounded, htaken⟩
  rw [appendedDuring_drop] at htaken
  obtain ⟨found, hfound⟩ : ∃ found,
      (Journal.observed Journal.answer).run ⟨before, none⟩ (events ++ [.drop]) =
        ⟨found, none⟩ := by
    refine ⟨((Journal.observed Journal.answer).run ⟨before, none⟩ (events ++ [.drop])).durable, ?_⟩
    rw [run_append]
    exact congrArg (Journal.mk _) (Journal.buffer_next_drop _)
  have hdurable := Journal.durable_prefix_run ⟨before, none⟩ (events ++ [.drop])
  rcases Journal.run_contents ⟨before, none⟩ (events ++ [.drop]) with ⟨hsub, hperm⟩
  have hlost := Journal.length_lost_le (by rintro _ ⟨⟩) hbounded
  have hcount := hperm.length_eq
  rw [hfound, ← htaken] at hsub hcount
  rw [hfound] at hdurable
  simp only [Journal.contents, Option.map_none, Option.getD_none, List.append_nil,
    List.length_append] at hsub hcount
  rw [List.countP_append] at hlost
  -- the directory at the end is that of the journal, and a store is opened on it
  have hrun : Follows bc ((deployed bc).run (.down d) (events ++ [.drop])) ⟨found, none⟩ := by
    rw [← hfound]
    exact (hfollows.run hbc hdropped).1
  rcases hrun.exists_down with ⟨d', hd'⟩
  rw [hd'] at hrun
  rcases hrun.new flushThreshold with ⟨s, hnew, hopened⟩
  refine ⟨d', s, found, hd', hnew, hopened.getSince hbc, hdurable, hsub, ?_⟩
  have hnone : List.countP JournalEvent.isCrash [JournalEvent.drop (α := Change)] = 0 := rfl
  rw [hnone, Nat.add_zero] at hlost
  omega

/-- A change that was flushed, and one that a crash loses. -/
theorem crashes_lose_little_sample :
    ∃ d' s found, (deployed sampleBincode).run (.down Disk.empty)
        ([.open 3, .put sampleChange, .flush, .put sampleChange, .crash] ++ [.drop]) = .down d' ∧
      FileChangeStore.new d' 3 = .ok s ∧ s.getSince sampleBincode 0 = .ok found ∧
      [] <+: found ∧
      found.Sublist ([] ++ appendedDuring sampleBincode (.down Disk.empty)
        [.open 3, .put sampleChange, .flush, .put sampleChange, .crash]) ∧
      0 + (appendedDuring sampleBincode (.down Disk.empty)
        [.open 3, .put sampleChange, .flush, .put sampleChange, .crash]).length ≤
          found.length + 1 * (3 - 1) := by
  have hlog : HoldsLog Disk.empty [] := Or.inr ⟨rfl, rfl⟩
  refine crashes_lose_little sampleBincode sampleBincode_lawful hlog .nil _ ?_ 3 ?_ 3
  · intro event hevent
    simp only [List.mem_cons, List.not_mem_nil, or_false] at hevent
    rcases hevent with rfl | rfl | rfl | rfl | rfl
    · trivial
    · exact ⟨sampleRecord, serialize_sampleChange⟩
    · trivial
    · exact ⟨sampleRecord, serialize_sampleChange⟩
    · trivial
  · exact ⟨Nat.le_refl 3, rfl, trivial, rfl, trivial, trivial⟩

end IrohSync
