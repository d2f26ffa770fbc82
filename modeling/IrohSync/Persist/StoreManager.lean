import IrohSync.Lib.Watch
import IrohSync.Persist.History

/-!
# The change store manager

A manager opens a file-based store and starts any number of background tasks, each of which
flushes the store from time to time until it is told to end, by a shutdown or because the
manager was dropped.  The store is shared: the manager, every task and whoever cloned the
reference hold it, and it is dropped, which flushes it, with the last of them.  A flush by a task
and a call of the store are one step each, and no operation on a file fails.

Main results:

- Theorem {lit}`run_store`: what the manager, its tasks and the others do with the store is a
  history of the directory.
- Theorem {lit}`StoreManager.Tidy.next`: a store that nobody holds has been dropped.
- Theorem {lit}`managed_store`: in every run nothing that was appended to an open store is
  lost, and all of it is in the log once nobody holds the store.
- Theorem {lit}`managed_tasks_end`: the tasks learn that they shall end.
-/

namespace IrohSync

open FileIo Framing Machine

/-! ## The manager -/

/-- A background flush task: how much of the shutdown channel it has seen, and whether it has
ended. -/
structure StoreTask where
  seen : Nat
  ended : Bool
deriving DecidableEq, Repr

/-- A store with the shutdown channel of its manager, whose sender the manager owns, the tasks,
and how many references others hold. -/
structure StoreManager where
  store : Deployed
  shutdownTx : Watch
  tasks : List StoreTask
  holders : Nat

/-- A call of the store. -/
inductive ManagedCall where
  | append (change : Change)
  | getSince
  | flush
  | close

/-- As an event in the history of the directory. -/
def ManagedCall.event : ManagedCall → JournalEvent Change
  | .append change => .put change
  | .getSince => .read
  | .flush => .flush
  | .close => .close

/-- A call by whoever has a reference; a reference is cloned or dropped; a task is started,
flushes, or ends; a shutdown sends its signal, behind which it closes the store; or the manager
is dropped. -/
inductive ManagerStep where
  | call (call : ManagedCall)
  | share
  | release
  | startFlushTask
  | tick (i : Nat)
  | leave (i : Nat)
  | signal
  | dropManager

namespace StoreManager

/-- Create a new manager for a store. -/
def new (store : FileChangeStore) : StoreManager where
  store := .up store
  shutdownTx := Watch.new
  tasks := []
  holders := 0

/-- Create a new manager with a file-based store. -/
def newFileBased (d : Disk) : Except Error StoreManager :=
  (FileChangeStore.new d defaultFlushThreshold).map new

/-- Somebody outside the tasks has a reference to the store. -/
def reachable (s : StoreManager) : Bool :=
  s.shutdownTx.senderAlive || decide (0 < s.holders)

/-- A task runs. -/
def runs (s : StoreManager) (i : Nat) : Bool :=
  s.tasks[i]?.any fun task => !task.ended

/-- A task was told to end. -/
def told (s : StoreManager) (i : Nat) : Bool :=
  s.tasks[i]?.any fun task => s.shutdownTx.changed task.seen

/-- Somebody holds the store. -/
def held (s : StoreManager) : Bool :=
  s.reachable || s.tasks.any fun task => !task.ended

/-- The store is dropped if nobody holds it. -/
def letGo (bc : Bincode) (s : StoreManager) : StoreManager :=
  if s.held then s else { s with store := s.store.next bc .drop }

/-- What letting go does with the store. -/
def dropped (s : StoreManager) : List (JournalEvent Change) :=
  if s.held then [] else [.drop]

/-- A task ends. -/
def endTask (s : StoreManager) (i : Nat) : StoreManager :=
  { s with tasks := s.tasks.modify i fun task => { task with ended := true } }

/-- A reference of somebody else is gone. -/
def released (s : StoreManager) : StoreManager :=
  { s with holders := s.holders - 1 }

/-- The manager is gone, and with it the sender. -/
def unmanaged (s : StoreManager) : StoreManager :=
  { s with shutdownTx := s.shutdownTx.dropSender }

/-- The state after a step. -/
def next (bc : Bincode) (s : StoreManager) : ManagerStep → StoreManager
  | .call call => if s.reachable then { s with store := s.store.next bc call.event } else s
  | .share => if s.reachable then { s with holders := s.holders + 1 } else s
  | .release => if 0 < s.holders then s.released.letGo bc else s
  | .startFlushTask =>
      if s.shutdownTx.senderAlive then
        { s with tasks := s.tasks ++ [⟨s.shutdownTx.subscribe, false⟩] }
      else s
  | .tick i => if s.runs i then { s with store := s.store.next bc .flush } else s
  | .leave i => if s.runs i && s.told i then (s.endTask i).letGo bc else s
  | .signal => if s.shutdownTx.senderAlive then { s with shutdownTx := s.shutdownTx.send } else s
  | .dropManager => if s.shutdownTx.senderAlive then s.unmanaged.letGo bc else s

/-- What a step does with the store. -/
def answer (s : StoreManager) : ManagerStep → List (JournalEvent Change)
  | .call call => if s.reachable then [call.event] else []
  | .release => if 0 < s.holders then s.released.dropped else []
  | .tick i => if s.runs i then [.flush] else []
  | .leave i => if s.runs i && s.told i then (s.endTask i).dropped else []
  | .dropManager => if s.shutdownTx.senderAlive then s.unmanaged.dropped else []
  | .share => []
  | .startFlushTask => []
  | .signal => []

end StoreManager

/-- Managers of stores. -/
def managed (bc : Bincode) : Machine StoreManager ManagerStep (List (JournalEvent Change)) where
  next := StoreManager.next bc
  answer := StoreManager.answer

/-- The history of the directory during a run. -/
def storeHistory (bc : Bincode) (s : StoreManager) (steps : List ManagerStep) :
    List (JournalEvent Change) :=
  ((managed bc).answers s steps).flatten

variable {bc : Bincode} {s : StoreManager}

/-! ## The store -/

theorem letGo_store (bc : Bincode) (s : StoreManager) :
    (s.letGo bc).store = (deployed bc).run s.store s.dropped := by
  rw [StoreManager.letGo, StoreManager.dropped]
  split <;> rfl

/-- A step does with the store what its answer says. -/
theorem next_store (bc : Bincode) (s : StoreManager) (step : ManagerStep) :
    (s.next bc step).store = (deployed bc).run s.store (s.answer step) := by
  cases step with
  | call call =>
      rw [StoreManager.next, StoreManager.answer]
      split <;> rfl
  | share =>
      rw [StoreManager.next]
      split <;> rfl
  | release =>
      rw [StoreManager.next, StoreManager.answer]
      split
      · exact letGo_store bc s.released
      · rfl
  | startFlushTask =>
      rw [StoreManager.next]
      split <;> rfl
  | tick i =>
      rw [StoreManager.next, StoreManager.answer]
      split <;> rfl
  | leave i =>
      rw [StoreManager.next, StoreManager.answer]
      split
      · exact letGo_store bc (s.endTask i)
      · rfl
  | signal =>
      rw [StoreManager.next]
      split <;> rfl
  | dropManager =>
      rw [StoreManager.next, StoreManager.answer]
      split
      · exact letGo_store bc s.unmanaged
      · rfl

theorem run_store (bc : Bincode) (s : StoreManager) (steps : List ManagerStep) :
    ((managed bc).run s steps).store = (deployed bc).run s.store (storeHistory bc s steps) := by
  induction steps generalizing s with
  | nil => rfl
  | cons step steps ih =>
      have hhistory : storeHistory bc s (step :: steps) =
          s.answer step ++ storeHistory bc (s.next bc step) steps := rfl
      rw [hhistory, run_append, ← next_store]
      exact ih (s.next bc step)

/-! ## Who holds the store -/

/-- A store that nobody holds has been dropped. -/
def StoreManager.Tidy (s : StoreManager) : Prop :=
  s.held = false → ∃ d, s.store = .down d

theorem StoreManager.tidy_new (store : FileChangeStore) : (new store).Tidy :=
  fun hheld => absurd hheld (by simp [held, reachable, new, Watch.new])

theorem StoreManager.tidy_letGo (bc : Bincode) (s : StoreManager) : (s.letGo bc).Tidy := by
  intro hheld
  by_cases hstill : s.held = true
  · rw [letGo, if_pos hstill] at hheld
    exact absurd (hheld.symm.trans hstill) Bool.false_ne_true
  · rw [letGo, if_neg hstill]
    cases s.store with
    | up store => exact ⟨_, rfl⟩
    | down d => exact ⟨d, rfl⟩

/-- Somebody who can do something holds the store. -/
theorem StoreManager.held_of_reachable (h : s.reachable = true) : s.held = true := by
  simp [held, h]

theorem StoreManager.held_of_runs {i : Nat} (h : s.runs i = true) : s.held = true := by
  rw [runs, Option.any_eq_true] at h
  rcases h with ⟨task, htask, hruns⟩
  have hany : (s.tasks.any fun task => !task.ended) = true :=
    List.any_eq_true.mpr ⟨task, List.mem_of_getElem? htask, hruns⟩
  rw [held, hany, Bool.or_true]

theorem StoreManager.Tidy.next (h : s.Tidy) (step : ManagerStep) : (s.next bc step).Tidy := by
  cases step with
  | call call =>
      rw [StoreManager.next]
      split
      · next hreachable =>
          intro hheld
          have hstill : s.held = true := held_of_reachable hreachable
          exact absurd (hheld.symm.trans hstill) Bool.false_ne_true
      · exact h
  | share =>
      rw [StoreManager.next]
      split
      · next hreachable =>
          intro hheld
          simp [held, reachable] at hheld
      · exact h
  | release =>
      rw [StoreManager.next]
      split
      · exact tidy_letGo bc s.released
      · exact h
  | startFlushTask =>
      rw [StoreManager.next]
      split
      · next halive =>
          intro hheld
          simp [held, reachable, halive] at hheld
      · exact h
  | tick i =>
      rw [StoreManager.next]
      split
      · next hruns =>
          intro hheld
          have hstill : s.held = true := held_of_runs hruns
          exact absurd (hheld.symm.trans hstill) Bool.false_ne_true
      · exact h
  | leave i =>
      rw [StoreManager.next]
      split
      · exact tidy_letGo bc (s.endTask i)
      · exact h
  | signal =>
      rw [StoreManager.next]
      split
      · next halive =>
          intro hheld
          simp [held, reachable, Watch.send, halive] at hheld
      · exact h
  | dropManager =>
      rw [StoreManager.next]
      split
      · exact tidy_letGo bc s.unmanaged
      · exact h

theorem StoreManager.Tidy.run (h : s.Tidy) (bc : Bincode) (steps : List ManagerStep) :
    ((managed bc).run s steps).Tidy :=
  run_invariant (I := StoreManager.Tidy) (fun _ step h _ => h.next step) h (along_trivial s steps)

/-! ## What is in the store -/

/-- The change that a step appends. -/
def ManagerStep.appended : ManagerStep → List Change
  | .call (.append change) => [change]
  | _ => []

/-- What is appended can be encoded. -/
def ManagerStep.Encodable (bc : Bincode) (step : ManagerStep) : Prop :=
  ∀ change ∈ step.appended, IrohSync.Encodable bc change

/-- Nothing is appended to a store that was closed. -/
def AppendsOpen (s : StoreManager) (step : ManagerStep) : Prop :=
  ∀ store, step.appended ≠ [] → s.store = .up store → store.file.isSome = true

/-- No step crashes the store, and what it puts into it is what it appends. -/
theorem event_of_answer {step : ManagerStep} {event : JournalEvent Change}
    (hevent : event ∈ s.answer step) :
    event.isCrash = false ∧ (∀ threshold, event ≠ .open threshold) ∧
      ∀ change, event = .put change → step.appended = [change] := by
  have hdropped : ∀ t : StoreManager, event ∈ t.dropped → event = .drop := fun t ht => by
    rw [StoreManager.dropped] at ht
    split at ht
    · simp at ht
    · simpa using ht
  cases step with
  | call call =>
      rw [StoreManager.answer] at hevent
      split at hevent
      · rw [List.mem_singleton.mp hevent]
        cases call <;> simp [ManagedCall.event, JournalEvent.isCrash, ManagerStep.appended]
      · simp at hevent
  | release =>
      rw [StoreManager.answer] at hevent
      split at hevent
      · simp [hdropped _ hevent, JournalEvent.isCrash]
      · simp at hevent
  | tick i =>
      rw [StoreManager.answer] at hevent
      split at hevent
      · simp [List.mem_singleton.mp hevent, JournalEvent.isCrash]
      · simp at hevent
  | leave i =>
      rw [StoreManager.answer] at hevent
      split at hevent
      · simp [hdropped _ hevent, JournalEvent.isCrash]
      · simp at hevent
  | dropManager =>
      rw [StoreManager.answer] at hevent
      split at hevent
      · simp [hdropped _ hevent, JournalEvent.isCrash]
      · simp at hevent
  | share => simp [StoreManager.answer] at hevent
  | startFlushTask => simp [StoreManager.answer] at hevent
  | signal => simp [StoreManager.answer] at hevent

/-- A step is at most one event of the history. -/
theorem length_answer (s : StoreManager) (step : ManagerStep) : (s.answer step).length ≤ 1 := by
  have hdropped : ∀ t : StoreManager, t.dropped.length ≤ 1 := fun t => by
    rw [StoreManager.dropped]
    split <;> simp
  cases step <;> rw [StoreManager.answer]
  case call => split <;> simp
  case release => split <;> simp [hdropped]
  case tick => split <;> simp
  case leave => split <;> simp [hdropped]
  case dropManager => split <;> simp [hdropped]
  all_goals simp

/-- Careful steps are a careful history, without a crash. -/
theorem storeHistory_spec (bc : Bincode) (limit : Nat) {s : StoreManager}
    {steps : List ManagerStep} (hencodable : ∀ step ∈ steps, step.Encodable bc)
    (hopen : (managed bc).Along AppendsOpen s steps) :
    (∀ event ∈ storeHistory bc s steps, EncodableEvent bc event) ∧
      (deployed bc).Along (Careful limit) s.store (storeHistory bc s steps) ∧
      (storeHistory bc s steps).countP JournalEvent.isCrash = 0 := by
  induction steps generalizing s with
  | nil => exact ⟨fun _ hevent => absurd hevent List.not_mem_nil, trivial, rfl⟩
  | cons step steps ih =>
      have hhistory : storeHistory bc s (step :: steps) =
          s.answer step ++ storeHistory bc (s.next bc step) steps := rfl
      rcases ih (fun t ht => hencodable t (List.mem_cons_of_mem _ ht)) hopen.2 with
        ⟨hevents, hcareful, hcrash⟩
      rw [hhistory]
      refine ⟨fun event hevent => ?_, (along_append _ _ _).mpr ⟨?_, ?_⟩, ?_⟩
      · rcases List.mem_append.mp hevent with hfirst | hrest
        · rcases event_of_answer hfirst with ⟨_, _, hput⟩
          cases event with
          | put change =>
              refine hencodable step List.mem_cons_self change ?_
              rw [hput change rfl]
              exact List.mem_singleton_self _
          | _ => trivial
        · exact hevents event hrest
      · -- the history of one step is at most one event
        have hone : ∀ event ∈ s.answer step, Careful limit s.store event := by
          intro event hevent
          rcases event_of_answer hevent with ⟨_, hnew, hput⟩
          have hstep : AppendsOpen s step := hopen.1
          cases event with
          | put change =>
              cases hstore : s.store with
              | up store =>
                  refine hstep store ?_ hstore
                  rw [hput change rfl]
                  exact List.cons_ne_nil _ _
              | down d => trivial
          | «open» threshold => exact absurd rfl (hnew threshold)
          | _ => cases s.store <;> trivial
        have hlength := length_answer s step
        generalize s.answer step = events at hone hlength
        match events, hlength with
        | [], _ => trivial
        | [event], _ => exact ⟨hone event List.mem_cons_self, trivial⟩
      · rw [← next_store]
        exact hcareful
      · have hrest : (storeHistory bc (s.next bc step) steps).countP JournalEvent.isCrash = 0 :=
          hcrash
        rw [List.countP_append, hrest, Nat.add_zero, List.countP_eq_zero]
        intro event hevent
        rw [(event_of_answer hevent).1]
        exact Bool.false_ne_true

/-- What holds of a managed store: while somebody holds it, everything that was found in the
directory or appended since is in the log, which can be read, or in the buffer, which is short
of the threshold; once nobody does, all of it is in the log, and any store that is opened on the
directory reads it. -/
structure NothingLost (bc : Bincode) (all : List Change) (s : StoreManager) : Prop where
  inUse : ∀ store, s.store = .up store → ∃ durable, store.getSince bc 0 = .ok durable ∧
    durable ++ store.buffer = all ∧ store.buffer.length < defaultFlushThreshold
  afterwards : s.held = false → ∃ d, s.store = .down d ∧ ∀ threshold, ∃ store,
    FileChangeStore.new d threshold = .ok store ∧ store.getSince bc 0 = .ok all

/-- In every run of a manager on a well-formed log, with any tasks that tick and end at any
time, shutdowns, references that are cloned and dropped, and the drop of the manager: as long
as nothing is appended to a closed store, nothing is lost. -/
theorem managed_store (bc : Bincode) (hbc : bc.Lawful) {d : Disk} {before : List Change}
    {rs : List Record} (hlog : HoldsLog d rs) (henc : Encodes bc before rs) (s : StoreManager)
    (hs : StoreManager.newFileBased d = .ok s) (steps : List ManagerStep)
    (hencodable : ∀ step ∈ steps, step.Encodable bc)
    (hopen : (managed bc).Along AppendsOpen s steps) :
    NothingLost bc (before ++ appendedDuring bc s.store (storeHistory bc s steps))
      ((managed bc).run s steps) := by
  rcases (Follows.down hlog henc).new defaultFlushThreshold with ⟨store, hnew, hfresh⟩
  obtain rfl : s = .new store := by
    rw [StoreManager.newFileBased, hnew] at hs
    exact (Except.ok.inj hs).symm
  rcases storeHistory_spec bc defaultFlushThreshold hencodable hopen with
    ⟨hevents, hcareful, hcrash⟩
  rcases hfresh.along hbc hevents hcareful with ⟨hbounded, htaken⟩
  have hslack : Journal.Slack defaultFlushThreshold
      ⟨before, some ⟨defaultFlushThreshold, true, []⟩⟩ := by
    rintro b hb
    obtain rfl := Option.some.inj hb
    exact ⟨Nat.le_refl _, Nat.zero_le _, fun hclosed => absurd hclosed (by simp)⟩
  have hcontents := Journal.contents_run hslack hbounded hcrash
  have hlast := Journal.slack_run hslack hbounded
  have hbefore : Journal.contents (⟨before, some ⟨defaultFlushThreshold, true, []⟩⟩ :
      Journal Change) = before := List.append_nil before
  rw [← htaken, hbefore] at hcontents
  have hrun : Follows bc ((managed bc).run (.new store) steps).store
      ((Journal.observed Journal.answer).run ⟨before, some ⟨defaultFlushThreshold, true, []⟩⟩
        (storeHistory bc (.new store) steps)) := by
    rw [run_store]
    exact (hfresh.run hbc hevents).1
  have htidy := (StoreManager.tidy_new store).run bc steps
  generalize (Journal.observed Journal.answer).run ⟨before, some ⟨defaultFlushThreshold, true, []⟩⟩
    (storeHistory bc (.new store) steps) = j at hrun hcontents hlast
  rcases j with ⟨durable, _ | b⟩
  · -- the store was dropped
    rw [Journal.contents, Option.map_none, Option.getD_none, List.append_nil] at hcontents
    refine ⟨fun last hlast => ?_, fun _ => ?_⟩
    · rcases hrun.exists_down with ⟨d', hd'⟩
      rw [hd'] at hlast
      contradiction
    · rcases hrun.exists_down with ⟨d', hd'⟩
      refine ⟨d', hd', fun threshold => ?_⟩
      rw [hd'] at hrun
      rcases hrun.new threshold with ⟨again, hagain, hopened⟩
      exact ⟨again, hagain, hcontents ▸ hopened.getSince hbc⟩
  · refine ⟨fun last hlast' => ?_, fun hheld => ?_⟩
    · rw [hlast'] at hrun
      have hbuffer : last.buffer = b.pending := by
        cases hrun with
        | up threshold buffer => exact buffer
      rcases hlast b rfl with ⟨hlimit, hpending, _⟩
      refine ⟨durable, hrun.getSince hbc, ?_, ?_⟩
      · rw [hbuffer]
        exact hcontents
      · rw [hbuffer]
        simp only [defaultFlushThreshold] at hlimit ⊢
        omega
    · rcases hrun.exists_up with ⟨last, hup⟩
      rcases htidy hheld with ⟨d', hdown⟩
      rw [hup] at hdown
      contradiction

/-- A change that a task flushes, and one that the drop of the store flushes. -/
def sampleSteps : List ManagerStep :=
  [.startFlushTask, .call (.append sampleChange), .tick 0, .call (.append sampleChange),
    .dropManager, .leave 0]

theorem managed_store_sample :
    ∃ s, StoreManager.newFileBased Disk.empty = .ok s ∧
      NothingLost sampleBincode
        ([] ++ appendedDuring sampleBincode s.store (storeHistory sampleBincode s sampleSteps))
        ((managed sampleBincode).run s sampleSteps) := by
  refine ⟨_, rfl, managed_store sampleBincode sampleBincode_lawful
    (show HoldsLog Disk.empty [] from Or.inr ⟨rfl, rfl⟩) .nil _ rfl sampleSteps ?_ ?_⟩
  · intro step hstep change hchange
    simp only [sampleSteps, List.mem_cons, List.not_mem_nil, or_false] at hstep
    obtain rfl : change = sampleChange := by
      rcases hstep with rfl | rfl | rfl | rfl | rfl | rfl
      all_goals
        first
          | exact List.mem_singleton.mp hchange
          | exact absurd hchange List.not_mem_nil
    exact ⟨sampleRecord, serialize_sampleChange⟩
  · refine ⟨?_, ?_, ?_, ?_, ?_, ?_, trivial⟩
    all_goals
      rintro store happends hstore
      first
        | exact absurd rfl happends
        | cases hstore
          rfl

/-! ## The tasks -/

/-- A task has not seen more than was sent, and stays where it is. -/
structure StoreManager.Later (s s' : StoreManager) : Prop where
  shutdownTx : s.shutdownTx.Later s'.shutdownTx
  tasks : ∀ (i : Nat) (task : StoreTask), s.tasks[i]? = some task →
    ∃ task', s'.tasks[i]? = some task' ∧ task'.seen = task.seen ∧
      (task.ended = true → task'.ended = true)

namespace StoreManager

variable {s' s'' : StoreManager}

theorem later_of_same (hshutdown : s.shutdownTx.Later s'.shutdownTx) (htasks : s'.tasks = s.tasks) :
    s.Later s' :=
  ⟨hshutdown, fun _ task htask => ⟨task, htasks ▸ htask, rfl, id⟩⟩

theorem later_refl (s : StoreManager) : s.Later s :=
  later_of_same s.shutdownTx.later_refl rfl

theorem Later.trans (h : s.Later s') (h' : s'.Later s'') : s.Later s'' := by
  refine ⟨h.shutdownTx.trans h'.shutdownTx, fun i task htask => ?_⟩
  rcases h.tasks i task htask with ⟨task', htask', hseen, hended⟩
  rcases h'.tasks i task' htask' with ⟨task'', htask'', hseen', hended'⟩
  exact ⟨task'', htask'', hseen'.trans hseen, hended' ∘ hended⟩

theorem later_letGo (bc : Bincode) (s : StoreManager) : s.Later (s.letGo bc) := by
  rw [letGo]
  split
  · exact later_refl s
  · exact later_of_same s.shutdownTx.later_refl rfl

theorem later_endTask (s : StoreManager) (i : Nat) : s.Later (s.endTask i) := by
  refine ⟨s.shutdownTx.later_refl, fun j task htask => ?_⟩
  rw [endTask, List.getElem?_modify, htask]
  by_cases hij : i = j
  · exact ⟨{ task with ended := true }, by simp [hij], rfl, fun _ => rfl⟩
  · exact ⟨task, by simp [hij], rfl, id⟩

theorem later_next (bc : Bincode) (s : StoreManager) (step : ManagerStep) :
    s.Later (s.next bc step) := by
  cases step with
  | call call =>
      rw [next]
      split
      · exact later_of_same s.shutdownTx.later_refl rfl
      · exact later_refl s
  | share =>
      rw [next]
      split
      · exact later_of_same s.shutdownTx.later_refl rfl
      · exact later_refl s
  | release =>
      rw [next]
      split
      · have hreleased : s.Later s.released := later_of_same s.shutdownTx.later_refl rfl
        exact hreleased.trans (later_letGo bc s.released)
      · exact later_refl s
  | startFlushTask =>
      rw [next]
      split
      · refine ⟨s.shutdownTx.later_refl, fun i task htask => ⟨task, ?_, rfl, id⟩⟩
        exact (List.getElem?_append_left (List.getElem?_eq_some_iff.mp htask).1).trans htask
      · exact later_refl s
  | tick i =>
      rw [next]
      split
      · exact later_of_same s.shutdownTx.later_refl rfl
      · exact later_refl s
  | leave i =>
      rw [next]
      split
      · exact (later_endTask s i).trans (later_letGo bc _)
      · exact later_refl s
  | signal =>
      rw [next]
      split
      · exact later_of_same s.shutdownTx.later_send rfl
      · exact later_refl s
  | dropManager =>
      rw [next]
      split
      · have hunmanaged : s.Later s.unmanaged :=
          later_of_same s.shutdownTx.later_dropSender rfl
        exact hunmanaged.trans (later_letGo bc s.unmanaged)
      · exact later_refl s

theorem later_run (bc : Bincode) (s : StoreManager) (steps : List ManagerStep) :
    s.Later ((managed bc).run s steps) := by
  induction steps generalizing s with
  | nil => exact later_refl s
  | cons step steps ih => exact (later_next bc s step).trans (ih (s.next bc step))

/-- What a task was told it was told later. -/
theorem Later.told (h : s.Later s') {i : Nat} (htold : s.told i = true) : s'.told i = true := by
  rw [StoreManager.told, Option.any_eq_true] at htold ⊢
  rcases htold with ⟨task, htask, hchanged⟩
  rcases h.tasks i task htask with ⟨task', htask', hseen, _⟩
  exact ⟨task', htask', hseen ▸ h.shutdownTx.changed hchanged⟩

/-- No task has seen more than was sent. -/
def SeenSent (s : StoreManager) : Prop :=
  ∀ task ∈ s.tasks, task.seen ≤ s.shutdownTx.version

theorem seenSent_letGo (bc : Bincode) (h : s.SeenSent) : (s.letGo bc).SeenSent := by
  rw [letGo]
  split <;> exact h

theorem SeenSent.next (h : s.SeenSent) (step : ManagerStep) : (s.next bc step).SeenSent := by
  cases step with
  | call call =>
      rw [StoreManager.next]
      split <;> exact h
  | share =>
      rw [StoreManager.next]
      split <;> exact h
  | release =>
      rw [StoreManager.next]
      split
      · exact seenSent_letGo bc h
      · exact h
  | startFlushTask =>
      rw [StoreManager.next]
      split
      · intro task htask
        rcases List.mem_append.mp htask with hold | hnew
        · exact h task hold
        · rw [List.mem_singleton.mp hnew]
          exact Nat.le_refl _
      · exact h
  | tick i =>
      rw [StoreManager.next]
      split <;> exact h
  | leave i =>
      rw [StoreManager.next]
      split
      · refine seenSent_letGo bc fun task htask => ?_
        rw [endTask] at htask
        rcases List.mem_iff_getElem?.mp htask with ⟨j, hj⟩
        rw [List.getElem?_modify] at hj
        cases hold : s.tasks[j]? with
        | none => simp [hold] at hj
        | some old =>
            have hle := h old (List.mem_of_getElem? hold)
            by_cases hij : i = j
            · obtain rfl : { old with ended := true } = task := by simpa [hold, hij] using hj
              exact hle
            · obtain rfl : old = task := by simpa [hold, hij] using hj
              exact hle
      · exact h
  | signal =>
      rw [StoreManager.next]
      split
      · exact fun task htask => (h task htask).trans (Nat.le_succ _)
      · exact h
  | dropManager =>
      rw [StoreManager.next]
      split
      · exact seenSent_letGo bc h
      · exact h

/-- After a leave a task that was told to end has ended. -/
theorem ended_leave (bc : Bincode) (hdead : s.shutdownTx.senderAlive = false) {i : Nat}
    {task : StoreTask} (htask : s.tasks[i]? = some task) :
    ∃ task', (s.next bc (.leave i)).tasks[i]? = some task' ∧ task'.ended = true := by
  cases hended : task.ended with
  | true =>
      have hstays : s.next bc (.leave i) = s := by
        rw [next]
        exact if_neg (by simp [runs, htask, hended])
      rw [hstays]
      exact ⟨task, htask, hended⟩
  | false =>
      have hleaves : s.next bc (.leave i) = (s.endTask i).letGo bc := by
        rw [next]
        exact if_pos (by simp [runs, told, htask, hended, Watch.changed, hdead])
      have htasks : ((s.endTask i).letGo bc).tasks = (s.endTask i).tasks := by
        rw [letGo]
        split <;> rfl
      refine ⟨{ task with ended := true }, ?_, rfl⟩
      rw [hleaves, htasks, endTask]
      simp [htask]

theorem holders_leave (bc : Bincode) (s : StoreManager) (i : Nat) :
    (s.next bc (.leave i)).holders = s.holders ∧
      (s.next bc (.leave i)).tasks.length = s.tasks.length := by
  rw [next]
  split
  · rw [letGo]
    split <;> exact ⟨rfl, List.length_modify _ _ _⟩
  · exact ⟨rfl, rfl⟩

/-- Tasks without a manager leave one after the other. -/
theorem ended_leaves (bc : Bincode) (is : List Nat) (hdead : s.shutdownTx.senderAlive = false) :
    ((managed bc).run s (is.map .leave)).holders = s.holders ∧
      ((managed bc).run s (is.map .leave)).tasks.length = s.tasks.length ∧
      ((managed bc).run s (is.map .leave)).shutdownTx.senderAlive = false ∧
      ∀ i ∈ is, i < s.tasks.length →
        ∃ task, ((managed bc).run s (is.map .leave)).tasks[i]? = some task ∧
          task.ended = true := by
  induction is generalizing s with
  | nil => exact ⟨rfl, rfl, hdead, fun i hi => absurd hi List.not_mem_nil⟩
  | cons j is ih =>
      have hstep := holders_leave bc s j
      have hdead' : (s.next bc (.leave j)).shutdownTx.senderAlive = false := by
        by_contra halive
        have hbefore := (later_next bc s (.leave j)).shutdownTx.senderAlive
          (Bool.eq_true_of_not_eq_false halive)
        simp [hdead] at hbefore
      rcases ih hdead' with ⟨hholders, hlength, hlast, hended⟩
      refine ⟨hholders.trans hstep.1, hlength.trans hstep.2, hlast, fun i hi hlt => ?_⟩
      rcases List.mem_cons.mp hi with rfl | hi
      · rcases ended_leave bc hdead (List.getElem?_eq_getElem hlt) with
          ⟨task, htask, hnow⟩
        rcases (later_run bc (s.next bc (.leave i)) (is.map .leave)).tasks i task htask with
          ⟨task', htask', _, hthen⟩
        exact ⟨task', htask', hthen hnow⟩
      · exact hended i hi (hstep.2.symm ▸ hlt)

end StoreManager

/-- What holds of the tasks of a manager in one state, and whatever happens later: what was told
to end remains so; the signal of a shutdown and the drop of the manager tell every task there
is; a task that is started later has not been told; and without the manager and without other
references all tasks can end, with which the store is dropped. -/
structure ManagedTasksEnd (bc : Bincode) (s : StoreManager) (later : List ManagerStep) : Prop where
  stays : ∀ i, s.told i = true → ((managed bc).run s later).told i = true
  signalled : s.shutdownTx.senderAlive = true → ∀ i, i < s.tasks.length →
    ((managed bc).run s (.signal :: later)).told i = true
  dropped : s.shutdownTx.senderAlive = true → ∀ i, i < s.tasks.length →
    ((managed bc).run s (.dropManager :: later)).told i = true
  fresh : s.shutdownTx.senderAlive = true →
    (s.next bc .startFlushTask).runs s.tasks.length = true ∧
      (s.next bc .startFlushTask).told s.tasks.length = false
  settles : s.shutdownTx.senderAlive = false → s.holders = 0 →
    ∃ is : List Nat, ((managed bc).run s (is.map .leave)).held = false ∧
      ∃ d, ((managed bc).run s (is.map .leave)).store = .down d

/-- In every run of a manager. -/
theorem managed_tasks_end (bc : Bincode) (store : FileChangeStore)
    (before later : List ManagerStep) :
    ManagedTasksEnd bc ((managed bc).run (.new store) before) later := by
  have hseen : ((managed bc).run (.new store) before).SeenSent :=
    run_invariant (I := StoreManager.SeenSent) (fun _ step h _ => h.next step)
      (fun task htask => absurd htask List.not_mem_nil) (along_trivial _ before)
  have htidy := (StoreManager.tidy_new store).run bc before
  generalize (managed bc).run (.new store) before = s at hseen htidy
  refine ⟨fun i => (s.later_run bc later).told, fun halive i hi => ?_, fun halive i hi => ?_,
    fun halive => ?_, fun hdead hholders => ?_⟩
  · have hsignal : s.next bc .signal = { s with shutdownTx := s.shutdownTx.send } := if_pos halive
    have htold : (s.next bc .signal).told i = true := by
      have hle := hseen _ (List.getElem_mem hi)
      rw [hsignal, StoreManager.told, List.getElem?_eq_getElem hi]
      exact Watch.changed_send hle
    exact ((s.next bc .signal).later_run bc later).told htold
  · have hdrop : s.next bc .dropManager = s.unmanaged.letGo bc := if_pos halive
    have htold : s.unmanaged.told i = true := by
      rw [StoreManager.told, StoreManager.unmanaged, List.getElem?_eq_getElem hi]
      exact Watch.changed_dropSender _ _
    have hnow : (s.next bc .dropManager).told i = true :=
      hdrop ▸ (StoreManager.later_letGo bc s.unmanaged).told htold
    exact ((s.next bc .dropManager).later_run bc later).told hnow
  · have hstart : s.next bc .startFlushTask =
        { s with tasks := s.tasks ++ [⟨s.shutdownTx.subscribe, false⟩] } := if_pos halive
    have hchanged := Watch.changed_subscribe halive
    rw [hstart]
    exact ⟨by simp [StoreManager.runs], by simp [StoreManager.told, hchanged]⟩
  · refine ⟨List.range s.tasks.length, ?_⟩
    rcases StoreManager.ended_leaves bc (List.range s.tasks.length) hdead with
      ⟨hholders', hlength, hdead', hended⟩
    have hany : (((managed bc).run s ((List.range s.tasks.length).map .leave)).tasks.any
        fun task => !task.ended) = false := by
      rw [List.any_eq_false]
      intro task htask
      rcases List.mem_iff_getElem?.mp htask with ⟨i, hi⟩
      have hlt := (List.getElem?_eq_some_iff.mp hi).1
      rw [hlength] at hlt
      rcases hended i (List.mem_range.mpr hlt) hlt with ⟨task', htask', hend⟩
      obtain rfl := Option.some.inj (hi.symm.trans htask')
      simp [hend]
    have hheld : ((managed bc).run s ((List.range s.tasks.length).map .leave)).held = false := by
      rw [StoreManager.held, StoreManager.reachable, hdead', hholders', hholders, hany]
      rfl
    exact ⟨hheld, htidy.run bc _ hheld⟩

end IrohSync
