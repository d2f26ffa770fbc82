import Mathlib.Data.List.Perm.Basic
import IrohSync.Lib.Machine

/-!
# A journal with a buffer

Entries go to a buffer first and become durable when it is flushed: on request, when it has
reached its threshold, or when the journal is closed or dropped.  A crash forgets the buffer.
A journal may be opened again any number of times, and one that was closed may still be used,
though what it takes up then is never written.

Main results:

- Theorem {lit}`run_contents`: what a run takes up is either in the journal, in order, or was
  lost by one of its steps.
- Theorem {lit}`durable_prefix_run`: what is durable stays durable.
- Theorem {lit}`length_lost_le`: as long as nothing is put into a closed journal, only crashes
  lose entries, and each of them fewer than the threshold; {lit}`contents_run`: without a
  crash nothing is lost.
-/

/-- The buffer of an open journal. -/
structure JournalBuffer (α : Type) where
  threshold : Nat
  writable : Bool
  pending : List α

/-- The durable entries, and the buffer while the journal is open. -/
structure Journal (α : Type) where
  durable : List α
  buffer : Option (JournalBuffer α)

/-- What may happen to a journal. -/
inductive JournalEvent (α : Type) where
  | open (threshold : Nat)
  | put (entry : α)
  | flush
  | read
  | close
  | drop
  | crash

/-- An event is a crash. -/
def JournalEvent.isCrash {α : Type} : JournalEvent α → Bool
  | .crash => true
  | _ => false

variable {α : Type}

/-! ## Steps -/

/-- The durable entries after a flush; a closed journal writes nothing. -/
def JournalBuffer.settled (b : JournalBuffer α) (durable : List α) : List α :=
  if b.writable then durable ++ b.pending else durable

/-- The entries that a flush loses. -/
def JournalBuffer.dropped (b : JournalBuffer α) : List α :=
  if b.writable then [] else b.pending

/-- The buffer after a flush. -/
def JournalBuffer.emptied (b : JournalBuffer α) : JournalBuffer α :=
  { b with pending := [] }

/-- The buffer with one entry more. -/
def JournalBuffer.with (b : JournalBuffer α) (entry : α) : JournalBuffer α :=
  { b with pending := b.pending ++ [entry] }

@[simp]
theorem JournalBuffer.pending_emptied (b : JournalBuffer α) : b.emptied.pending = [] :=
  rfl

@[simp]
theorem JournalBuffer.pending_with (b : JournalBuffer α) (entry : α) :
    (b.with entry).pending = b.pending ++ [entry] :=
  rfl

@[simp]
theorem JournalBuffer.writable_with (b : JournalBuffer α) (entry : α) :
    (b.with entry).writable = b.writable :=
  rfl

/-- The buffer has reached its threshold. -/
def JournalBuffer.Full (b : JournalBuffer α) : Prop :=
  b.threshold ≤ b.pending.length

instance (b : JournalBuffer α) : Decidable b.Full :=
  inferInstanceAs (Decidable (_ ≤ _))

namespace Journal

open scoped List

/-- The state of an open journal after an event. -/
def nextOpen (durable : List α) (b : JournalBuffer α) : JournalEvent α → Journal α
  | .open _ => ⟨durable, some b⟩
  | .put entry =>
      if (b.with entry).Full then
        ⟨(b.with entry).settled durable, some (b.with entry).emptied⟩
      else ⟨durable, some (b.with entry)⟩
  | .flush => ⟨b.settled durable, some b.emptied⟩
  | .read => ⟨durable, some b⟩
  | .close => ⟨b.settled durable, some { b.emptied with writable := false }⟩
  | .drop => ⟨b.settled durable, none⟩
  | .crash => ⟨durable, none⟩

/-- The state after an event; a journal that is not open can only be opened. -/
def next (j : Journal α) (event : JournalEvent α) : Journal α :=
  match j.buffer with
  | some b => nextOpen j.durable b event
  | none =>
      match event with
      | .open threshold => ⟨j.durable, some ⟨threshold, true, []⟩⟩
      | _ => j

/-- What is returned by an event: the durable entries if it reads them. -/
def answer (j : Journal α) : JournalEvent α → List α
  | .read => if j.buffer.isSome then j.durable else []
  | _ => []

/-- What an event brings to an open journal. -/
def taken (j : Journal α) : JournalEvent α → List α
  | .put entry => if j.buffer.isSome then [entry] else []
  | _ => []

/-- The entries that an event loses. -/
def lost (j : Journal α) (event : JournalEvent α) : List α :=
  match j.buffer, event with
  | none, _ => []
  | some _, .open _ => []
  | some b, .put entry => if (b.with entry).Full then (b.with entry).dropped else []
  | some b, .flush => b.dropped
  | some _, .read => []
  | some b, .close => b.dropped
  | some b, .drop => b.dropped
  | some b, .crash => b.pending

/-- A journal and what is observed of its steps. -/
def observed (f : Journal α → JournalEvent α → List α) :
    Machine (Journal α) (JournalEvent α) (List α) where
  next := next
  answer := f

/-- Everything in the journal, the durable entries first. -/
def contents (j : Journal α) : List α :=
  j.durable ++ (j.buffer.map JournalBuffer.pending).getD []

variable {j : Journal α}

/-- A journal that was dropped is not open. -/
theorem buffer_next_drop (j : Journal α) : (j.next .drop).buffer = none := by
  rcases j with ⟨durable, _ | b⟩ <;> rfl

/-! ## Conservation -/

theorem settled_dropped (b : JournalBuffer α) (durable : List α) :
    b.settled durable <+ durable ++ b.pending ∧
      (b.settled durable ++ b.dropped).Perm (durable ++ b.pending) := by
  unfold JournalBuffer.settled JournalBuffer.dropped
  split
  · exact ⟨List.Sublist.refl _, by rw [List.append_nil]⟩
  · exact ⟨List.sublist_append_left _ _, List.Perm.refl _⟩

/-- One step: what was there or is taken up is there or lost. -/
theorem next_contents (j : Journal α) (event : JournalEvent α) :
    (j.next event).contents <+ j.contents ++ j.taken event ∧
      ((j.next event).contents ++ j.lost event).Perm (j.contents ++ j.taken event) := by
  rcases j with ⟨durable, _ | b⟩
  · cases event <;> simp [next, contents, taken, lost]
  · have hsettled := settled_dropped b durable
    cases event with
    | «open» threshold => simp [next, nextOpen, contents, taken, lost]
    | put entry =>
        have hput := settled_dropped (b.with entry) durable
        by_cases hfull : (b.with entry).Full
        · simpa [next, nextOpen, contents, taken, lost, hfull] using hput
        · simp [next, nextOpen, contents, taken, lost, hfull]
    | flush => simpa [next, nextOpen, contents, taken, lost] using hsettled
    | read => simp [next, nextOpen, contents, taken, lost]
    | close => simpa [next, nextOpen, contents, taken, lost] using hsettled
    | drop => simpa [next, nextOpen, contents, taken, lost] using hsettled
    | crash => simp [next, nextOpen, contents, taken, lost]

/-- After a run everything that was taken up is in the journal, in order, or was lost. -/
theorem run_contents (j : Journal α) (events : List (JournalEvent α)) :
    ((observed answer).run j events).contents <+
        j.contents ++ ((observed taken).answers j events).flatten ∧
      (((observed answer).run j events).contents ++
        ((observed lost).answers j events).flatten).Perm
          (j.contents ++ ((observed taken).answers j events).flatten) := by
  induction events generalizing j with
  | nil => simp
  | cons event events ih =>
      rcases next_contents j event with ⟨hsub, hperm⟩
      rcases ih (j.next event) with ⟨hsubs, hperms⟩
      simp only [Machine.run_cons, Machine.answers_cons, List.flatten_cons, ← List.append_assoc]
      refine ⟨hsubs.trans (hsub.append_right _), ?_⟩
      calc ((observed answer).run (j.next event) events).contents ++ j.lost event ++
            ((observed lost).answers (j.next event) events).flatten
          ~ ((observed answer).run (j.next event) events).contents ++
              ((observed lost).answers (j.next event) events).flatten ++ j.lost event := by
            rw [List.append_assoc, List.append_assoc]
            exact List.perm_append_comm.append_left _
        _ ~ (j.next event).contents ++ ((observed taken).answers (j.next event) events).flatten ++
              j.lost event := hperms.append_right _
        _ ~ (j.next event).contents ++ j.lost event ++
              ((observed taken).answers (j.next event) events).flatten := by
            rw [List.append_assoc, List.append_assoc]
            exact List.perm_append_comm.append_left _
        _ ~ j.contents ++ j.taken event ++
              ((observed taken).answers (j.next event) events).flatten := hperm.append_right _

/-- What is durable stays durable. -/
theorem durable_prefix_next (j : Journal α) (event : JournalEvent α) :
    j.durable <+: (j.next event).durable := by
  have hsettled : ∀ (b : JournalBuffer α) (durable : List α), durable <+: b.settled durable := by
    intro b durable
    unfold JournalBuffer.settled
    split
    · exact List.prefix_append _ _
    · exact List.prefix_refl _
  rcases j with ⟨durable, _ | b⟩
  · cases event <;> exact List.prefix_refl _
  · cases event with
    | put entry =>
        simp only [next, nextOpen]
        split
        · exact hsettled _ _
        · exact List.prefix_refl _
    | flush => exact hsettled b durable
    | close => exact hsettled b durable
    | drop => exact hsettled b durable
    | _ => exact List.prefix_refl _

theorem durable_prefix_run (j : Journal α) (events : List (JournalEvent α)) :
    j.durable <+: ((observed answer).run j events).durable :=
  Machine.run_invariant (P := fun _ _ => True) (I := fun j' => j.durable <+: j'.durable)
    (fun j' event h _ => h.trans (durable_prefix_next j' event)) (List.prefix_refl _)
    (Machine.along_trivial j events)

/-! ## What is lost -/

/-- Nothing is put into a closed journal, and thresholds are bounded. -/
def Bounded (limit : Nat) (j : Journal α) : JournalEvent α → Prop
  | .put _ => ∀ b, j.buffer = some b → b.writable = true
  | .open threshold => threshold ≤ limit
  | _ => True

/-- Less than a threshold is pending, and nothing if the journal is closed. -/
def Slack (limit : Nat) (j : Journal α) : Prop :=
  ∀ b, j.buffer = some b → b.threshold ≤ limit ∧ b.pending.length ≤ b.threshold - 1 ∧
    (b.writable = false → b.pending = [])

theorem slack_next {limit : Nat} {event : JournalEvent α} (h : Slack limit j)
    (hbounded : Bounded limit j event) : Slack limit (j.next event) := by
  rcases j with ⟨durable, _ | b⟩
  · cases event with
    | «open» threshold =>
        rintro _ ⟨⟩
        exact ⟨hbounded, Nat.zero_le _, fun hclosed => (nomatch hclosed)⟩
    | _ => exact h
  · rcases h b rfl with ⟨hlimit, hpending, hclosed⟩
    cases event with
    | «open» threshold => exact h
    | put entry =>
        have hwritable : (b.with entry).writable = true := hbounded b rfl
        simp only [next, nextOpen]
        split
        · rintro _ ⟨⟩
          exact ⟨hlimit, Nat.zero_le _, fun _ => rfl⟩
        · next hroom =>
            rintro _ ⟨⟩
            refine ⟨hlimit, ?_, fun hnot => ?_⟩
            · simp only [JournalBuffer.Full, JournalBuffer.with] at hroom ⊢
              omega
            · rw [hwritable] at hnot
              contradiction
    | flush =>
        rintro _ ⟨⟩
        exact ⟨hlimit, Nat.zero_le _, fun _ => rfl⟩
    | read => exact h
    | close =>
        rintro _ ⟨⟩
        exact ⟨hlimit, Nat.zero_le _, fun _ => rfl⟩
    | drop => exact fun _ hnone => (nomatch hnone)
    | crash => exact fun _ hnone => (nomatch hnone)

/-- One step loses nothing, or less than a threshold in a crash. -/
theorem length_lost_step {limit : Nat} {event : JournalEvent α} (h : Slack limit j)
    (hbounded : Bounded limit j event) :
    (j.lost event).length ≤ if event.isCrash then limit - 1 else 0 := by
  rcases j with ⟨durable, _ | b⟩
  · simp [lost]
  · rcases h b rfl with ⟨hlimit, hpending, hclosed⟩
    have hdropped : b.dropped = [] := by
      cases hwritable : b.writable with
      | true => simp [JournalBuffer.dropped, hwritable]
      | false => simp [JournalBuffer.dropped, hclosed hwritable]
    cases event with
    | «open» threshold => simp [lost]
    | put entry =>
        have hwritable : b.writable = true := hbounded b rfl
        simp [lost, JournalBuffer.dropped, show b.writable = true from hwritable]
    | flush => simp [lost, hdropped]
    | read => simp [lost]
    | close => simp [lost, hdropped]
    | drop => simp [lost, hdropped]
    | crash =>
        simp only [lost, JournalEvent.isCrash, if_true]
        omega

/-- A run loses less than a threshold for each crash. -/
theorem length_lost_le {limit : Nat} (h : Slack limit j) {events : List (JournalEvent α)}
    (hbounded : (observed answer).Along (Bounded limit) j events) :
    ((observed lost).answers j events).flatten.length ≤
      events.countP JournalEvent.isCrash * (limit - 1) := by
  induction events generalizing j with
  | nil => simp
  | cons event events ih =>
      have hstep := length_lost_step h hbounded.1
      have hrest := ih (slack_next h hbounded.1) hbounded.2
      rw [Machine.answers_cons, List.flatten_cons, List.length_append, List.countP_cons,
        Nat.add_mul]
      have hfirst : (if event.isCrash then limit - 1 else 0) =
          (if event.isCrash then 1 else 0) * (limit - 1) := by
        split <;> simp
      rw [hfirst] at hstep
      rw [Nat.add_comm (_ * (limit - 1))]
      exact Nat.add_le_add hstep hrest

theorem slack_run {limit : Nat} (h : Slack limit j) {events : List (JournalEvent α)}
    (hbounded : (observed answer).Along (Bounded limit) j events) :
    Slack limit ((observed answer).run j events) :=
  Machine.run_invariant (I := Slack limit) (fun _ _ h hbounded => slack_next h hbounded) h hbounded

/-- Without a crash everything that is taken up is there, in order. -/
theorem contents_run {limit : Nat} (h : Slack limit j) {events : List (JournalEvent α)}
    (hbounded : (observed answer).Along (Bounded limit) j events)
    (hcrash : events.countP JournalEvent.isCrash = 0) :
    ((observed answer).run j events).contents =
      j.contents ++ ((observed taken).answers j events).flatten := by
  have hlost := length_lost_le h hbounded
  rw [hcrash, Nat.zero_mul] at hlost
  rcases run_contents j events with ⟨hsub, hperm⟩
  have hnone := List.eq_nil_of_length_eq_zero (Nat.le_zero.mp hlost)
  rw [hnone, List.append_nil] at hperm
  exact hsub.eq_of_length hperm.length_eq

end Journal
