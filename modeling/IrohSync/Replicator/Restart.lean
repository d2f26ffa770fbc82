import IrohSync.Replicator.Lifecycle

/-!
# Starting again after an error

A start sets the flag before it does anything that may fail, and returns an error without
taking back what it has stored.  Only the main loop clears the flag, and a start that fails
spawns none.

The constructor of the discovery manager always succeeds as it is written now, but a start
passes its error on; so its outcome is an argument, as that of binding the endpoint is.

Main results:

- Theorem {lit}`run_startCall`: the steps of a start without other calls are a whole call.
- Theorem {lit}`failed_start_iff`: in which runs every start that fails leaves the replicator
  as it was.
- Theorem {lit}`rejected_from_then_on`: after a start of a stopped replicator has failed every
  later start is rejected.
-/

namespace IrohSync

namespace Lifecycle

open Machine Discovery

variable {ι : Type}

/-! ## Whole calls -/

/-- Start the replicator: the state after the call, and its result. -/
def System.startCall (s : System ι) (bound : Except Error (Endpoint ι))
    (created : Except Error (DiscoveryManager ι)) : System ι × Except Error Nat :=
  if s.inner.running then (s, .error (.other "replicator already started"))
  else
    let s := { s with inner := { s.inner with running := true } }
    match bound with
    | .error e => (s, .error e)
    | .ok endpoint =>
        let s := { s with inner := { s.inner with endpoint := some endpoint } }
        match created with
        | .error e => (s, .error e)
        | .ok discovery =>
            ({ s with
                inner := { s.inner with discovery := some discovery }
                loops := s.loops ++ [.subscribe] },
              .ok s.loops.length)

/-- A whole call of start, or a step of another call or of a main loop. -/
inductive Call (ι : Type) where
  | start (bound : Except Error (Endpoint ι)) (created : Except Error (DiscoveryManager ι))
  | step (e : Event ι)

/-- The state after a call or a step; the result of a start is kept with those of all others. -/
def System.afterCall (s : System ι) : Call ι → System ι
  | .start bound created =>
      let called := s.startCall bound created
      { called.1 with starts := s.starts ++ [.returned called.2] }
  | .step e => s.next e

/-- Whole calls of start among the steps of other calls and of main loops. -/
def restarting : Machine (System ι) (Call ι) Unit where
  next := System.afterCall
  answer _ _ := ()

/-- The steps of a start without other calls are a whole call. -/
theorem run_startCall (s : System ι) (bound : Except Error (Endpoint ι)) :
    lifecycle.run s (.start :: List.replicate 5 (.startStep s.starts.length bound)) =
      s.afterCall (.start bound (.ok .new)) := by
  have hset : ∀ stage stage' : StartStage,
      (s.starts ++ [stage]).set s.starts.length stage' = s.starts ++ [stage'] :=
    fun stage stage' => by simp
  cases hrunning : s.inner.running with
  | true =>
      simp [lifecycle, List.replicate, System.next, System.startStep, hset, hrunning,
        System.afterCall, System.startCall]
  | false =>
      cases bound with
      | error e =>
          simp [lifecycle, List.replicate, System.next, System.startStep, hset, hrunning,
            System.afterCall, System.startCall]
      | ok endpoint =>
          simp [lifecycle, List.replicate, System.next, System.startStep, hset, hrunning,
            System.afterCall, System.startCall]

/-! ## Errors -/

/-- A start that returns an error leaves the flag, the endpoint and the discovery manager as
they were. -/
def RestoresOnError (s : System ι) : Call ι → Prop
  | .start bound created => ∀ e, (s.startCall bound created).2 = .error e →
      (s.afterCall (.start bound created)).inner = s.inner
  | .step _ => True

/-- A start is rejected because the flag is set, or nothing fails in it. -/
def StartsOrIsRejected (s : System ι) : Call ι → Prop
  | .start bound created => s.inner.running = true ∨
      (∃ endpoint, bound = .ok endpoint) ∧ ∃ discovery, created = .ok discovery
  | .step _ => True

/-- A start that is rejected leaves everything as it was. -/
theorem System.startCall_running {s : System ι} (hrunning : s.inner.running = true)
    (bound : Except Error (Endpoint ι)) (created : Except Error (DiscoveryManager ι)) :
    s.startCall bound created = (s, .error (.other "replicator already started")) :=
  if_pos hrunning

/-- A start of a stopped replicator fails exactly if something in it does, and sets the
flag. -/
theorem System.startCall_stopped {s : System ι} (hstopped : s.inner.running = false)
    (bound : Except Error (Endpoint ι)) (created : Except Error (DiscoveryManager ι)) :
    (s.startCall bound created).1.inner.running = true ∧
      ((∃ e, (s.startCall bound created).2 = .error e) ↔
        ¬ ((∃ endpoint, bound = .ok endpoint) ∧ ∃ discovery, created = .ok discovery)) := by
  rw [startCall, if_neg (by rw [hstopped]; exact Bool.false_ne_true)]
  cases bound with
  | error e => exact ⟨rfl, by simp⟩
  | ok endpoint =>
      cases created with
      | error e => exact ⟨rfl, by simp⟩
      | ok discovery => exact ⟨rfl, by simp⟩

/-- A start that fails leaves the replicator as it was exactly if it was rejected. -/
theorem restoresOnError_iff (s : System ι) (call : Call ι) :
    RestoresOnError s call ↔ StartsOrIsRejected s call := by
  cases call with
  | step e => exact Iff.rfl
  | start bound created =>
      rw [RestoresOnError, StartsOrIsRejected]
      cases hrunning : s.inner.running with
      | true =>
          refine iff_of_true (fun e _ => ?_) (Or.inl rfl)
          rw [System.afterCall, System.startCall_running hrunning]
      | false =>
          rcases s.startCall_stopped hrunning bound created with ⟨hset, hfails⟩
          rw [or_iff_right Bool.false_ne_true, ← not_iff_not, ← hfails]
          constructor
          · intro hnot
            by_contra hnone
            exact hnot fun e he => absurd ⟨e, he⟩ hnone
          · rintro ⟨e, he⟩ hrestores
            -- the flag was set and is not taken back
            have hsame := congrArg ReplicatorInner.running (hrestores e he)
            rw [hrunning] at hsame
            exact Bool.false_ne_true (hsame.symm.trans hset)

/-- In a run with any calls of start and shutdown every start that returns an error leaves
the flag, the endpoint and the discovery manager as they were, exactly if every start is
rejected because the flag is set, or nothing fails in it. -/
theorem failed_start_iff (syncInterval : Nat) (calls : List (Call ι)) :
    restarting.Along RestoresOnError (System.new syncInterval) calls ↔
      restarting.Along StartsOrIsRejected (System.new syncInterval) calls :=
  along_iff (I := fun _ => True) (fun _ _ _ _ => trivial)
    (fun s call _ => restoresOnError_iff s call) trivial calls

/-- The endpoint of a new replicator cannot be bound, and the next start is rejected. -/
theorem not_restoresOnError_bind :
    ¬ restarting.Along RestoresOnError (System.new 30 : System Unit)
        [.start (.error (.endpoint "address in use")) (.ok .new), .start (.ok ⟨()⟩) (.ok .new)] ∧
      (restarting.run (System.new 30 : System Unit)
        [.start (.error (.endpoint "address in use")) (.ok .new),
          .start (.ok ⟨()⟩) (.ok .new)]).starts =
        [.returned (.error (.endpoint "address in use")),
          .returned (.error (.other "replicator already started"))] := by
  refine ⟨fun hrestores => ?_, rfl⟩
  have hsame := congrArg ReplicatorInner.running (hrestores.1 _ rfl)
  exact absurd hsame (by decide)

/-! ## Rejected for good -/

/-- The flag is set, no call of start will spawn a main loop, and none is there to clear the
flag. -/
structure Stuck (s : System ι) : Prop where
  running : s.inner.running = true
  starts : ∀ stage ∈ s.starts, stage.starting = false
  loops : ∀ stage ∈ s.loops, stage.alive = false

variable {s : System ι}

/-- Another call of start, or the return of one. -/
theorem Stuck.addStart (h : Stuck s) {stage : StartStage} (hstage : stage.starting = false) :
    Stuck { s with starts := s.starts ++ [stage] } where
  running := h.running
  starts := List.forall_mem_append.mpr ⟨h.starts, List.forall_mem_singleton.mpr hstage⟩
  loops := h.loops

/-- A step of a call of start. -/
theorem Stuck.startStep (h : Stuck s) (i : Nat) (bound : Except Error (Endpoint ι)) :
    Stuck (s.next (.startStep i bound)) := by
  cases hstage : s.starts[i]? with
  | none => simpa only [System.next, hstage] using h
  | some stage =>
      have hidle := h.starts stage (List.mem_of_getElem? hstage)
      have hset : ∀ stage' : StartStage, stage'.starting = false →
          Stuck { s with starts := s.starts.set i stage' } := by
        intro stage' hstage'
        refine ⟨h.running, fun other hother => ?_, h.loops⟩
        rcases List.mem_or_eq_of_mem_set hother with hold | rfl
        · exact h.starts other hold
        · exact hstage'
      simp only [System.next, hstage]
      cases stage with
      | swap =>
          simp only [System.startStep, h.running, if_true]
          exact hset _ rfl
      | spawned k => exact hset _ rfl
      | returned result => exact hset _ rfl
      | bind => contradiction
      | discover => contradiction
      | spawn => contradiction

/-- A step of a main loop that has ended. -/
theorem Stuck.loopStep (h : Stuck s) (k : Nat) (ticked : Bool) :
    Stuck (s.next (.loopStep k ticked)) := by
  cases hstage : s.loops[k]? with
  | none => simpa only [System.next, hstage] using h
  | some stage =>
      have hdead := h.loops stage (List.mem_of_getElem? hstage)
      have hmoved : s.loopStep ticked stage = (s, stage) := by
        cases stage with
        | finished => rfl
        | panicked => rfl
        | _ => contradiction
      simp only [System.next, hstage, hmoved]
      refine ⟨h.running, h.starts, fun other hother => ?_⟩
      rcases List.mem_or_eq_of_mem_set hother with hold | rfl
      · exact h.loops other hold
      · exact hdead

/-- A step of a call of shutdown. -/
theorem Stuck.shutdownStep (h : Stuck s) (j : Nat) : Stuck (s.next (.shutdownStep j)) := by
  cases hcall : s.shutdowns[j]? with
  | none => simpa only [System.next, hcall] using h
  | some call =>
      have hsame : (s.shutdownStep call.stage).1.inner.running = s.inner.running ∧
          (s.shutdownStep call.stage).1.starts = s.starts ∧
          (s.shutdownStep call.stage).1.loops = s.loops := by
        unfold System.shutdownStep
        split <;> first | exact ⟨rfl, rfl, rfl⟩ | (split <;> exact ⟨rfl, rfl, rfl⟩)
      rcases hsame with ⟨hrunning, hstarts, hloops⟩
      simp only [System.next, hcall]
      exact ⟨hrunning.trans h.running, hstarts ▸ h.starts, hloops ▸ h.loops⟩

/-- Every call and every step. -/
theorem Stuck.next (h : Stuck s) (call : Call ι) : Stuck (s.afterCall call) := by
  cases call with
  | start bound created =>
      rw [System.afterCall, System.startCall_running h.running]
      exact h.addStart rfl
  | step e =>
      cases e with
      | start => exact h.addStart rfl
      | startStep i bound => exact h.startStep i bound
      | loopStep k ticked => exact h.loopStep k ticked
      | shutdown => exact ⟨h.running, h.starts, h.loops⟩
      | shutdownStep j => exact h.shutdownStep j

/-- After a start of a stopped replicator, in which no other start is under way and no main
loop is left, has failed, every later start is rejected, whatever else is called. -/
theorem rejected_from_then_on (hstopped : s.inner.running = false) (hbusy : s.busy = 0)
    {bound : Except Error (Endpoint ι)} {created : Except Error (DiscoveryManager ι)} {e : Error}
    (hfails : (s.startCall bound created).2 = .error e) (calls : List (Call ι)) :
    restarting.Along
      (fun s call => ∀ bound created, call = .start bound created →
        (s.startCall bound created).2 = .error (.other "replicator already started"))
      (s.afterCall (.start bound created)) calls := by
  rw [System.busy, Nat.add_eq_zero_iff, List.countP_eq_zero, List.countP_eq_zero] at hbusy
  have hstuck : Stuck (s.afterCall (.start bound created)) := by
    have hset := (s.startCall_stopped hstopped bound created).1
    have hloops : (s.startCall bound created).1.loops = s.loops := by
      rw [System.startCall, if_neg (by rw [hstopped]; exact Bool.false_ne_true)] at hfails ⊢
      cases bound with
      | error e => rfl
      | ok endpoint =>
          cases created with
          | error e => rfl
          | ok discovery => contradiction
    refine ⟨hset, ?_, fun stage hstage => ?_⟩
    · refine List.forall_mem_append.mpr ⟨fun stage hstage => ?_, List.forall_mem_singleton.mpr rfl⟩
      exact Bool.not_eq_true _ ▸ hbusy.1 stage hstage
    · have hold : stage ∈ s.loops := hloops ▸ hstage
      exact Bool.not_eq_true _ ▸ hbusy.2 stage hold
  exact (along_trivial _ calls).of_invariant (I := Stuck) (fun _ call h _ => h.next call)
    (fun s call h _ bound created _ => by rw [System.startCall_running h.running]) hstuck

end Lifecycle

end IrohSync
