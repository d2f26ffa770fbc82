import IrohSync.Sync.Network

/-!
# Where changes come from

No step of a network makes up a change.  What a peer holds, and what it sends, was recorded
by some peer or came in a message that was sent from outside, whatever was delivered where
and how often.

Main results:

- Theorems {lit}`mem_recordAll` and {lit}`mem_processMessage`: what a peer holds and sends
  after it processed a message.
- Theorem {lit}`no_invented_change`: the changes of all peers after any run.
-/

namespace IrohSync

open BoundedLog Machine

/-! ## One message -/

/-- A log holds nothing but what it held before and what was recorded. -/
theorem mem_recordAll {m : SyncManager} {cs : List Change} {c : Change}
    (hc : c ∈ (m.recordAll cs).changes) : c ∈ m.changes ∨ c ∈ cs := by
  rw [recordAll_changes, pushAll_eq_drop] at hc
  exact List.mem_append.mp (List.mem_of_mem_drop hc)

/-- A read returns nothing but what the log holds. -/
theorem mem_getChangesSince {m : SyncManager} {offset : UInt64} {c : Change}
    (hc : c ∈ m.getChangesSince offset) : c ∈ m.changes := by
  rw [getChangesSince_eq] at hc
  exact List.mem_of_mem_drop hc

/-- An answer carries nothing but what the log holds. -/
theorem mem_processMessage {m : SyncManager} {msg : SyncMessage} {localOffset : UInt64}
    {c : Change} (hc : c ∈ (m.processMessage msg localOffset).2.changes) : c ∈ m.changes := by
  cases msg with
  | request offset limit =>
      have hpage := truncate_prefix (m.getChangesSince offset) limit
      exact mem_getChangesSince (hpage.subset hc)
  | response batch => simp [SyncManager.processMessage, SyncMessage.changes] at hc
  | ack offset => simp [SyncManager.processMessage, SyncMessage.changes] at hc
  | ping => simp [SyncManager.processMessage, SyncMessage.changes] at hc
  | pong => simp [SyncManager.processMessage, SyncMessage.changes] at hc

/-! ## Runs of a network -/

variable {ι : Type} [DecidableEq ι]

/-- The changes that an event brings into a network: those that a peer records and those of
a message from outside. -/
def NetworkEvent.introduces : NetworkEvent ι → List Change
  | .record _ change => [change]
  | .send msg => msg.changes
  | .deliver _ _ _ => []

/-- All changes of a network, in the logs and in the messages, are of a given list. -/
structure Network.Within (net : Network ι) (known : List Change) : Prop where
  logs : ∀ peer, ∀ c ∈ (net.peers peer).changes, c ∈ known
  sent : ∀ msg ∈ net.sent, ∀ c ∈ msg.changes, c ∈ known

omit [DecidableEq ι] in
theorem Network.Within.mono {net : Network ι} {known known' : List Change}
    (h : net.Within known) (hsub : known ⊆ known') : net.Within known' :=
  ⟨fun peer c hc => hsub (h.logs peer c hc), fun msg hmsg c hc => hsub (h.sent msg hmsg c hc)⟩

/-- A peer that records known changes. -/
theorem Network.Within.update {net : Network ι} {known : List Change} {peer : ι}
    (h : net.Within known) {cs : List Change} (hcs : cs ⊆ known) : ∀ other, ∀ c ∈
      (Function.update net.peers peer ((net.peers peer).recordAll cs) other).changes,
      c ∈ known := by
  intro other c hc
  by_cases hother : other = peer
  · subst other
    rw [Function.update_self] at hc
    rcases mem_recordAll hc with hold | hnew
    · exact h.logs peer c hold
    · exact hcs hnew
  · rw [Function.update_of_ne hother] at hc
    exact h.logs other c hc

/-- An event adds to the changes of a network at most what it introduces. -/
theorem Network.Within.next {net : Network ι} {known : List Change} (h : net.Within known)
    (event : NetworkEvent ι) : (net.next event).Within (known ++ event.introduces) := by
  cases event with
  | record peer c =>
      have h' := h.mono (List.subset_append_left known [c])
      have hc : [c] ⊆ known ++ [c] := List.subset_append_right _ _
      exact ⟨h'.update hc, h'.sent⟩
  | send msg =>
      have h' := h.mono (List.subset_append_left known msg.changes)
      refine ⟨h'.logs, fun msg' hmsg' c hc => ?_⟩
      rcases List.mem_append.mp hmsg' with hold | hnew
      · exact h'.sent msg' hold c hc
      · rw [List.mem_singleton.mp hnew] at hc
        exact List.mem_append_right _ hc
  | deliver peer i localOffset =>
      rw [NetworkEvent.introduces, List.append_nil, Network.next]
      cases hmsg : net.sent[i]? with
      | none => exact h
      | some msg =>
          have hsent := h.sent msg (List.mem_of_getElem? hmsg)
          simp only [processMessage_recordAll]
          refine ⟨h.update hsent, fun msg' hmsg' c hc => ?_⟩
          rcases List.mem_append.mp hmsg' with hold | hnew
          · exact h.sent msg' hold c hc
          · rw [List.mem_singleton.mp hnew] at hc
            exact h.logs peer c (mem_processMessage hc)

/-- After any run every change in a log or in a message was recorded by a peer or came in a
message from outside. -/
theorem no_invented_change (maxChanges : ι → UInt64) (events : List (NetworkEvent ι)) :
    (network.run (Network.new maxChanges) events).Within
      (events.flatMap NetworkEvent.introduces) := by
  have hrun : ∀ (net : Network ι) (known : List Change), net.Within known →
      (network.run net events).Within (known ++ events.flatMap NetworkEvent.introduces) := by
    induction events with
    | nil => exact fun net known h => (List.append_nil known).symm ▸ h
    | cons event events ih =>
        intro net known h
        rw [List.flatMap_cons, ← List.append_assoc]
        exact ih _ _ (h.next event)
  refine hrun (Network.new maxChanges) [] ⟨fun peer c hc => ?_, fun msg hmsg => ?_⟩
  · simp [Network.new, SyncManager.new] at hc
  · simp [Network.new] at hmsg

end IrohSync
