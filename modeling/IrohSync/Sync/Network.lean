import Mathlib.Data.List.Count
import Mathlib.Logic.Function.Basic
import IrohSync.Lib.Machine
import IrohSync.Sync.Protocol

/-!
# Networks of peers

Any number of peers record changes and process messages.  A message that was
sent once may reach any peer, any number of times and in any order, and its
answer is sent in turn.  No step compares the identifier of a change with those
in the log, and so each delivery of a response adds its changes once more.

Main results:

- Theorem {lit}`peers_run`: every peer is where recording the changes that
  reached it would have brought it.
- Theorem {lit}`peer_log_counts_deliveries`: the log of every peer after any run.
-/

namespace IrohSync

open BoundedLog Machine

variable {ι : Type} [DecidableEq ι]

/-! ## Runs -/

/-- The managers of all peers and the messages that were ever sent. -/
structure Network (ι : Type) where
  peers : ι → SyncManager
  sent : List SyncMessage

/-- A peer records a change of its own, some message is sent, or a message that
was sent is delivered to a peer, which processes it with some local offset. -/
inductive NetworkEvent (ι : Type) where
  | record (peer : ι) (change : Change)
  | send (msg : SyncMessage)
  | deliver (peer : ι) (i : Nat) (localOffset : UInt64)

/-- New peers and no messages. -/
def Network.new (maxChanges : ι → UInt64) : Network ι where
  peers := fun peer => SyncManager.new (maxChanges peer)
  sent := []

/-- The network after an event. -/
def Network.next (net : Network ι) : NetworkEvent ι → Network ι
  | .record peer change =>
      { net with
        peers := Function.update net.peers peer ((net.peers peer).recordChange change).1 }
  | .send msg => { net with sent := net.sent ++ [msg] }
  | .deliver peer i localOffset =>
      match net.sent[i]? with
      | some msg =>
          let processed := (net.peers peer).processMessage msg localOffset
          { peers := Function.update net.peers peer processed.1
            sent := net.sent ++ [processed.2] }
      | none => net

/-- The changes that an event brings to a peer. -/
def Network.brought (net : Network ι) : NetworkEvent ι → List (ι × Change)
  | .record peer change => [(peer, change)]
  | .send _ => []
  | .deliver peer i _ =>
      match net.sent[i]? with
      | some msg => msg.changes.map fun change => (peer, change)
      | none => []

/-- Peers that exchange messages. -/
def network : Machine (Network ι) (NetworkEvent ι) (List (ι × Change)) where
  next := Network.next
  answer := Network.brought

/-- The changes that a list of events brought to one peer. -/
def broughtTo (peer : ι) (brought : List (ι × Change)) : List Change :=
  brought.filterMap fun entry => if entry.1 = peer then some entry.2 else none

/-- The changes that one peer recorded or had delivered during a run, one entry
for each recording and each delivery. -/
def reached (net : Network ι) (events : List (NetworkEvent ι)) (peer : ι) : List Change :=
  (network.answers net events).flatMap (broughtTo peer)

/-! ## What a step brings -/

theorem broughtTo_self (peer : ι) (cs : List Change) :
    broughtTo peer (cs.map fun change => (peer, change)) = cs := by
  unfold broughtTo
  simp

theorem broughtTo_of_ne {peer other : ι} (hne : other ≠ peer) (cs : List Change) :
    broughtTo peer (cs.map fun change => (other, change)) = [] := by
  unfold broughtTo
  simp [hne]

/-- Whatever a message is, processing it records the changes that it carries. -/
theorem processMessage_recordAll (m : SyncManager) (msg : SyncMessage) (localOffset : UInt64) :
    (m.processMessage msg localOffset).1 = m.recordAll msg.changes := by
  cases msg <;> rfl

/-- An event moves each peer as recording what it brings to it does. -/
theorem peers_next (net : Network ι) (event : NetworkEvent ι) (peer : ι) :
    (net.next event).peers peer =
      (net.peers peer).recordAll (broughtTo peer (net.brought event)) := by
  have hupdate : ∀ (other : ι) (cs : List Change),
      Function.update net.peers other ((net.peers other).recordAll cs) peer =
        (net.peers peer).recordAll (broughtTo peer (cs.map fun change => (other, change))) := by
    intro other cs
    by_cases hother : other = peer
    · subst other
      rw [Function.update_self, broughtTo_self]
    · rw [Function.update_of_ne (Ne.symm hother), broughtTo_of_ne hother, recordAll_nil]
  cases event with
  | record other change => exact hupdate other [change]
  | send msg => rfl
  | deliver other i localOffset =>
      simp only [Network.next, Network.brought]
      cases net.sent[i]? with
      | none => rfl
      | some msg =>
          simp only [processMessage_recordAll]
          exact hupdate other msg.changes

/-! ## Whole runs -/

/-- Every peer recorded exactly what reached it. -/
theorem peers_run (net : Network ι) (events : List (NetworkEvent ι)) (peer : ι) :
    (network.run net events).peers peer =
      (net.peers peer).recordAll (reached net events peer) := by
  induction events generalizing net with
  | nil => rfl
  | cons event events ih =>
      have hreached : reached net (event :: events) peer =
          broughtTo peer (net.brought event) ++ reached (net.next event) events peer :=
        rfl
      rw [hreached, recordAll_append, ← peers_next]
      exact ih (net.next event)

/-- The log of a new manager after recording changes is the newest of them. -/
theorem changes_recordAll_new (maxChanges : UInt64) (cs : List Change) :
    ((SyncManager.new maxChanges).recordAll cs).changes = latest maxChanges.toNat cs := by
  rw [recordAll_changes, pushAll_eq_drop]
  rfl

/-- After any run the log of every peer is the newest of the changes that it
recorded or that were delivered to it, one entry for each recording and each
delivery.  It holds an identifier at most as often as the identifier reached the
peer, and processing a response twice adds its changes twice. -/
theorem peer_log_counts_deliveries (maxChanges : ι → UInt64) (events : List (NetworkEvent ι))
    (peer : ι) :
    ((network.run (Network.new maxChanges) events).peers peer).changes =
        latest (maxChanges peer).toNat (reached (Network.new maxChanges) events peer) ∧
      (∀ id, (((network.run (Network.new maxChanges) events).peers peer).changes.map
          Change.id).count id ≤
        ((reached (Network.new maxChanges) events peer).map Change.id).count id) ∧
      ∀ batch localOffset localOffset',
        (((((network.run (Network.new maxChanges) events).peers peer).processMessage
            (.response batch) localOffset).1.processMessage
            (.response batch) localOffset').1).changes =
          latest (maxChanges peer).toNat
            (reached (Network.new maxChanges) events peer ++ batch.changes ++
              batch.changes) := by
  have hpeer : (network.run (Network.new maxChanges) events).peers peer =
      (SyncManager.new (maxChanges peer)).recordAll
        (reached (Network.new maxChanges) events peer) :=
    peers_run _ events peer
  rw [hpeer, changes_recordAll_new]
  refine ⟨rfl, fun id => ?_, fun batch localOffset localOffset' => ?_⟩
  · exact ((List.drop_sublist _ _).map Change.id).count_le id
  · rw [processMessage_response, processMessage_response, ← recordAll_append,
      ← recordAll_append, changes_recordAll_new, List.append_assoc]

/-- A peer records a change, answers a request with it, and the other peer gets
the response twice: its log holds the change twice. -/
theorem not_nodup_redelivered :
    ¬ (∀ peer : Bool, (((network.run (Network.new fun _ => 10)
        [.record true sampleChange, .send (.request 0 none), .deliver true 0 1,
          .deliver false 1 0, .deliver false 1 0]).peers peer).changes.map
        Change.id).Nodup) ∧
    ((network.run (Network.new fun _ => 10)
        [.record true sampleChange, .send (.request 0 none), .deliver true 0 1,
          .deliver false 1 0, .deliver false 1 0]).peers false).changes ≠
      ((network.run (Network.new fun _ => 10)
        [.record true sampleChange, .send (.request 0 none), .deliver true 0 1,
          .deliver false 1 0]).peers false).changes := by
  have htwice : ((network.run (Network.new fun _ => 10)
      [.record true sampleChange, .send (.request 0 none), .deliver true 0 1,
        .deliver false 1 0, .deliver false 1 0]).peers false).changes =
      [sampleChange, sampleChange] := by
    rfl
  have honce : ((network.run (Network.new fun _ => 10)
      [.record true sampleChange, .send (.request 0 none), .deliver true 0 1,
        .deliver false 1 0]).peers false).changes = [sampleChange] := by
    rfl
  constructor
  · intro hnodup
    have hfalse := hnodup false
    rw [htwice] at hfalse
    simp at hfalse
  · rw [htwice, honce]
    simp

end IrohSync
