import IrohSync.Lib.Loop
import IrohSync.Sync.Connection
import IrohSync.Sync.PeerStates

/-!
# Whole sessions

The two functions that run a session, from the opening of the stream to the last
update of the peer's state.  Everything the network decides is given in advance:
the bytes that arrive before the stream ends and the outcome of every write.

Main results:

- Theorems {lit}`receivePass_decreases` and {lit}`pullPass_decreases`: every pass
  that goes on has read a message, so both loops end.
-/

namespace IrohSync

open FileIo Framing Loop

/-- What the network does in one session: the error of opening the stream, the
bytes that can be read before the stream ends, the error of a read that asks for
more, the errors of the calls that write, by number, and of the one that finishes. -/
structure Net where
  opened : Option String
  bytes : Bytes
  readError : String
  write : Nat → Option String
  finish : Option String

/-! ## The accepting side -/

/-- The state of the loop that receives messages: the messages answered so far and
what the writes that succeeded have written. -/
structure ReceiveState where
  manager : SyncManager
  rest : Bytes
  answered : List SyncMessage
  written : Bytes

/-- The error of a length prefix that is too large. -/
def oversizedError : Error :=
  .connection "message size exceeds maximum allowed"

/-- Answer one message: process it, encode the response and write its length and
its bytes. -/
def answerMessage (wire : Wire) (write : Nat → Option String) (localOffset : UInt64)
    (s : ReceiveState) (request : SyncMessage) :
    Pass ReceiveState (ReceiveState × Except Error Unit) :=
  let processed := s.manager.processMessage request localOffset
  let s := { s with manager := processed.1 }
  match wire.encode processed.2 with
  | .error e => .done (s, .error (.encoding e))
  | .ok encoded =>
      match write (2 * s.answered.length) with
      | some e => .done (s, .error (.connection e))
      | none =>
          match write (2 * s.answered.length + 1) with
          -- the length was written already
          | some e =>
              .done ({ s with written := s.written ++ be.write encoded.length },
                .error (.connection e))
          | none => .next { s with
              answered := s.answered ++ [request]
              written := s.written ++ frame be encoded }

/-- One pass of the receiving loop. -/
def receivePass (wire : Wire) (write : Nat → Option String) (localOffset : UInt64)
    (s : ReceiveState) : Pass ReceiveState (ReceiveState × Except Error Unit) :=
  match readFrame be maxMessageSize s.rest with
  | .short => .done (s, .ok ())
  | .marker rest => .done ({ s with rest := rest }, .ok ())
  | .oversized rest => .done ({ s with rest := rest }, .error oversizedError)
  | .cut rest => .done ({ s with rest := rest }, .ok ())
  | .body msg rest =>
      match wire.decode msg with
      | .error _ => .done ({ s with rest := rest }, .ok ())
      | .ok request => answerMessage wire write localOffset { s with rest := rest } request

/-- Answering a message reads nothing. -/
theorem answerMessage_rest {wire : Wire} {write : Nat → Option String} {localOffset : UInt64}
    {s s' : ReceiveState} {request : SyncMessage}
    (hnext : answerMessage wire write localOffset s request = .next s') : s'.rest = s.rest := by
  unfold answerMessage at hnext
  simp only at hnext
  split at hnext
  · contradiction
  · split at hnext
    · contradiction
    · split at hnext
      · contradiction
      · injection hnext with hstate
        rw [← hstate]

/-- Every pass that goes on has read a message. -/
theorem receivePass_decreases {wire : Wire} {write : Nat → Option String} {localOffset : UInt64}
    {s s' : ReceiveState} (hnext : receivePass wire write localOffset s = .next s') :
    s'.rest.length < s.rest.length := by
  unfold receivePass at hnext
  split at hnext
  · contradiction
  · contradiction
  · contradiction
  · contradiction
  · next msg rest hread =>
      split at hnext
      · contradiction
      · rw [answerMessage_rest hnext]
        exact readFrame_body_lt hread

/-- The loop of the accepting side. -/
def receiveBody (wire : Wire) (write : Nat → Option String) (localOffset : UInt64) :
    Body ReceiveState (ReceiveState × Except Error Unit) where
  pass := receivePass wire write localOffset
  measure := fun s => s.rest.length
  decreases := receivePass_decreases

/-- The state in which the loop begins. -/
def ReceiveState.start (manager : SyncManager) (bytes : Bytes) : ReceiveState where
  manager := manager
  rest := bytes
  answered := []
  written := []

variable {ι : Type}

/-- Handle an incoming connection from a peer. -/
def PeerSyncManager.handleConnection (ids : EndpointIds ι) (wire : Wire) (net : Net)
    (m : PeerSyncManager ι) (peerId : ι) : PeerSyncManager ι × Except Error Unit :=
  match net.opened with
  | some e => (m, .error (.connection e))
  | none =>
      let m := m.updatePeerState ids peerId .syncing
      let left := (receiveBody wire net.write m.offset).run (.start m.toSyncManager net.bytes)
      let m := { m with toSyncManager := left.1.manager }
      match left.2 with
      | .error e => (m, .error e)
      | .ok _ =>
          match net.finish with
          | some e => (m, .error (.connectionClosed e))
          | none => (m.updatePeerState ids peerId .synchronized, .ok ())

/-! ## The connecting side -/

/-- The state of the loop that receives responses. -/
structure PullState where
  manager : SyncManager
  rest : Bytes

/-- One pass of the loop that receives responses. -/
def pullPass (wire : Wire) (readError : String) (s : PullState) :
    Pass PullState (PullState × Except Error Unit) :=
  match readFrame be maxMessageSize s.rest with
  | .short => .done (s, .ok ())
  | .marker rest => .done ({ s with rest := rest }, .ok ())
  | .oversized rest => .done ({ s with rest := rest }, .error oversizedError)
  | .cut rest => .done ({ s with rest := rest }, .error (.connection readError))
  | .body msg rest =>
      match wire.decode msg with
      | .error e => .done ({ s with rest := rest }, .error (.encoding e))
      | .ok (.response batch) =>
          .next { manager := (s.manager.applyChanges batch.changes).1, rest := rest }
      | .ok (.ack _) => .done ({ s with rest := rest }, .ok ())
      | .ok _ => .next { s with rest := rest }

/-- Every pass that goes on has read a message. -/
theorem pullPass_decreases {wire : Wire} {readError : String} {s s' : PullState}
    (hnext : pullPass wire readError s = .next s') : s'.rest.length < s.rest.length := by
  unfold pullPass at hnext
  split at hnext
  · contradiction
  · contradiction
  · contradiction
  · contradiction
  · next msg rest hread =>
      have hlt := readFrame_body_lt hread
      split at hnext
      · contradiction
      · injection hnext with hstate
        exact hstate ▸ hlt
      · contradiction
      · injection hnext with hstate
        exact hstate ▸ hlt

/-- The loop of the connecting side. -/
def pullBody (wire : Wire) (readError : String) :
    Body PullState (PullState × Except Error Unit) where
  pass := pullPass wire readError
  measure := fun s => s.rest.length
  decreases := pullPass_decreases

/-- The first write that fails among the calls with the given numbers. -/
def Net.firstError (net : Net) (calls : List Nat) : Option String :=
  calls.findSome? net.write

/-- Connect to a peer and perform synchronization. -/
def PeerSyncManager.connectAndSync (ids : EndpointIds ι) (wire : Wire) (net : Net)
    (m : PeerSyncManager ι) (peerId : ι) : PeerSyncManager ι × Except Error Unit :=
  match net.opened with
  | some e => (m, .error (.connection e))
  | none =>
      let m := m.updatePeerState ids peerId .syncing
      match wire.encode m.initialRequest with
      | .error e => (m, .error (.encoding e))
      | .ok _ =>
          -- the length and the bytes of the request
          match net.firstError [0, 1] with
          | some e => (m, .error (.connection e))
          | none =>
              let left := (pullBody wire net.readError).run ⟨m.toSyncManager, net.bytes⟩
              let m := { m with toSyncManager := left.1.manager }
              match left.2 with
              | .error e => (m, .error e)
              | .ok _ =>
                  -- the empty message that signals the end
                  match net.firstError [2] with
                  | some e => (m, .error (.connection e))
                  | none =>
                      match net.finish with
                      | some e => (m, .error (.connectionClosed e))
                      | none => (m.updatePeerState ids peerId .synchronized, .ok ())

end IrohSync
