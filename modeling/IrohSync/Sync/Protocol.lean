import IrohSync.Sync.Manager

/-!
# Processing sync messages

How an accepting peer answers one message.  A response is applied by recording
each of its changes; a request is answered with a page of the log.
-/

namespace IrohSync

open BoundedLog

/-- A page of changes, cut to the limit if there is one. -/
def truncate (changes : List Change) (limit : Option UInt64) : List Change :=
  match limit with
  | some limit => changes.take limit.toNat
  | none => changes

/-- The batch that answers a request. -/
def SyncManager.answer (m : SyncManager) (offset : UInt64) (limit : Option UInt64) :
    ChangeBatch :=
  let changes := truncate (m.getChangesSince offset) limit
  let newOffset := offset + UInt64.ofNat changes.length
  let isFinal := changes.isEmpty || decide (m.offset ≤ newOffset)
  { offset := newOffset, changes := changes, isFinal := isFinal }

/-- Process a sync message and generate a response. -/
def SyncManager.processMessage (m : SyncManager) (msg : SyncMessage) (localOffset : UInt64) :
    SyncManager × SyncMessage :=
  match msg with
  | .request offset limit => (m, .response (m.answer offset limit))
  | .response batch => (m.recordAll batch.changes, .ack batch.offset)
  | .ack _ => (m, .ack localOffset)
  | .ping => (m, .pong)
  | .pong => (m, .ping)

/-- The request that a connecting peer sends: its own offset and a limit of 1000. -/
def SyncManager.initialRequest (m : SyncManager) : SyncMessage :=
  .request m.offset (some 1000)

/-- The changes that a message carries. -/
def SyncMessage.changes : SyncMessage → List Change
  | .response batch => batch.changes
  | _ => []

/-- A request leaves the manager as it is and is answered with a batch. -/
theorem processMessage_request (m : SyncManager) (offset : UInt64) (limit : Option UInt64)
    (localOffset : UInt64) :
    m.processMessage (.request offset limit) localOffset =
      (m, .response (m.answer offset limit)) :=
  rfl

/-- A response is recorded and acknowledged. -/
theorem processMessage_response (m : SyncManager) (batch : ChangeBatch) (localOffset : UInt64) :
    m.processMessage (.response batch) localOffset =
      (m.recordAll batch.changes, .ack batch.offset) :=
  rfl

/-- A page is a prefix of what it is cut from. -/
theorem truncate_prefix (changes : List Change) (limit : Option UInt64) :
    truncate changes limit <+: changes := by
  cases limit with
  | none => exact List.prefix_refl _
  | some limit => exact List.take_prefix _ _

end IrohSync
