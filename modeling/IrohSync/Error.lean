import IrohSync.Lib.FileIo

/-!
# Error types for iroh-sync replication
-/

namespace IrohSync

open FileIo

/-- Errors that can occur during replication. -/
inductive Error where
  | endpoint (message : String)
  | discovery (message : String)
  | connection (message : String)
  | connectionClosed (message : String)
  | invalidTicket (message : String)
  | sync (message : String)
  | encoding (message : String)
  | state (message : String)
  | shutdown
  | channelClosed
  | peerNotFound (message : String)
  | maxPeersReached (limit : Nat)
  | timeout (millis : Nat)
  | other (message : String)
deriving DecidableEq, Repr

/-- An I/O error that reaches a caller through `?` is a connection error. -/
def Error.ofIo (e : IoError) : Error :=
  .connection e.message

end IrohSync
