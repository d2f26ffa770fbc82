import IrohSync.Lib.FileIo

/-!
# Changes and sync messages

The data that peers replicate and the messages they exchange.  Identifiers and
timestamps, which the constructors of the source draw from the random generator
and the clock, are arguments here.  A metadata map is the list of its entries in
some fixed order.
-/

namespace IrohSync

open FileIo

/-- A universally unique identifier. -/
structure Uuid where
  bytes : List UInt8
  length_bytes : bytes.length = 16
deriving DecidableEq, Repr

/-- The 128-bit value of the bytes, least significant first. -/
def Uuid.toU128Le (id : Uuid) : Nat :=
  id.bytes.foldr (fun b acc => b.toNat + 256 * acc) 0

/-- Type of change operation. -/
inductive ChangeOperation where
  | query
  | set
  | delete
  | commit
  | schema
  | auth
  | liveNotify
deriving DecidableEq, Repr

/-- Represents a single change to the database. -/
structure Change where
  id : Uuid
  timestamp : UInt64
  «namespace» : String
  database : String
  table : Option String
  operation : ChangeOperation
  key : Option Bytes
  value : Option Bytes
  metadata : List (String × String)
deriving DecidableEq, Repr

/-- A new change for a query execution. -/
def Change.query (id : Uuid) (timestamp : UInt64) (ns db : String) (table : Option String) :
    Change where
  id := id
  timestamp := timestamp
  «namespace» := ns
  database := db
  table := table
  operation := .query
  key := none
  value := none
  metadata := []

/-- A new key-value set change. -/
def Change.set (id : Uuid) (timestamp : UInt64) (ns db : String) (key value : Bytes) :
    Change where
  id := id
  timestamp := timestamp
  «namespace» := ns
  database := db
  table := none
  operation := .set
  key := some key
  value := some value
  metadata := []

/-- A new delete change. -/
def Change.delete (id : Uuid) (timestamp : UInt64) (ns db : String) (key : Bytes) :
    Change where
  id := id
  timestamp := timestamp
  «namespace» := ns
  database := db
  table := none
  operation := .delete
  key := some key
  value := none
  metadata := []

/-- A small delete change. -/
def sampleChange : Change :=
  Change.delete ⟨List.replicate 16 0, rfl⟩ 0 "n" "d" [7]

/-- Another small delete change. -/
def otherChange : Change :=
  Change.delete ⟨List.replicate 16 1, rfl⟩ 1 "n" "d" [8]

/-- A batch of changes for efficient sync. -/
structure ChangeBatch where
  offset : UInt64
  changes : List Change
  isFinal : Bool
deriving DecidableEq, Repr

/-- Message types for the sync protocol. -/
inductive SyncMessage where
  | request (offset : UInt64) (limit : Option UInt64)
  | response (batch : ChangeBatch)
  | ack (offset : UInt64)
  | ping
  | pong
deriving DecidableEq, Repr

end IrohSync
