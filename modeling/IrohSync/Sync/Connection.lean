import Mathlib.Data.List.Forall2
import IrohSync.Lib.ByteStream
import IrohSync.Sync.Protocol

/-!
# A sync connection

The loop of the connecting side and the loop of the accepting side over the two
byte streams of a connection.  Each loop is a function from a state to its next
one, with no value where the loop waits for bytes or has ended, so that a
session is any interleaving of the two.  The text encoding of messages, which a
library provides, is a parameter.
-/

namespace IrohSync

open FileIo Framing ByteStream

/-- Maximum message size to prevent allocation attacks (16MB). -/
def maxMessageSize : Nat := 16 * 1024 * 1024

/-- The four-byte length prefix of a message. -/
abbrev be : LengthPrefix := LengthPrefix.big

/-- A message that is not too large has a length of 32 bits. -/
theorem maxMessageSize_lt : maxMessageSize < 2 ^ 32 := by
  decide

/-- The length of a message that is not too large is read as it is. -/
theorem read_length_of_le {bytes : Bytes} (hle : bytes.length ≤ maxMessageSize) :
    be.read (be.write bytes.length) = bytes.length :=
  read_write_of_lt (Nat.lt_of_le_of_lt hle maxMessageSize_lt)

/-- The encoding of messages. -/
structure Wire where
  encode : SyncMessage → Except String Bytes
  decode : Bytes → Except String SyncMessage

/-- Where the connecting side is. -/
inductive ClientAt where
  | start
  | readLength
  | readMessage (length : Nat)
  | signalEnd
  | done
  | failed
deriving DecidableEq, Repr

/-- Where the accepting side is. -/
inductive ServerAt where
  | readLength
  | readMessage (length : Nat)
  | respond (request : SyncMessage)
  | finish
  | waitClosed
  | done
  | failed
deriving DecidableEq, Repr

/-- Both sides of a connection and its two streams. -/
structure Connection where
  client : SyncManager
  clientAt : ClientAt
  server : SyncManager
  serverAt : ServerAt
  localOffset : UInt64
  toServer : Stream
  toClient : Stream

/-- A connection whose streams were just opened. -/
def Connection.opened (client server : SyncManager) : Connection where
  client := client
  clientAt := .start
  server := server
  serverAt := .readLength
  localOffset := server.offset
  toServer := .empty
  toClient := .empty

/-- A side that returns an error drops the connection. -/
def Connection.dropped (conn : Connection) : Connection :=
  { conn with toServer := conn.toServer.close, toClient := conn.toClient.close }

/-- The next step of the connecting side. -/
def connectAndSync (wire : Wire) (conn : Connection) : Option Connection :=
  match conn.clientAt with
  | .start =>
      match wire.encode conn.client.initialRequest with
      | .error _ => some { conn.dropped with clientAt := .failed }
      | .ok encoded =>
          if conn.toServer.closed then some { conn.dropped with clientAt := .failed }
          else some { conn with
            toServer := conn.toServer.write (frame be encoded)
            clientAt := .readLength }
  | .readLength =>
      match conn.toClient.readExact 4 with
      | .blocked => none
      | .eof => some { conn with clientAt := .signalEnd }
      | .ok lenBuf rest =>
          let len := be.read lenBuf
          if len = 0 then some { conn with toClient := rest, clientAt := .signalEnd }
          else if maxMessageSize < len then
            some { conn.dropped with clientAt := .failed }
          else some { conn with toClient := rest, clientAt := .readMessage len }
  | .readMessage len =>
      match conn.toClient.readExact len with
      | .blocked => none
      | .eof => some { conn.dropped with clientAt := .failed }
      | .ok msg rest =>
          match wire.decode msg with
          | .error _ => some { conn.dropped with clientAt := .failed }
          | .ok (.response batch) => some { conn with
              client := (conn.client.applyChanges batch.changes).1
              toClient := rest
              clientAt := .readLength }
          | .ok (.ack _) => some { conn with toClient := rest, clientAt := .signalEnd }
          | .ok _ => some { conn with toClient := rest, clientAt := .readLength }
  | .signalEnd =>
      if conn.toServer.closed then some { conn.dropped with clientAt := .failed }
      else some { conn with
        toServer := (conn.toServer.write [0, 0, 0, 0]).close
        toClient := conn.toClient.close
        clientAt := .done }
  | .done => none
  | .failed => none

/-- The next step of the accepting side. -/
def handleConnection (wire : Wire) (conn : Connection) : Option Connection :=
  match conn.serverAt with
  | .readLength =>
      match conn.toServer.readExact 4 with
      | .blocked => none
      | .eof => some { conn with serverAt := .finish }
      | .ok lenBuf rest =>
          let len := be.read lenBuf
          if len = 0 then some { conn with toServer := rest, serverAt := .finish }
          else if maxMessageSize < len then
            some { conn.dropped with serverAt := .failed }
          else some { conn with toServer := rest, serverAt := .readMessage len }
  | .readMessage len =>
      match conn.toServer.readExact len with
      | .blocked => none
      | .eof => some { conn with serverAt := .finish }
      | .ok msg rest =>
          match wire.decode msg with
          | .error _ => some { conn with toServer := rest, serverAt := .finish }
          | .ok request => some { conn with toServer := rest, serverAt := .respond request }
  | .respond request =>
      let processed := conn.server.processMessage request conn.localOffset
      match wire.encode processed.2 with
      | .error _ => some { conn.dropped with server := processed.1, serverAt := .failed }
      | .ok encoded =>
          if conn.toClient.closed then
            some { conn.dropped with server := processed.1, serverAt := .failed }
          else some { conn with
            server := processed.1
            toClient := conn.toClient.write (frame be encoded)
            serverAt := .readLength }
  | .finish => some { conn with toClient := conn.toClient.close, serverAt := .waitClosed }
  | .waitClosed =>
      match conn.clientAt with
      | .done => some { conn with serverAt := .done }
      | .failed => some { conn with serverAt := .done }
      | _ => none
  | .done => none
  | .failed => none

/-- What a connection can become by any interleaving of its two sides. -/
def Connection.Reaches (wire : Wire) (conn conn' : Connection) : Prop :=
  Interleaving.Reaches (connectAndSync wire) (handleConnection wire) conn conn'

/-- Both sides wait for the length of the next message, nothing is in flight and
neither side has finished. -/
structure Connection.Deadlocked (conn : Connection) : Prop where
  clientAt : conn.clientAt = .readLength
  serverAt : conn.serverAt = .readLength
  toServer : conn.toServer = .empty
  toClient : conn.toClient = .empty

/-- A deadlocked connection stays as it is: neither side has a next step. -/
theorem Connection.Deadlocked.stuck {wire : Wire} {conn : Connection} (h : conn.Deadlocked) :
    connectAndSync wire conn = none ∧ handleConnection wire conn = none := by
  have hread := readExact_empty (Nat.succ_pos 3)
  constructor
  · simp only [connectAndSync, h.clientAt, h.toClient, hread]
  · simp only [handleConnection, h.serverAt, h.toServer, hread]

/-! ## Messages in a stream -/

/-- Messages that were read from a stream of which the rest is left: in front of it are their
frames, none of them empty or too large. -/
def DecodedFront (wire : Wire) (bytes left : Bytes) (msgs : List SyncMessage) : Prop :=
  ∃ bodies, bytes = frames be bodies ++ left ∧
    (∀ body ∈ bodies, 0 < body.length ∧ body.length ≤ maxMessageSize) ∧
    List.Forall₂ (fun body msg => wire.decode body = .ok msg) bodies msgs

theorem decodedFront_nil (wire : Wire) (bytes : Bytes) : DecodedFront wire bytes bytes [] :=
  ⟨[], rfl, fun _ hbody => absurd hbody List.not_mem_nil, .nil⟩

/-- One more message is read. -/
theorem DecodedFront.concat {wire : Wire} {bytes left body rest : Bytes}
    {msgs : List SyncMessage} {msg : SyncMessage} (h : DecodedFront wire bytes left msgs)
    (hread : readFrame be maxMessageSize left = .body body rest)
    (hdecode : wire.decode body = .ok msg) : DecodedFront wire bytes rest (msgs ++ [msg]) := by
  rcases h with ⟨bodies, hbytes, hsizes, hdecoded⟩
  rcases eq_of_readFrame_body hread with ⟨hleft, hpos, hle⟩
  refine ⟨bodies ++ [body], ?_, ?_, List.rel_append hdecoded (.cons hdecode .nil)⟩
  · rw [frames_append, frames_cons, frames_nil, List.append_nil, List.append_assoc, ← hleft]
    exact hbytes
  · intro b hb
    rcases List.mem_append.mp hb with hold | hnew
    · exact hsizes b hold
    · rw [List.mem_singleton.mp hnew]
      exact ⟨hpos, hle⟩

end IrohSync
