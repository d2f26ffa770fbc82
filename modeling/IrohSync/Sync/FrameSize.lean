import IrohSync.Sync.Connection
import IrohSync.Sync.WireForm

/-!
# The size of a response

The accepting side bounds a response by the number of its changes, the connecting
side bounds it by its bytes.  The two bounds have nothing to do with each other: a
single change with a large value makes a response that is refused.

Main results:

- Theorem {lit}`encode_answer_length`: the length of a response in terms of the
  changes it carries.
- Theorem {lit}`response_accepted_iff`: exactly which requests are answered with
  a response that the other side accepts.
-/

namespace IrohSync

open FileIo Framing ByteStream BoundedLog

/-- The encoder prints the value of every message. -/
def Wire.PrintsJson (wire : Wire) : Prop :=
  ∀ msg, wire.encode msg = .ok msg.toJson.bytes

/-- The changes that a request asks for: the newest ones that the offset leaves
out, as many as the limit allows. -/
def SyncManager.page (m : SyncManager) (offset : UInt64) (limit : Option UInt64) : List Change :=
  truncate (latest (m.offset.toNat - offset.toNat) m.changes) limit

/-- The sizes of the changes on a page, with what surrounds them in a response. -/
def SyncManager.pageSize (m : SyncManager) (offset : UInt64) (limit : Option UInt64) : Nat :=
  let page := m.page offset limit
  let newOffset := offset + UInt64.ofNat page.length
  63 + (Json.Value.num newOffset.toNat).size +
    (Json.Value.bool (page.isEmpty || decide (m.offset ≤ newOffset))).size +
    (page.map fun change => change.toJson.size).sum + (page.length - 1)

/-- The length of a response in terms of the changes it carries. -/
theorem encode_answer_length {wire : Wire} (hwire : wire.PrintsJson) (m : SyncManager)
    (offset : UInt64) (limit : Option UInt64) :
    ∃ encoded, wire.encode (.response (m.answer offset limit)) = .ok encoded ∧
      encoded.length = m.pageSize offset limit := by
  refine ⟨_, hwire _, ?_⟩
  have hsize := size_response (m.answer offset limit)
  have hpage : truncate (m.getChangesSince offset) limit = m.page offset limit := by
    rw [SyncManager.page, getChangesSince_eq]
  rw [Json.Value.size] at hsize
  rw [hsize, SyncManager.answer, hpage, SyncManager.pageSize]

/-- The answer to a request is a frame whose length is small enough, survives the
cast to 32 bits and is what the connecting side reads next. -/
def ResponseAccepted (wire : Wire) (m : SyncManager) (offset : UInt64) (limit : Option UInt64) :
    Prop :=
  ∀ conn conn' : Connection, conn.server = m → conn.serverAt = .respond (.request offset limit) →
    conn.clientAt = .readLength → conn.toClient = .empty → handleConnection wire conn = some conn' →
    ∃ encoded, conn'.toClient = ⟨frame be encoded, false⟩ ∧ encoded.length ≤ maxMessageSize ∧
      be.read (be.write encoded.length) = encoded.length ∧
      connectAndSync wire conn' =
        some { conn' with toClient := ⟨encoded, false⟩, clientAt := .readMessage encoded.length }

/-- What the accepting side writes in answer to a request. -/
theorem handleConnection_respond {wire : Wire} {conn conn' : Connection} {offset : UInt64}
    {limit : Option UInt64} {encoded : Bytes}
    (hencode : wire.encode (.response (conn.server.answer offset limit)) = .ok encoded)
    (hserver : conn.serverAt = .respond (.request offset limit))
    (htoClient : conn.toClient = .empty) (hstep : handleConnection wire conn = some conn') :
    conn'.toClient = ⟨frame be encoded, false⟩ ∧ conn'.clientAt = conn.clientAt := by
  simp only [handleConnection, hserver, processMessage_request, hencode, htoClient, Stream.empty,
    Bool.false_eq_true, if_false, Option.some.injEq] at hstep
  subst hstep
  exact ⟨by simp [Stream.write], rfl⟩

/-- A connection at the point where a request is answered. -/
def answeringConnection (m : SyncManager) (offset : UInt64) (limit : Option UInt64) :
    Connection where
  client := .new m.maxChanges
  clientAt := .readLength
  server := m
  serverAt := .respond (.request offset limit)
  localOffset := m.offset
  toServer := .empty
  toClient := .empty

/-- The page of a response that is accepted is small. -/
theorem ResponseAccepted.pageSize_le {wire : Wire} (hwire : wire.PrintsJson) {m : SyncManager}
    {offset : UInt64} {limit : Option UInt64} (h : ResponseAccepted wire m offset limit) :
    m.pageSize offset limit ≤ maxMessageSize := by
  rcases encode_answer_length hwire m offset limit with ⟨encoded, hencode, hlength⟩
  have hstep : handleConnection wire (answeringConnection m offset limit) = some
      { answeringConnection m offset limit with
        toClient := ⟨frame be encoded, false⟩, serverAt := .readLength } := by
    simp [handleConnection, answeringConnection, processMessage_request, hencode, Stream.empty,
      Stream.write]
  rcases h _ _ rfl rfl rfl rfl hstep with ⟨encoded', hsent, hle, _⟩
  have hframe := congrArg (fun s => s.bytes.length) hsent
  simp only [frame_length] at hframe
  omega

/-- A response with a small page is accepted. -/
theorem responseAccepted_of_pageSize_le {wire : Wire} (hwire : wire.PrintsJson) {m : SyncManager}
    {offset : UInt64} {limit : Option UInt64} (hle : m.pageSize offset limit ≤ maxMessageSize) :
    ResponseAccepted wire m offset limit := by
  rintro conn conn' rfl hserver hclient htoClient hstep
  rcases encode_answer_length hwire conn.server offset limit with ⟨encoded, hencode, hlength⟩
  rcases handleConnection_respond hencode hserver htoClient hstep with ⟨hsent, hat⟩
  have hpos : 0 < encoded.length := by
    rw [hlength, SyncManager.pageSize]
    omega
  rw [← hlength] at hle
  have hread := read_length_of_le hle
  refine ⟨encoded, hsent, hle, hread, ?_⟩
  simp only [connectAndSync, hat, hclient, hsent, readExact_frame, hread,
    if_neg (Nat.pos_iff_ne_zero.mp hpos), if_neg (Nat.not_lt.mpr hle)]

/-- A response is accepted exactly if the page it carries is small enough. -/
theorem response_accepted_iff (wire : Wire) (hwire : wire.PrintsJson) (m : SyncManager)
    (offset : UInt64) (limit : Option UInt64) :
    ResponseAccepted wire m offset limit ↔ m.pageSize offset limit ≤ maxMessageSize :=
  ⟨fun h => h.pageSize_le hwire, fun h => responseAccepted_of_pageSize_le hwire h⟩

/-- The encoder that prints messages. -/
def printingWire : Wire where
  encode := fun msg => .ok msg.toJson.bytes
  decode := fun _ => .error "not used"

/-- A manager that recorded one change, which sets a key to a value. -/
def managerWithValue (value : Bytes) : SyncManager :=
  (SyncManager.new 10000).recordAll [Change.set sampleChange.id 0 "n" "d" [7] value]

/-- The first page with a single change of a small value is accepted. -/
theorem response_accepted_iff_sample :
    ResponseAccepted printingWire (managerWithValue [1, 2, 3]) 0 (some 1000) :=
  (response_accepted_iff printingWire (fun _ => rfl) (managerWithValue [1, 2, 3]) 0
    (some 1000)).mpr (by decide +kernel)

/-- The first page of such a manager takes two bytes for each byte of the value. -/
theorem le_pageSize_managerWithValue (value : Bytes) :
    2 * value.length + 1 ≤ (managerWithValue value).pageSize 0 (some 1000) := by
  have hpage : (managerWithValue value).page 0 (some 1000) =
      [Change.set sampleChange.id 0 "n" "d" [7] value] := rfl
  have hvalue : 2 * value.length ≤
      (Change.set sampleChange.id 0 "n" "d" [7] value).toJson.size := le_size_value rfl
  rw [SyncManager.pageSize, hpage]
  simp only [List.map_cons, List.map_nil, List.sum_cons, List.sum_nil]
  omega

/-- A single change with a value of 8 MiB makes a response that is refused. -/
theorem not_accepted_large_value :
    ¬ ResponseAccepted printingWire
      (managerWithValue (List.replicate (8 * 1024 * 1024) 0)) 0 (some 1000) := by
  intro haccepted
  have hsmall := haccepted.pageSize_le fun _ => rfl
  have hlarge := le_pageSize_managerWithValue (List.replicate (8 * 1024 * 1024) 0)
  rw [List.length_replicate] at hlarge
  have hmax : maxMessageSize = 16 * 1024 * 1024 := rfl
  omega

end IrohSync
