import IrohSync.Sync.Connection

/-!
# Sessions that deadlock

The connecting side ends its loop only at an acknowledgment, which the accepting
side sends only in answer to a response or an acknowledgment.  After the one
response to the initial request both sides wait for the other, unless the
connecting side refuses the response.

Main results:

- Theorem {lit}`deadlock_reachable`: a session whose response is accepted
  reaches a deadlock.
- Theorem {lit}`Oversized.step_client` and {lit}`Oversized.step_server`: what
  holds along a session whose response is refused.
- Theorem {lit}`no_deadlock_iff`: exactly which sessions never deadlock.
-/

namespace IrohSync

open FileIo Framing ByteStream Interleaving

/-! ## The encoding -/

/-- The laws of the message encoding that a session relies on. -/
structure Wire.Lawful (wire : Wire) : Prop where
  /-- Decoding inverts encoding. -/
  decode_encode : ∀ {msg bytes}, wire.encode msg = .ok bytes → wire.decode bytes = .ok msg
  /-- No message is encoded as nothing. -/
  encode_ne_nil : ∀ {msg bytes}, wire.encode msg = .ok bytes → bytes ≠ []
  /-- Encodings delimit themselves: a cut encoding does not decode. -/
  decode_prefix : ∀ {msg bytes cut}, wire.encode msg = .ok bytes → cut <+: bytes →
    cut ≠ bytes → ∃ e, wire.decode cut = .error e

/-- The response to the initial request. -/
def firstResponse (client server : SyncManager) : SyncMessage :=
  (server.processMessage client.initialRequest server.offset).2

/-- The response leaves the server as it is and carries a batch. -/
theorem firstResponse_spec (client server : SyncManager) :
    ∃ batch, firstResponse client server = .response batch ∧
      server.processMessage client.initialRequest server.offset = (server, .response batch) :=
  ⟨_, rfl, rfl⟩

/-! ## A response that is accepted -/

/-- The accepting side answers the initial request with one response and waits
for the next message. -/
theorem request_answered {wire : Wire} (hwire : wire.Lawful) {client server : SyncManager}
    {request response : Bytes} (hrequest : wire.encode client.initialRequest = .ok request)
    (hsmall : request.length ≤ maxMessageSize)
    (hresponse : wire.encode (firstResponse client server) = .ok response) :
    (Connection.opened client server).Reaches wire
      { client := client
        clientAt := .readLength
        server := server
        serverAt := .readLength
        localOffset := server.offset
        toServer := .empty
        toClient := ⟨frame be response, false⟩ } := by
  rcases firstResponse_spec client server with ⟨batch, hbatch, hprocess⟩
  have hne := List.length_pos_iff.mpr (hwire.encode_ne_nil hrequest)
  have hsent : (Connection.opened client server).Reaches wire
      { client := client, clientAt := .readLength, server := server, serverAt := .readLength,
        localOffset := server.offset, toServer := ⟨frame be request, false⟩,
        toClient := .empty } := by
    refine Reaches.stepLeft Relation.ReflTransGen.refl _ ?_
    simp [connectAndSync, Connection.opened, hrequest, Stream.empty, Stream.write]
  have hlength := hsent.stepRight
      { client := client, clientAt := .readLength, server := server,
        serverAt := .readMessage request.length, localOffset := server.offset,
        toServer := ⟨request, false⟩, toClient := .empty } (by
    simp [handleConnection, readExact_frame, read_length_of_le hsmall,
      Nat.pos_iff_ne_zero.mp hne, Nat.not_lt.mpr hsmall])
  have hmessage := hlength.stepRight
      { client := client, clientAt := .readLength, server := server,
        serverAt := .respond client.initialRequest, localOffset := server.offset,
        toServer := .empty, toClient := .empty } (by
    simp [handleConnection, readExact_all, hwire.decode_encode hrequest, Stream.empty])
  refine hmessage.stepRight _ ?_
  rw [hbatch] at hresponse
  simp [handleConnection, hprocess, hresponse, Stream.empty, Stream.write]

/-- A session whose response is accepted reaches a deadlock. -/
theorem deadlock_reachable {wire : Wire} (hwire : wire.Lawful) {client server : SyncManager}
    {request response : Bytes} (hrequest : wire.encode client.initialRequest = .ok request)
    (hsmall : request.length ≤ maxMessageSize)
    (hresponse : wire.encode (firstResponse client server) = .ok response)
    (haccepted : response.length ≤ maxMessageSize) :
    ∃ conn, (Connection.opened client server).Reaches wire conn ∧ conn.Deadlocked := by
  rcases firstResponse_spec client server with ⟨batch, hbatch, _⟩
  have hne := List.length_pos_iff.mpr (hwire.encode_ne_nil hresponse)
  have hanswered := request_answered hwire hrequest hsmall hresponse
  have hlength := hanswered.stepLeft
      { client := client, clientAt := .readMessage response.length, server := server,
        serverAt := .readLength, localOffset := server.offset, toServer := .empty,
        toClient := ⟨response, false⟩ } (by
    simp [connectAndSync, readExact_frame, read_length_of_le haccepted,
      Nat.pos_iff_ne_zero.mp hne, Nat.not_lt.mpr haccepted])
  have happlied := hlength.stepLeft
      { client := (client.applyChanges batch.changes).1, clientAt := .readLength,
        server := server, serverAt := .readLength, localOffset := server.offset,
        toServer := .empty, toClient := .empty } (by
    rw [hbatch] at hresponse
    simp [connectAndSync, readExact_all, hwire.decode_encode hresponse, Stream.empty])
  exact ⟨_, happlied, rfl, rfl, rfl, rfl⟩

/-! ## A response that is refused -/

/-- The connecting side has left its loop. -/
def ClientAt.Ended : ClientAt → Prop
  | .signalEnd => True
  | .done => True
  | .failed => True
  | _ => False

/-- Along a session whose response is too large: the request is under way, or
the response is, or the connecting side reads a part of it that does not decode,
or it has left its loop. -/
inductive Oversized (wire : Wire) (client server : SyncManager) (request response : Bytes)
    (conn : Connection) : Prop where
  | start (hat : conn.clientAt = .start) (hconn : conn = .opened client server)
  | requested (hat : conn.clientAt = .readLength) (hserver : conn.server = server)
      (hoffset : conn.localOffset = server.offset) (htoClient : conn.toClient = .empty)
      (hrequest : (conn.serverAt = .readLength ∧ conn.toServer = ⟨frame be request, false⟩) ∨
        (conn.serverAt = .readMessage request.length ∧ conn.toServer = ⟨request, false⟩) ∨
        (conn.serverAt = .respond client.initialRequest ∧ conn.toServer = .empty))
  | responded (hat : conn.clientAt = .readLength) (hserverAt : conn.serverAt = .readLength)
      (htoServer : conn.toServer = .empty) (htoClient : conn.toClient = ⟨frame be response, false⟩)
  | cut (len : Nat) (hat : conn.clientAt = .readMessage len) (hpos : 0 < len)
      (hlen : len ≤ maxMessageSize) (hserverAt : conn.serverAt = .readLength)
      (htoServer : conn.toServer = .empty) (htoClient : conn.toClient = ⟨response, false⟩)
  | ended (hat : conn.clientAt.Ended)

/-- The accepting side never moves the connecting side. -/
theorem handleConnection_clientAt {wire : Wire} {conn conn' : Connection}
    (hstep : handleConnection wire conn = some conn') : conn'.clientAt = conn.clientAt := by
  cases hat : conn.serverAt with
  | readLength =>
      simp only [handleConnection, hat] at hstep
      split at hstep
      · contradiction
      · simp_all only [Option.some.injEq]
        exact hstep ▸ rfl
      · split_ifs at hstep <;> exact Option.some.inj hstep ▸ rfl
  | readMessage len =>
      simp only [handleConnection, hat] at hstep
      split at hstep
      · contradiction
      · exact Option.some.inj hstep ▸ rfl
      · split at hstep <;> exact Option.some.inj hstep ▸ rfl
  | respond request =>
      simp only [handleConnection, hat] at hstep
      split at hstep
      · exact Option.some.inj hstep ▸ rfl
      · split_ifs at hstep <;> exact Option.some.inj hstep ▸ rfl
  | finish =>
      simp only [handleConnection, hat, Option.some.injEq] at hstep
      exact hstep ▸ rfl
  | waitClosed =>
      simp only [handleConnection, hat] at hstep
      split at hstep
      · exact Option.some.inj hstep ▸ rfl
      · exact Option.some.inj hstep ▸ rfl
      · contradiction
  | done => simp [handleConnection, hat] at hstep
  | failed => simp [handleConnection, hat] at hstep

/-- The connecting side does not come back to its loop. -/
theorem ended_connectAndSync {wire : Wire} {conn conn' : Connection}
    (hended : conn.clientAt.Ended) (hstep : connectAndSync wire conn = some conn') :
    conn'.clientAt.Ended := by
  cases hat : conn.clientAt with
  | start => simp [hat, ClientAt.Ended] at hended
  | readLength => simp [hat, ClientAt.Ended] at hended
  | readMessage len => simp [hat, ClientAt.Ended] at hended
  | signalEnd =>
      simp only [connectAndSync, hat] at hstep
      split_ifs at hstep <;> exact Option.some.inj hstep ▸ trivial
  | done => simp [connectAndSync, hat] at hstep
  | failed => simp [connectAndSync, hat] at hstep

section

variable {wire : Wire} {client server : SyncManager} {request response : Bytes}

/-- A step of the connecting side along such a session. -/
theorem Oversized.step_client (hwire : wire.Lawful)
    (hrequest : wire.encode client.initialRequest = .ok request)
    (hresponse : wire.encode (firstResponse client server) = .ok response)
    (hlarge : maxMessageSize < response.length) {conn conn' : Connection}
    (h : Oversized wire client server request response conn)
    (hstep : connectAndSync wire conn = some conn') :
    Oversized wire client server request response conn' := by
  have hblocked := readExact_empty (Nat.succ_pos 3)
  cases h with
  | start hat hconn =>
      subst hconn
      simp [connectAndSync, Connection.opened, hrequest, Stream.empty, Stream.write] at hstep
      subst hstep
      exact .requested rfl rfl rfl rfl (Or.inl ⟨rfl, rfl⟩)
  | requested hat _ _ htoClient _ =>
      simp [connectAndSync, hat, htoClient, hblocked] at hstep
  | responded hat hserverAt htoServer htoClient =>
      simp only [connectAndSync, hat, htoClient, readExact_frame] at hstep
      split_ifs at hstep with hzero hmax
      · exact .ended (Option.some.inj hstep ▸ trivial)
      · exact .ended (Option.some.inj hstep ▸ trivial)
      · have hconn := (Option.some.inj hstep).symm
        subst hconn
        exact .cut _ rfl (Nat.pos_of_ne_zero hzero) (Nat.le_of_not_lt hmax) hserverAt htoServer rfl
  | cut len hat hpos hlen _ _ htoClient =>
      have hshort : len < response.length := Nat.lt_of_le_of_lt hlen hlarge
      have hread : Stream.readExact ⟨response, false⟩ len =
          .ok (response.take len) ⟨response.drop len, false⟩ :=
        readExact_of_le (Nat.le_of_lt hshort)
      have hne : response.take len ≠ response := by
        intro heq
        have hlength := congrArg List.length heq
        rw [List.length_take] at hlength
        omega
      rcases hwire.decode_prefix hresponse (List.take_prefix len response) hne with ⟨e, herror⟩
      simp only [connectAndSync, hat, htoClient, hread, herror, Option.some.injEq] at hstep
      exact .ended (hstep ▸ trivial)
  | ended hended => exact .ended (ended_connectAndSync hended hstep)

/-- A step of the accepting side along such a session. -/
theorem Oversized.step_server (hwire : wire.Lawful)
    (hrequest : wire.encode client.initialRequest = .ok request)
    (hsmall : request.length ≤ maxMessageSize)
    (hresponse : wire.encode (firstResponse client server) = .ok response)
    {conn conn' : Connection} (h : Oversized wire client server request response conn)
    (hstep : handleConnection wire conn = some conn') :
    Oversized wire client server request response conn' := by
  have hblocked := readExact_empty (Nat.succ_pos 3)
  have hclient := handleConnection_clientAt hstep
  cases h with
  | start hat hconn =>
      subst hconn
      simp [handleConnection, Connection.opened, hblocked] at hstep
  | requested hat hserver hoffset htoClient hphase =>
      rcases hphase with ⟨hserverAt, htoServer⟩ | ⟨hserverAt, htoServer⟩ | ⟨hserverAt, htoServer⟩
      · have hne := List.length_pos_iff.mpr (hwire.encode_ne_nil hrequest)
        simp only [handleConnection, hserverAt, htoServer, readExact_frame,
          read_length_of_le hsmall, if_neg (Nat.pos_iff_ne_zero.mp hne),
          if_neg (Nat.not_lt.mpr hsmall), Option.some.injEq] at hstep
        subst hstep
        exact .requested hat hserver hoffset htoClient (Or.inr (Or.inl ⟨rfl, rfl⟩))
      · simp only [handleConnection, hserverAt, htoServer, readExact_all,
          hwire.decode_encode hrequest, Option.some.injEq] at hstep
        subst hstep
        exact .requested hat hserver hoffset htoClient (Or.inr (Or.inr ⟨rfl, rfl⟩))
      · rw [firstResponse] at hresponse
        simp only [handleConnection, hserverAt, hserver, hoffset, hresponse, htoClient,
          Stream.empty, Stream.write, Bool.false_eq_true, if_false, List.nil_append,
          Option.some.injEq] at hstep
        subst hstep
        exact .responded hat rfl htoServer rfl
  | responded hat hserverAt htoServer htoClient =>
      simp [handleConnection, hserverAt, htoServer, hblocked] at hstep
  | cut len hat hpos hlen hserverAt htoServer htoClient =>
      simp [handleConnection, hserverAt, htoServer, hblocked] at hstep
  | ended hended => exact .ended (hclient ▸ hended)

/-- A stream with a frame in it is not empty. -/
theorem stream_frame_ne_empty (body : Bytes) (closed : Bool) :
    (⟨frame be body, closed⟩ : Stream) ≠ Stream.empty := by
  intro heq
  have hlength := congrArg (fun s => s.bytes.length) heq
  simp only [Stream.empty, List.length_nil, frame_length] at hlength
  omega

/-- No state along such a session is a deadlock. -/
theorem Oversized.not_deadlocked {conn : Connection}
    (h : Oversized wire client server request response conn) : ¬ conn.Deadlocked := by
  intro hdead
  have hat := hdead.clientAt
  cases h with
  | start hstart => simp [hstart] at hat
  | requested _ _ _ _ hphase =>
      rcases hphase with ⟨_, htoServer⟩ | ⟨hserverAt, _⟩ | ⟨hserverAt, _⟩
      · exact stream_frame_ne_empty _ _ (htoServer.symm.trans hdead.toServer)
      · simp [hdead.serverAt] at hserverAt
      · simp [hdead.serverAt] at hserverAt
  | responded _ _ _ htoClient =>
      exact stream_frame_ne_empty _ _ (htoClient.symm.trans hdead.toClient)
  | cut len hcut => simp [hcut] at hat
  | ended hended => simp [hat, ClientAt.Ended] at hended

end

/-! ## Exactly the sessions without a deadlock -/

/-- A session never deadlocks exactly if the response to its initial request is
larger than the connecting side accepts. -/
theorem no_deadlock_iff (wire : Wire) (hwire : wire.Lawful) (client server : SyncManager)
    (request response : Bytes) (hrequest : wire.encode client.initialRequest = .ok request)
    (hsmall : request.length ≤ maxMessageSize)
    (hresponse : wire.encode (firstResponse client server) = .ok response) :
    (∀ conn, (Connection.opened client server).Reaches wire conn → ¬ conn.Deadlocked) ↔
      maxMessageSize < response.length := by
  constructor
  · intro hnever
    by_contra haccepted
    rcases deadlock_reachable hwire hrequest hsmall hresponse (Nat.le_of_not_lt haccepted) with
      ⟨conn, hreach, hdead⟩
    exact hnever conn hreach hdead
  · intro hlarge conn hreach
    exact (Interleaving.invariant
      (fun _ _ h hstep => h.step_client hwire hrequest hresponse hlarge hstep)
      (fun _ _ h hstep => h.step_server hwire hrequest hsmall hresponse hstep)
      (Oversized.start rfl rfl) hreach).not_deadlocked

/-- The bytes of a text of the encoding. -/
def asciiBytes (text : String) : Bytes :=
  text.toList.map fun c => UInt8.ofNat c.toNat

/-- The encoding of a request for everything. -/
def sampleRequest : Bytes :=
  asciiBytes "\x7b\"type\":\"Request\",\"data\":\x7b\"offset\":0,\"limit\":1000\x7d\x7d"

/-- The encoding of an empty final response. -/
def sampleResponse : Bytes :=
  asciiBytes
    "\x7b\"type\":\"Response\",\"data\":\x7b\"offset\":0,\"changes\":[],\"is_final\":true\x7d\x7d"

/-- The encoding restricted to these two messages. -/
def sampleWire : Wire where
  encode msg :=
    if msg = .request 0 (some 1000) then .ok sampleRequest
    else if msg = .response ⟨0, [], true⟩ then .ok sampleResponse
    else .error "not a sample message"
  decode bytes :=
    if bytes = sampleRequest then .ok (.request 0 (some 1000))
    else if bytes = sampleResponse then .ok (.response ⟨0, [], true⟩)
    else .error "not the bytes of a sample message"

theorem sampleWire_decode_error {bytes : Bytes} (hrequest : bytes ≠ sampleRequest)
    (hresponse : bytes ≠ sampleResponse) : ∃ e, sampleWire.decode bytes = .error e :=
  ⟨"not the bytes of a sample message", by
    simp only [sampleWire, if_neg hrequest, if_neg hresponse]⟩

set_option maxRecDepth 10000 in
/-- Neither sample text begins with the other. -/
theorem sample_not_prefix :
    ¬ sampleResponse <+: sampleRequest ∧ ¬ sampleRequest <+: sampleResponse ∧
      sampleRequest ≠ [] ∧ sampleResponse ≠ [] := by
  decide

theorem sampleWire_lawful : sampleWire.Lawful where
  decode_encode := by
    intro msg bytes h
    simp only [sampleWire] at h ⊢
    split_ifs at h with hrequest hresponse
    · rw [← Except.ok.inj h, if_pos rfl, hrequest]
    · have hne : sampleResponse ≠ sampleRequest := fun heq =>
        sample_not_prefix.1 (heq ▸ List.prefix_refl _)
      rw [← Except.ok.inj h, if_neg hne, if_pos rfl, hresponse]
  encode_ne_nil := by
    intro msg bytes h
    simp only [sampleWire] at h
    split_ifs at h
    · exact Except.ok.inj h ▸ sample_not_prefix.2.2.1
    · exact Except.ok.inj h ▸ sample_not_prefix.2.2.2
  decode_prefix := by
    intro msg bytes cut h hcut hne
    simp only [sampleWire] at h
    split_ifs at h
    · have hbytes := Except.ok.inj h
      subst hbytes
      exact sampleWire_decode_error hne fun heq => sample_not_prefix.1 (heq ▸ hcut)
    · have hbytes := Except.ok.inj h
      subst hbytes
      exact sampleWire_decode_error (fun heq => sample_not_prefix.2.1 (heq ▸ hcut)) hne

theorem sampleWire_request (m : UInt64) :
    sampleWire.encode (SyncManager.new m).initialRequest = .ok sampleRequest :=
  rfl

theorem sampleWire_response (m m' : UInt64) :
    sampleWire.encode (firstResponse (SyncManager.new m) (SyncManager.new m')) =
      .ok sampleResponse :=
  rfl

set_option maxRecDepth 10000 in
/-- The sample texts are small messages. -/
theorem sample_small :
    sampleRequest.length ≤ maxMessageSize ∧ sampleResponse.length ≤ maxMessageSize := by
  decide

/-- The criterion for two new peers. -/
theorem no_deadlock_iff_sample :
    (∀ conn, (Connection.opened (SyncManager.new 10000) (SyncManager.new 10000)).Reaches
        sampleWire conn → ¬ conn.Deadlocked) ↔ maxMessageSize < sampleResponse.length :=
  no_deadlock_iff sampleWire sampleWire_lawful _ _ sampleRequest sampleResponse
    (sampleWire_request _) sample_small.1 (sampleWire_response _ _)

/-- A session of two new peers reaches a deadlock. -/
theorem deadlock_of_new_peers :
    ∃ conn, (Connection.opened (SyncManager.new 10000) (SyncManager.new 10000)).Reaches
      sampleWire conn ∧ conn.Deadlocked :=
  deadlock_reachable sampleWire_lawful (sampleWire_request _) sample_small.1
    (sampleWire_response _ _) sample_small.2

end IrohSync
