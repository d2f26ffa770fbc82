import IrohSync.Discovery.Tickets
import IrohSync.Lib.Attempts
import IrohSync.Lib.Json

/-!
# Connecting with a ticket

A replicator that gets a ticket tries the addresses in it one after the other.  If there
are none it asks the discovery manager, which leaves the search to the connection
attempt and answers with no address; so no attempt is made.  A replicator's own tickets
carry no address.

What an attempt does is a parameter: it may do anything and end in any way.

Main results:

- Theorem {lit}`connectTicket_eq`: what a started replicator does with a generated ticket.
- Theorem {lit}`tickets_connect_iff`: which tickets connect;
  {lit}`connects_iff_of_own`: among those with addresses of their own endpoint only.
-/

namespace IrohSync

namespace Discovery

variable {ω ι α : Type}

/-- An endpoint, known by its public key. -/
structure Endpoint (ι : Type) where
  publicKey : ι

/-- The inner state of a replicator. -/
structure ReplicatorInner (ι : Type) where
  endpoint : Option (Endpoint ι)
  discovery : Option (DiscoveryManager ι)
  running : Bool

namespace ReplicatorInner

/-- Create a new replicator. -/
def new : ReplicatorInner ι where
  endpoint := none
  discovery := none
  running := false

/-- Start the replicator; the endpoint is bound or an error is returned. -/
def start (r : ReplicatorInner ι) (bound : Except Error (Endpoint ι)) :
    ReplicatorInner ι × Except Error Unit :=
  if r.running then (r, .error (.other "replicator already started"))
  else
    match bound with
    | .error e => ({ r with running := true }, .error e)
    | .ok endpoint =>
        ({ endpoint := some endpoint, discovery := some .new, running := true }, .ok ())

/-- Generate a ticket for sharing our address. -/
def generateTicket (format : TicketFormat ι α) (r : ReplicatorInner ι) : Except Error String :=
  match r.endpoint with
  | none => .error (.other "replicator not started")
  | some endpoint =>
      match r.discovery with
      | none => .error (.other "replicator not started")
      | some discovery => discovery.generateTicket format endpoint.publicKey []

end ReplicatorInner

/-- What a call did: the attempts it made, in order, and what it returned. -/
structure Connecting (ω ι α : Type) where
  world : ω
  attempts : List (EndpointAddr ι α × Except Error Unit)
  result : Except Error Unit

/-- A call that fails before any attempt. -/
def Connecting.failed (world : ω) (e : Error) : Connecting ω ι α where
  world := world
  attempts := []
  result := .error e

/-- Connect to a peer using its ticket. -/
def ReplicatorInner.connectTicket [ToString ι] (format : TicketFormat ι α)
    (connectAndSync : ω → EndpointAddr ι α → ω × Except Error Unit) (r : ReplicatorInner ι)
    (ticket : String) (world : ω) : Connecting ω ι α :=
  match parseTicket format ticket with
  | .error e => .failed world e
  | .ok (endpointId, addrs) =>
      let addrs :=
        if addrs.isEmpty then
          match r.discovery with
          | some discovery => discovery.discover endpointId
          | none => .error (.other "discovery not initialized")
        else .ok addrs
      match addrs with
      | .error e => .failed world e
      | .ok addrs =>
          match r.endpoint with
          | none => .failed world (.other "replicator not started")
          | some _ =>
              let tried := Attempts.run connectAndSync world addrs
              { world := tried.state
                attempts := tried.log
                result :=
                  if tried.succeeded then .ok ()
                  else .error (.peerNotFound (toString endpointId)) }

/-- A ticket connects: the peer is tried, the addresses in the ticket are tried in order
until the first success, and the result says whether there was one. -/
structure Connects (endpointId : ι) (addrs : List (EndpointAddr ι α))
    (c : Connecting ω ι α) : Prop where
  attempted : ∃ attempt ∈ c.attempts, attempt.1.id = endpointId
  inOrder : addrs ≠ [] → c.attempts.map Prod.fst <+: addrs
  stops : ∀ front addr back, c.attempts = front ++ (addr, .ok ()) :: back → back = []
  ok_iff : c.result = .ok () ↔ ∃ attempt ∈ c.attempts, attempt.2 = .ok ()
  peerNotFound : ∀ name, c.result = .error (.peerNotFound name) →
    (addrs ≠ [] → c.attempts.map Prod.fst = addrs) ∧
      ∀ attempt ∈ c.attempts, attempt.2 ≠ .ok ()

/-- A replicator was started and not shut down. -/
structure ReplicatorInner.Started (r : ReplicatorInner ι) : Prop where
  endpoint : r.endpoint ≠ none
  discovery : r.discovery ≠ none

/-- Starting a new replicator starts it unless an error is returned. -/
theorem started_of_start {bound : Except Error (Endpoint ι)}
    (hstart : (ReplicatorInner.new.start bound).2 = .ok ()) :
    (ReplicatorInner.new.start bound).1.Started := by
  cases bound with
  | error e => contradiction
  | ok endpoint => exact ⟨Option.some_ne_none endpoint, Option.some_ne_none _⟩

/-- A replicator's own tickets are those of its discovery manager without an address. -/
theorem ReplicatorInner.generateTicket_ok {format : TicketFormat ι α}
    {sender : ReplicatorInner ι} {ticket : String}
    (hticket : sender.generateTicket format = .ok ticket) :
    ∃ (endpoint : Endpoint ι) (discovery : DiscoveryManager ι),
      sender.endpoint = some endpoint ∧
        discovery.generateTicket format endpoint.publicKey [] = .ok ticket := by
  unfold ReplicatorInner.generateTicket at hticket
  cases hendpoint : sender.endpoint with
  | none =>
      rw [hendpoint] at hticket
      contradiction
  | some endpoint =>
      cases hdiscovery : sender.discovery with
      | none =>
          rw [hendpoint, hdiscovery] at hticket
          contradiction
      | some discovery =>
          rw [hendpoint, hdiscovery] at hticket
          exact ⟨endpoint, discovery, rfl, hticket⟩

section Calls

variable [ToString ι] {format : TicketFormat ι α}
  {connectAndSync : ω → EndpointAddr ι α → ω × Except Error Unit} {r : ReplicatorInner ι}
  {endpointId : ι} {addrs : List (EndpointAddr ι α)} {ticket : String}

/-- A started replicator tries the addresses of a ticket and no other ones: discovery
adds none. -/
theorem connectTicket_eq (hstarted : r.Started)
    (hticket : parseTicket format ticket = .ok (endpointId, addrs)) (world : ω) :
    r.connectTicket format connectAndSync ticket world =
      { world := (Attempts.run connectAndSync world addrs).state
        attempts := (Attempts.run connectAndSync world addrs).log
        result :=
          if (Attempts.run connectAndSync world addrs).succeeded then .ok ()
          else .error (.peerNotFound (toString endpointId)) } := by
  rcases Option.ne_none_iff_exists'.mp hstarted.endpoint with ⟨endpoint, hendpoint⟩
  rcases Option.ne_none_iff_exists'.mp hstarted.discovery with ⟨discovery, hdiscovery⟩
  unfold ReplicatorInner.connectTicket
  rw [hticket]
  cases addrs with
  | nil => simp only [List.isEmpty_nil, if_true, hdiscovery, hendpoint,
      DiscoveryManager.discover]
  | cons addr addrs => simp only [List.isEmpty_cons, Bool.false_eq_true, if_false, hendpoint]

/-- A call is as it should be if it tries the peer at all. -/
theorem connects_iff_attempted (hstarted : r.Started)
    (hticket : parseTicket format ticket = .ok (endpointId, addrs)) (world : ω) :
    Connects endpointId addrs (r.connectTicket format connectAndSync ticket world) ↔
      ∃ attempt ∈ (r.connectTicket format connectAndSync ticket world).attempts,
        attempt.1.id = endpointId := by
  refine ⟨fun h => h.attempted, fun hattempted => ?_⟩
  rw [connectTicket_eq hstarted hticket] at hattempted ⊢
  have hsucceeded : (Attempts.run connectAndSync world addrs).succeeded ↔ _ :=
    Attempts.succeeded_iff world addrs
  refine ⟨hattempted, fun _ => Attempts.run_inOrder world addrs,
    fun _ _ _ => Attempts.run_stops, ?_, fun name hname => ?_⟩
  · rw [← hsucceeded]
    by_cases h : (Attempts.run connectAndSync world addrs).succeeded
    · simp [h]
    · simp [h]
  · have hfailed : ¬ (Attempts.run connectAndSync world addrs).succeeded := by
      intro h
      rw [if_pos h] at hname
      contradiction
    refine ⟨fun _ => Attempts.run_all hfailed, fun attempt hmem hok => ?_⟩
    exact hfailed (hsucceeded.mpr ⟨attempt, hmem, hok⟩)

/-- A ticket connects exactly if an address of its peer is reached. -/
theorem connects_iff_reaches (hformat : format.Lawful) (hstarted : r.Started)
    {discovery : DiscoveryManager ι}
    (hticket : discovery.generateTicket format endpointId addrs = .ok ticket) (world : ω) :
    Connects endpointId addrs (r.connectTicket format connectAndSync ticket world) ↔
      Attempts.Reaches connectAndSync (fun addr => addr.id = endpointId) world addrs := by
  have hparse := parseTicket_generateTicket hformat hticket
  rw [connects_iff_attempted hstarted hparse, connectTicket_eq hstarted hparse,
    ← Attempts.exists_attempt_iff]

/-- A ticket with addresses of its own peer only connects exactly if there are any. -/
theorem connects_iff_of_own (hformat : format.Lawful) (hstarted : r.Started)
    {discovery : DiscoveryManager ι}
    (hticket : discovery.generateTicket format endpointId addrs = .ok ticket)
    (hown : ∀ addr ∈ addrs, addr.id = endpointId) (world : ω) :
    Connects endpointId addrs (r.connectTicket format connectAndSync ticket world) ↔
      addrs ≠ [] := by
  rw [connects_iff_reaches hformat hstarted hticket, Attempts.reaches_of_forall hown]

end Calls

/-! ## Samples -/

/-- The identifier of a replicator. -/
def ownId : String :=
  "5d61ba8e0b1dd6a9c2dbfeb5d6b0dc6d3b5a4f3bbf0c4f1f0b9e3a7c2d1e4f60"

/-- The identifier of a peer. -/
def peerId : String :=
  "ae58ff8833241ac82d6ff7611046ed67b5072d142c588d0063e942d9a75502b6"

/-- An address of the peer. -/
def peerAddr : EndpointAddr String String where
  id := peerId
  addrs := ["192.0.2.1:4433"]

/-- The value of a ticket whose identifiers and addresses are text. -/
def TicketData.toJson (ticketData : TicketData String String) : Json.Value :=
  .obj [
    ("endpoint_id", .str ticketData.endpointId),
    ("addresses", .arr (ticketData.addresses.map fun addr =>
      .obj [("id", .str addr.id), ("addrs", .arr (addr.addrs.map fun ip =>
        .obj [("Ip", .str ip)]))]))]

/-- The JSON format on one ticket. -/
def formatOf (ticketData : TicketData String String) : TicketFormat String String where
  toVec := fun data =>
    if data = ticketData then .ok ticketData.toJson.bytes else .error "not the sample"
  fromSlice := fun bytes =>
    if bytes = ticketData.toJson.bytes then .ok ticketData else .error "not the sample"

theorem formatOf_lawful (ticketData : TicketData String String) :
    (formatOf ticketData).Lawful where
  fromSlice_toVec := by
    intro data bytes h
    simp only [formatOf] at h ⊢
    split_ifs at h with hdata
    rw [if_pos (Except.ok.inj h).symm, hdata]

theorem generateTicket_formatOf (discovery : DiscoveryManager String) (endpointId : String)
    (addrs : List (EndpointAddr String String)) :
    discovery.generateTicket (formatOf ⟨endpointId, addrs⟩) endpointId addrs =
      .ok (base64UrlEncode (TicketData.toJson ⟨endpointId, addrs⟩).bytes) := by
  simp only [DiscoveryManager.generateTicket, formatOf, if_true]

/-- A replicator that was started. -/
def startedReplicator : ReplicatorInner String :=
  (ReplicatorInner.new.start (.ok ⟨ownId⟩)).1

theorem startedReplicator_started : startedReplicator.Started :=
  started_of_start rfl

/-- Every attempt succeeds. -/
def reachable (attempts : Nat) (_ : EndpointAddr String String) : Nat × Except Error Unit :=
  (attempts + 1, .ok ())

/-! ## Tickets that connect -/

/-- A ticket connects exactly if an address of its peer is reached, that is, comes up
before an attempt with another address succeeds; and no ticket that a replicator hands
out connects. -/
theorem tickets_connect_iff [ToString ι] (format : TicketFormat ι α) (hformat : format.Lawful)
    (connectAndSync : ω → EndpointAddr ι α → ω × Except Error Unit) (r : ReplicatorInner ι)
    (hstarted : r.Started) (world : ω) :
    (∀ (discovery : DiscoveryManager ι) (endpointId : ι) (addrs : List (EndpointAddr ι α))
        (ticket : String), discovery.generateTicket format endpointId addrs = .ok ticket →
        (Connects endpointId addrs (r.connectTicket format connectAndSync ticket world) ↔
          Attempts.Reaches connectAndSync (fun addr => addr.id = endpointId) world addrs)) ∧
      ∀ (sender : ReplicatorInner ι) (ticket : String),
        sender.generateTicket format = .ok ticket →
        ∀ endpoint ∈ sender.endpoint,
          ¬ Connects endpoint.publicKey []
            (r.connectTicket format connectAndSync ticket world) := by
  refine ⟨fun discovery endpointId addrs ticket hticket =>
    connects_iff_reaches hformat hstarted hticket world, ?_⟩
  intro sender ticket hticket endpoint hmem
  rcases ReplicatorInner.generateTicket_ok hticket with ⟨endpoint', discovery, hendpoint, hticket⟩
  rw [hendpoint, Option.mem_some_iff] at hmem
  rw [← hmem, connects_iff_reaches hformat hstarted hticket]
  exact id

/-- A ticket with an address of its peer connects. -/
theorem tickets_connect_iff_sample :
    Connects peerId [peerAddr]
      (startedReplicator.connectTicket (formatOf ⟨peerId, [peerAddr]⟩) reachable
        (base64UrlEncode (TicketData.toJson ⟨peerId, [peerAddr]⟩).bytes) 0) :=
  ((tickets_connect_iff _ (formatOf_lawful _) reachable startedReplicator
    startedReplicator_started 0).1 .new peerId [peerAddr] _
    (generateTicket_formatOf .new _ _)).mpr (Or.inl rfl)

/-- A replicator's own ticket does not connect though every attempt would succeed. -/
theorem not_connects_own :
    ∃ ticket, startedReplicator.generateTicket (formatOf ⟨ownId, []⟩) = .ok ticket ∧
      ¬ Connects ownId []
        (startedReplicator.connectTicket (formatOf ⟨ownId, []⟩) reachable ticket 0) := by
  have hticket := generateTicket_formatOf .new ownId []
  refine ⟨_, hticket, fun hconnects => ?_⟩
  exact (connects_iff_reaches (formatOf_lawful _) startedReplicator_started hticket 0).mp hconnects

end Discovery

end IrohSync
