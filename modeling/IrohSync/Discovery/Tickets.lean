import IrohSync.Common
import IrohSync.Error

/-!
# Tickets

A ticket carries the identifier of an endpoint and addresses under which it can be
reached, as base64 text of a JSON document.  The JSON format, which a library
provides, is a parameter.

Main results:

- Theorem {lit}`parseTicket_generateTicket`: a generated ticket is parsed to what it was
  generated for.
-/

namespace IrohSync

namespace Discovery

open FileIo

/-- An endpoint and what is known of where it is. -/
structure EndpointAddr (ι α : Type) where
  id : ι
  addrs : List α
deriving DecidableEq, Repr

/-- Data encoded in a connection ticket. -/
structure TicketData (ι α : Type) where
  endpointId : ι
  addresses : List (EndpointAddr ι α)
deriving DecidableEq, Repr

/-- The JSON format of tickets. -/
structure TicketFormat (ι α : Type) where
  toVec : TicketData ι α → Except String Bytes
  fromSlice : Bytes → Except String (TicketData ι α)

/-- What was written is read back. -/
structure TicketFormat.Lawful {ι α : Type} (format : TicketFormat ι α) : Prop where
  fromSlice_toVec : ∀ {data bytes}, format.toVec data = .ok bytes →
    format.fromSlice bytes = .ok data

/-- Manages peer discovery across multiple mechanisms. -/
structure DiscoveryManager (ι : Type) where
  selfEndpointId : Option ι

variable {ι α : Type}

/-- Create a new discovery manager. -/
def DiscoveryManager.new : DiscoveryManager ι where
  selfEndpointId := none

/-- Parse a ticket string into connection info. -/
def parseTicket (format : TicketFormat ι α) (ticket : String) :
    Except Error (ι × List (EndpointAddr ι α)) :=
  match base64UrlDecode ticket with
  | .error e => .error (.invalidTicket e)
  | .ok bytes =>
      match format.fromSlice bytes with
      | .error e => .error (.invalidTicket e)
      | .ok ticketData => .ok (ticketData.endpointId, ticketData.addresses)

/-- Generate a ticket string for sharing an address. -/
def DiscoveryManager.generateTicket (format : TicketFormat ι α) (_ : DiscoveryManager ι)
    (endpointId : ι) (addrs : List (EndpointAddr ι α)) : Except Error String :=
  match format.toVec ⟨endpointId, addrs⟩ with
  | .error e => .error (.encoding e)
  | .ok bytes => .ok (base64UrlEncode bytes)

/-- Discover addresses for a peer by its endpoint identifier: this is left to the
connection attempt. -/
def DiscoveryManager.discover (_ : DiscoveryManager ι) (_ : ι) :
    Except Error (List (EndpointAddr ι α)) :=
  .ok []

/-- A generated ticket is parsed to what it was generated for. -/
theorem parseTicket_generateTicket {format : TicketFormat ι α} (hformat : format.Lawful)
    {discovery : DiscoveryManager ι} {endpointId : ι} {addrs : List (EndpointAddr ι α)}
    {ticket : String} (hticket : discovery.generateTicket format endpointId addrs = .ok ticket) :
    parseTicket format ticket = .ok (endpointId, addrs) := by
  unfold DiscoveryManager.generateTicket at hticket
  cases hbytes : format.toVec ⟨endpointId, addrs⟩ with
  | error e =>
      rw [hbytes] at hticket
      contradiction
  | ok bytes =>
      rw [hbytes] at hticket
      rw [parseTicket, ← Except.ok.inj hticket, base64UrlDecode_encode]
      simp only [hformat.fromSlice_toVec hbytes]

end Discovery

end IrohSync
