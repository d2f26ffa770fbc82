import IrohSync.Discovery.Tickets
import IrohSync.Lib.Machine
import IrohSync.Sync.PeerStates

/-!
# Discovered peers

The discovery manager keeps a list of the peers that were recorded.  Recording a peer replaces
what was known of it and takes everything out that has expired by then; a connection that
succeeds is noted with the peer, if it is still listed.  The trimming makes no difference to
what is valid.

Main results:

- Theorem {lit}`Current.next`: what an event does to the list, seen from a book of the latest
  records that is never trimmed.
- Theorem {lit}`valid_peers_latest`: the valid peers are the latest records that are valid.
-/

namespace IrohSync

namespace Discovery

open Machine

variable {ι α : Type}

/-! ## Peers -/

/-- How a peer was discovered. -/
inductive DiscoveryMethod where
  | dns
  | mdns
  | manual
  | relay
deriving DecidableEq, Repr

/-- A discovered peer. -/
structure DiscoveredPeer (ι α : Type) where
  endpointId : ι
  addresses : List (EndpointAddr ι α)
  discoveryMethod : DiscoveryMethod
  discoveredAt : Instant
  name : Option String
  lastConnected : Option Instant
deriving DecidableEq, Repr

/-- Check if a peer is still valid; a time that lies ahead has not elapsed. -/
def DiscoveredPeer.isValid (peer : DiscoveredPeer ι α) (maxAge : Nat) (now : Instant) : Bool :=
  now - peer.discoveredAt < maxAge

/-- Mark a peer as successfully connected. -/
def DiscoveredPeer.markConnected (peer : DiscoveredPeer ι α) (now : Instant) :
    DiscoveredPeer ι α :=
  { peer with lastConnected := some now }

/-- Peers are valid for five minutes. -/
def maxPeerAge : Nat := 300000000000

/-- A discovery manager with its discovered peers. -/
structure Directory (ι α : Type) where
  manager : DiscoveryManager ι
  discoveredPeers : List (DiscoveredPeer ι α)

namespace Directory

/-- Create a new discovery manager. -/
def new : Directory ι α where
  manager := .new
  discoveredPeers := []

variable [DecidableEq ι]

/-- Update the first peer with an identifier. -/
def updateFirst (endpointId : ι) (f : DiscoveredPeer ι α → DiscoveredPeer ι α) :
    List (DiscoveredPeer ι α) → List (DiscoveredPeer ι α)
  | [] => []
  | peer :: peers =>
      if peer.endpointId = endpointId then f peer :: peers
      else peer :: updateFirst endpointId f peers

/-- Record a discovered peer. -/
def recordPeer (s : Directory ι α) (peer : DiscoveredPeer ι α) (now : Instant) :
    Directory ι α :=
  let peers :=
    if s.discoveredPeers.any fun p => decide (p.endpointId = peer.endpointId) then
      updateFirst peer.endpointId (fun _ => peer) s.discoveredPeers
    else s.discoveredPeers ++ [peer]
  { s with discoveredPeers := peers.filter fun p => p.isValid maxPeerAge now }

/-- Get the valid peers. -/
def validPeers (s : Directory ι α) (now : Instant) : List (DiscoveredPeer ι α) :=
  s.discoveredPeers.filter fun p => p.isValid maxPeerAge now

/-- Get the count of known peers. -/
def peerCount (s : Directory ι α) : Nat :=
  s.discoveredPeers.length

/-- Connect to a peer using its endpoint identifier; the attempt has an outcome. -/
def connectToPeer (s : Directory ι α) (endpointId : ι) (outcome : Except String Unit)
    (now : Instant) : Directory ι α × Except Error Unit :=
  if s.manager.selfEndpointId = some endpointId then
    (s, .error (.other "cannot connect to self"))
  else
    match outcome with
    | .error e => (s, .error (.connection ("failed to connect to peer: " ++ e)))
    | .ok () =>
        ({ s with
            discoveredPeers :=
              updateFirst endpointId (fun peer => peer.markConnected now) s.discoveredPeers },
          .ok ())

/-- Clear all discovered peers. -/
def clearPeers (s : Directory ι α) : Directory ι α :=
  { s with discoveredPeers := [] }

end Directory

/-! ## Runs -/

/-- A call of a discovery manager. -/
inductive PeerEvent (ι α : Type) where
  | setSelf (endpointId : ι)
  | record (peer : DiscoveredPeer ι α) (now : Instant)
  | connect (endpointId : ι) (outcome : Except String Unit) (now : Instant)
  | clear

/-- The time of a call at which the clock is read. -/
def PeerEvent.time : PeerEvent ι α → Option Instant
  | .record _ now => some now
  | .connect _ _ now => some now
  | .setSelf _ => none
  | .clear => none

/-- The latest record of each peer, with the latest connection behind it. -/
structure Book (ι α : Type) where
  selfEndpointId : Option ι
  latest : ι → Option (DiscoveredPeer ι α)

/-- An empty book. -/
def Book.new : Book ι α where
  selfEndpointId := none
  latest := fun _ => none

section

variable [DecidableEq ι]

/-- The state after a call. -/
def Directory.next (s : Directory ι α) : PeerEvent ι α → Directory ι α
  | .setSelf endpointId => { s with manager := { selfEndpointId := some endpointId } }
  | .record peer now => s.recordPeer peer now
  | .connect endpointId outcome now => (s.connectToPeer endpointId outcome now).1
  | .clear => s.clearPeers

/-- What a call returns. -/
def Directory.answer (s : Directory ι α) : PeerEvent ι α → Except Error Unit
  | .connect endpointId outcome now => (s.connectToPeer endpointId outcome now).2
  | _ => .ok ()

/-- The book after a call; nothing is trimmed. -/
def Book.next (b : Book ι α) : PeerEvent ι α → Book ι α
  | .setSelf endpointId => { b with selfEndpointId := some endpointId }
  | .record peer _ => { b with latest := Function.update b.latest peer.endpointId (some peer) }
  | .connect endpointId outcome now =>
      if b.selfEndpointId ≠ some endpointId ∧ outcome = .ok () then
        { b with
          latest := Function.update b.latest endpointId
            ((b.latest endpointId).map fun peer => peer.markConnected now) }
      else b
  | .clear => { b with latest := fun _ => none }

/-- What a call should return. -/
def Book.answer (b : Book ι α) : PeerEvent ι α → Except Error Unit
  | .connect endpointId outcome _ =>
      if b.selfEndpointId = some endpointId then .error (.other "cannot connect to self")
      else outcome.mapError fun e => .connection ("failed to connect to peer: " ++ e)
  | _ => .ok ()

/-- Calls of a discovery manager. -/
def directory : Machine (Directory ι α) (PeerEvent ι α) (Except Error Unit) where
  next := Directory.next
  answer := Directory.answer

/-- The same calls, written down in a book. -/
def book : Machine (Book ι α) (PeerEvent ι α) (Except Error Unit) where
  next := Book.next
  answer := Book.answer

end

/-! ## Updating a peer -/

/-- The identifiers of peers are distinct. -/
def DistinctIds (peers : List (DiscoveredPeer ι α)) : Prop :=
  (peers.map DiscoveredPeer.endpointId).Nodup

section

variable [DecidableEq ι] {endpointId : ι} {f : DiscoveredPeer ι α → DiscoveredPeer ι α}
  {peers : List (DiscoveredPeer ι α)}

/-- An update that keeps identifiers keeps them all. -/
theorem map_updateFirst
    (hf : ∀ peer, peer.endpointId = endpointId → (f peer).endpointId = endpointId) :
    (Directory.updateFirst endpointId f peers).map DiscoveredPeer.endpointId =
      peers.map DiscoveredPeer.endpointId := by
  induction peers with
  | nil => rfl
  | cons peer peers ih =>
      rw [Directory.updateFirst]
      split
      · next hsame => rw [List.map_cons, List.map_cons, hf peer hsame, hsame]
      · rw [List.map_cons, List.map_cons, ih]

/-- The peers after an update: the updated one, and the others. -/
theorem mem_updateFirst (hdistinct : DistinctIds peers) {p : DiscoveredPeer ι α} :
    p ∈ Directory.updateFirst endpointId f peers ↔ (p ∈ peers ∧ p.endpointId ≠ endpointId) ∨
      ∃ old ∈ peers, old.endpointId = endpointId ∧ p = f old := by
  induction peers with
  | nil => simp [Directory.updateFirst]
  | cons peer peers ih =>
      rcases List.nodup_cons.mp hdistinct with ⟨hfresh, hrest⟩
      have hne : ∀ q ∈ peers, q.endpointId ≠ peer.endpointId := fun q hq heq =>
        hfresh (heq ▸ List.mem_map_of_mem hq)
      rw [Directory.updateFirst]
      split
      · next hsame =>
          subst hsame
          rw [List.mem_cons, List.exists_mem_cons_iff]
          constructor
          · rintro (rfl | hp)
            · exact Or.inr (Or.inl ⟨rfl, rfl⟩)
            · exact Or.inl ⟨List.mem_cons_of_mem _ hp, hne p hp⟩
          · rintro (⟨hp, hother⟩ | ⟨_, rfl⟩ | ⟨old, hold, hsame, _⟩)
            · rcases List.mem_cons.mp hp with rfl | hp
              · exact absurd rfl hother
              · exact Or.inr hp
            · exact Or.inl rfl
            · exact absurd hsame (hne old hold)
      · next hother =>
          rw [List.mem_cons, ih hrest, List.mem_cons, List.exists_mem_cons_iff, or_and_right,
            or_assoc]
          constructor
          · rintro (rfl | hp | hold)
            · exact Or.inl ⟨rfl, hother⟩
            · exact Or.inr (Or.inl hp)
            · exact Or.inr (Or.inr (Or.inr hold))
          · rintro (⟨rfl, _⟩ | hp | ⟨hsame, _⟩ | hold)
            · exact Or.inl rfl
            · exact Or.inr (Or.inl hp)
            · exact absurd hsame hother
            · exact Or.inr (Or.inr hold)

end

/-! ## The list and the book -/

/-- A peer that is valid was valid before. -/
theorem DiscoveredPeer.isValid_mono {peer : DiscoveredPeer ι α} {maxAge : Nat} {t now : Instant}
    (hle : t ≤ now) (hvalid : peer.isValid maxAge now = true) : peer.isValid maxAge t = true := by
  simp only [isValid, decide_eq_true_eq] at hvalid ⊢
  exact Nat.lt_of_le_of_lt (Nat.sub_le_sub_right hle _) hvalid

/-- At a time the list holds latest records only, each once, and all that are valid. -/
structure Current (s : Directory ι α) (b : Book ι α) (now : Instant) : Prop where
  selfEndpointId : s.manager.selfEndpointId = b.selfEndpointId
  distinct : DistinctIds s.discoveredPeers
  latest : ∀ p ∈ s.discoveredPeers, b.latest p.endpointId = some p
  listed : ∀ endpointId p, b.latest endpointId = some p → p.endpointId = endpointId ∧
    (p.isValid maxPeerAge now = true → p ∈ s.discoveredPeers)

theorem current_new (now : Instant) : Current (.new : Directory ι α) .new now :=
  ⟨rfl, List.nodup_nil, fun _ hp => absurd hp List.not_mem_nil, fun _ _ hp => nomatch hp⟩

variable {s : Directory ι α} {b : Book ι α} {t now : Instant}

/-- Later there may be fewer valid ones. -/
theorem Current.later (h : Current s b t) (hle : t ≤ now) : Current s b now where
  selfEndpointId := h.selfEndpointId
  distinct := h.distinct
  latest := h.latest
  listed := fun endpointId p hp => ⟨(h.listed endpointId p hp).1, fun hvalid =>
    (h.listed endpointId p hp).2 (DiscoveredPeer.isValid_mono hle hvalid)⟩

/-- What has expired may be taken out. -/
theorem Current.trim (h : Current s b now) :
    Current { s with
      discoveredPeers := s.discoveredPeers.filter fun p => p.isValid maxPeerAge now } b now where
  selfEndpointId := h.selfEndpointId
  distinct := h.distinct.sublist (List.filter_sublist.map _)
  latest := fun p hp => h.latest p (List.mem_of_mem_filter hp)
  listed := fun endpointId p hp => ⟨(h.listed endpointId p hp).1, fun hvalid =>
    List.mem_filter.mpr ⟨(h.listed endpointId p hp).2 hvalid, hvalid⟩⟩

variable [DecidableEq ι]

/-- A record replaces an earlier one or is put behind the others. -/
theorem Current.put (h : Current s b now) (peer : DiscoveredPeer ι α) :
    Current { s with
      discoveredPeers :=
        if s.discoveredPeers.any fun p => decide (p.endpointId = peer.endpointId) then
          Directory.updateFirst peer.endpointId (fun _ => peer) s.discoveredPeers
        else s.discoveredPeers ++ [peer] }
      { b with latest := Function.update b.latest peer.endpointId (some peer) } now := by
  -- in both cases these are the peers that are listed then
  have hmem : ∀ p, (p ∈ if s.discoveredPeers.any fun p => decide (p.endpointId = peer.endpointId)
      then Directory.updateFirst peer.endpointId (fun _ => peer) s.discoveredPeers
      else s.discoveredPeers ++ [peer]) ↔
        (p ∈ s.discoveredPeers ∧ p.endpointId ≠ peer.endpointId) ∨ p = peer := by
    intro p
    split
    · next hany =>
        rcases List.any_eq_true.mp hany with ⟨old, hold, hsame⟩
        rw [mem_updateFirst h.distinct]
        refine or_congr_right ⟨fun hnew => ?_, fun hnew =>
          ⟨old, hold, of_decide_eq_true hsame, hnew⟩⟩
        rcases hnew with ⟨_, _, _, hp⟩
        exact hp
    · next hnone =>
        rw [List.mem_append, List.mem_singleton]
        refine or_congr_left ⟨fun hp => ⟨hp, fun hsame => hnone ?_⟩, And.left⟩
        exact List.any_eq_true.mpr ⟨p, hp, decide_eq_true hsame⟩
  refine ⟨h.selfEndpointId, ?_, fun p hp => ?_, fun endpointId p hp => ?_⟩ <;>
    dsimp only at *
  · split
    · rw [DistinctIds, map_updateFirst fun _ _ => rfl]
      exact h.distinct
    · next hnone =>
        rw [DistinctIds, List.map_append, List.nodup_append]
        refine ⟨h.distinct, List.nodup_singleton _, fun x hx y hy hxy => hnone ?_⟩
        rcases List.mem_map.mp hx with ⟨p, hp, rfl⟩
        rw [List.map_singleton, List.mem_singleton] at hy
        exact List.any_eq_true.mpr ⟨p, hp, decide_eq_true (hxy.trans hy)⟩
  · rcases (hmem p).mp hp with ⟨hold, hne⟩ | rfl
    · rw [Function.update_of_ne hne]
      exact h.latest p hold
    · exact Function.update_self ..
  · by_cases hsame : endpointId = peer.endpointId
    · subst hsame
      rw [Function.update_self] at hp
      obtain rfl := Option.some.inj hp
      exact ⟨rfl, fun _ => (hmem _).mpr (Or.inr rfl)⟩
    · rw [Function.update_of_ne hsame] at hp
      rcases h.listed endpointId p hp with ⟨hid, hvalid⟩
      exact ⟨hid, fun hnow => (hmem p).mpr (Or.inl ⟨hvalid hnow, hid ▸ hsame⟩)⟩

/-- A connection is noted with its peer. -/
theorem Current.markConnected (h : Current s b now) (endpointId : ι) (connected : Instant) :
    Current { s with
      discoveredPeers := Directory.updateFirst endpointId
        (fun peer => peer.markConnected connected) s.discoveredPeers }
      { b with
        latest := Function.update b.latest endpointId
          ((b.latest endpointId).map fun peer => peer.markConnected connected) } now := by
  refine ⟨h.selfEndpointId, ?_, fun p hp => ?_, fun endpointId' p hp => ?_⟩ <;>
    dsimp only at *
  · have hkept : (Directory.updateFirst endpointId (fun peer => peer.markConnected connected)
        s.discoveredPeers).map DiscoveredPeer.endpointId =
          s.discoveredPeers.map DiscoveredPeer.endpointId :=
      map_updateFirst fun _ hsame => hsame
    rw [DistinctIds, hkept]
    exact h.distinct
  · rcases (mem_updateFirst h.distinct).mp hp with ⟨hold, hne⟩ | ⟨old, hold, rfl, rfl⟩
    · rw [Function.update_of_ne hne]
      exact h.latest p hold
    · have hlatest := h.latest old hold
      change Function.update b.latest old.endpointId _ old.endpointId = _
      rw [Function.update_self, hlatest, Option.map_some]
  · by_cases hsame : endpointId' = endpointId
    · subst hsame
      rw [Function.update_self] at hp
      rcases Option.map_eq_some_iff.mp hp with ⟨old, hold, rfl⟩
      rcases h.listed _ old hold with ⟨hid, hvalid⟩
      exact ⟨hid, fun hnow => (mem_updateFirst h.distinct).mpr
        (Or.inr ⟨old, hvalid hnow, hid, rfl⟩)⟩
    · rw [Function.update_of_ne hsame] at hp
      rcases h.listed endpointId' p hp with ⟨hid, hvalid⟩
      exact ⟨hid, fun hnow => (mem_updateFirst h.distinct).mpr
        (Or.inl ⟨hvalid hnow, hid ▸ hsame⟩)⟩

/-- One call at a time at which the list was current. -/
theorem Current.next (h : Current s b now) (event : PeerEvent ι α)
    (htime : ∀ t ∈ event.time, t = now) :
    Current (s.next event) (b.next event) now ∧ s.answer event = b.answer event := by
  cases event with
  | setSelf endpointId => exact ⟨⟨rfl, h.distinct, h.latest, h.listed⟩, rfl⟩
  | record peer t =>
      obtain rfl : t = now := htime t rfl
      exact ⟨(h.put peer).trim, rfl⟩
  | connect endpointId outcome t =>
      have hself := h.selfEndpointId
      simp only [Directory.next, Directory.answer, Directory.connectToPeer, Book.next,
        Book.answer, hself]
      by_cases hown : b.selfEndpointId = some endpointId
      · rw [if_pos hown, if_pos hown, if_neg fun hboth => hboth.1 hown]
        exact ⟨h, rfl⟩
      · rw [if_neg hown, if_neg hown]
        cases outcome with
        | error e =>
            rw [if_neg fun hboth => nomatch hboth.2]
            exact ⟨h, rfl⟩
        | ok u =>
            rw [if_pos ⟨hown, rfl⟩]
            exact ⟨h.markConnected endpointId t, rfl⟩
  | clear =>
      exact ⟨⟨h.selfEndpointId, List.nodup_nil, fun _ hp => absurd hp List.not_mem_nil,
        fun _ _ hp => nomatch hp⟩, rfl⟩

/-- The times of the calls are in order, from a time on and up to another one. -/
def InOrder (start : Instant) (events : List (PeerEvent ι α)) (now : Instant) : Prop :=
  (start :: events.filterMap PeerEvent.time ++ [now]).Pairwise (· ≤ ·)

instance (start : Instant) (events : List (PeerEvent ι α)) (now : Instant) :
    Decidable (InOrder start events now) :=
  inferInstanceAs (Decidable (List.Pairwise _ _))

omit [DecidableEq ι] in
/-- The first of the calls. -/
theorem InOrder.cons {start : Instant} {event : PeerEvent ι α} {events : List (PeerEvent ι α)}
    (h : InOrder start (event :: events) now) :
    ∃ next, start ≤ next ∧ (∀ t ∈ event.time, t = next) ∧ InOrder next events now := by
  rw [InOrder, List.cons_append, List.pairwise_cons] at h
  cases htime : event.time with
  | none =>
      rw [List.filterMap_cons_none htime] at h
      exact ⟨start, Nat.le_refl _, (fun _ hnone => nomatch hnone), List.pairwise_cons.mpr h⟩
  | some t =>
      rw [List.filterMap_cons_some htime, List.cons_append] at h
      refine ⟨t, h.1 t List.mem_cons_self, fun t' ht' => ?_, h.2⟩
      exact (Option.mem_some_iff.mp ht').symm

/-- A run of calls. -/
theorem Current.run {start : Instant} (h : Current s b start) {events : List (PeerEvent ι α)}
    (horder : InOrder start events now) :
    Current (directory.run s events) (book.run b events) now ∧
      directory.answers s events = book.answers b events := by
  induction events generalizing s b start with
  | nil =>
      have hle := (List.pairwise_cons.mp horder).1 now (by simp)
      exact ⟨h.later hle, rfl⟩
  | cons event events ih =>
      rcases horder.cons with ⟨next, hle, htime, hrest⟩
      rcases (h.later hle).next event htime with ⟨hnext, hanswer⟩
      rcases ih hnext hrest with ⟨hrun, hanswers⟩
      refine ⟨hrun, ?_⟩
      rw [answers_cons, answers_cons]
      exact congrArg₂ _ hanswer hanswers

/-- In every run of calls at times in order, the valid peers at a later time are the latest
records since the list was cleared that are valid then, each with the latest connection behind
it and each listed once: what was trimmed on the way is not missed.  A connection fails to the
own endpoint and where the attempt does. -/
theorem valid_peers_latest (events : List (PeerEvent ι α)) (now : Instant)
    (horder : InOrder 0 events now) :
    directory.answers .new events = book.answers .new events ∧
      (((directory.run .new events).validPeers now).map DiscoveredPeer.endpointId).Nodup ∧
      (∀ p, p ∈ (directory.run .new events).validPeers now ↔
        (book.run .new events).latest p.endpointId = some p ∧
          p.isValid maxPeerAge now = true) ∧
      ((directory.run .new events).validPeers now).length ≤
        (directory.run .new events).peerCount := by
  rcases (current_new 0).run horder with ⟨h, hanswers⟩
  refine ⟨hanswers, h.distinct.sublist (List.filter_sublist.map _), fun p => ?_,
    List.length_filter_le _ _⟩
  rw [Directory.validPeers, List.mem_filter]
  constructor
  · rintro ⟨hp, hvalid⟩
    exact ⟨h.latest p hp, hvalid⟩
  · rintro ⟨hp, hvalid⟩
    exact ⟨(h.listed _ p hp).2 hvalid, hvalid⟩

/-- A peer that was found in a local network. -/
def foundPeer (endpointId : Nat) (discoveredAt : Instant) : DiscoveredPeer Nat String where
  endpointId := endpointId
  addresses := []
  discoveryMethod := .mdns
  discoveredAt := discoveredAt
  name := none
  lastConnected := none

/-- Two peers of which the first has expired when it is connected to. -/
theorem valid_peers_latest_sample :
    directory.answers .new [.record (foundPeer 1 0) 0, .record (foundPeer 2 400000000000)
        400000000000, .connect 1 (.ok ()) 400000000001] =
      book.answers .new [.record (foundPeer 1 0) 0, .record (foundPeer 2 400000000000)
        400000000000, .connect 1 (.ok ()) 400000000001] ∧
      (((directory.run .new [.record (foundPeer 1 0) 0, .record (foundPeer 2 400000000000)
        400000000000, .connect 1 (.ok ()) 400000000001]).validPeers 400000000002).map
          DiscoveredPeer.endpointId).Nodup ∧
      (∀ p, p ∈ (directory.run .new [.record (foundPeer 1 0) 0,
          .record (foundPeer 2 400000000000) 400000000000,
          .connect 1 (.ok ()) 400000000001]).validPeers 400000000002 ↔
        (book.run .new [.record (foundPeer 1 0) 0, .record (foundPeer 2 400000000000)
          400000000000, .connect 1 (.ok ()) 400000000001]).latest p.endpointId = some p ∧
          p.isValid maxPeerAge 400000000002 = true) ∧
      ((directory.run .new [.record (foundPeer 1 0) 0, .record (foundPeer 2 400000000000)
        400000000000, .connect 1 (.ok ()) 400000000001]).validPeers 400000000002).length ≤
        (directory.run .new [.record (foundPeer 1 0) 0, .record (foundPeer 2 400000000000)
          400000000000, .connect 1 (.ok ()) 400000000001]).peerCount :=
  valid_peers_latest _ 400000000002 (by decide)

end Discovery

end IrohSync
