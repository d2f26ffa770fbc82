import Mathlib.Data.List.Perm.Basic
import Mathlib.Data.List.Nodup
import IrohSync.Sync.Protocol

/-!
# What a pull fetches

A connecting peer asks for the changes behind its own offset, and the server
takes that number as a position in its own log.  The two logs have nothing to do
with each other, so the answer is what is missing only if the difference of the
offsets happens to be the number of changes not yet received.

Main results:

- Theorem {lit}`Pull.fetchesMissing_iff`: one session after exact sessions.
- Theorem {lit}`Pull.fetchesMissing_iff_of_nodup`: the same in terms of single
  changes.
- Theorem {lit}`pulls_fetch_missing_iff`: exactly which histories fetch what is
  missing in every session.
-/

namespace IrohSync

open BoundedLog

/-! ## Histories of two peers -/

/-- A connecting client, a server and what the client received from it. -/
structure Pull where
  client : SyncManager
  server : SyncManager
  received : List Change

/-- Either peer records changes or applies those of another peer, or the client
runs a session, whose response may be lost. -/
inductive PullEvent where
  | clientRecord (change : Change)
  | clientApply (changes : List Change)
  | serverRecord (change : Change)
  | serverApply (changes : List Change)
  | session (localOffset : UInt64) (delivered : Bool)

/-- The changes in the server's response to the client's request. -/
def Pull.pulled (st : Pull) (localOffset : UInt64) : List Change :=
  (st.server.processMessage st.client.initialRequest localOffset).2.changes

/-- One event. -/
def Pull.step (st : Pull) : PullEvent → Pull
  | .clientRecord change => { st with client := (st.client.recordChange change).1 }
  | .clientApply changes => { st with client := (st.client.applyChanges changes).1 }
  | .serverRecord change => { st with server := (st.server.recordChange change).1 }
  | .serverApply changes => { st with server := (st.server.applyChanges changes).1 }
  | .session localOffset delivered =>
      if delivered then
        { client := (st.client.applyChanges (st.pulled localOffset)).1
          server := (st.server.processMessage st.client.initialRequest localOffset).1
          received := st.received ++ st.pulled localOffset }
      else st

/-- The number of changes the server records in a history. -/
def serverRecords : List PullEvent → Nat
  | [] => 0
  | .serverRecord _ :: events => serverRecords events + 1
  | _ :: events => serverRecords events

/-- A response has every entry of the server's log that the client has not
received, and none that it has. -/
def Pull.FetchesMissing (st : Pull) (localOffset : UInt64) : Prop :=
  (st.received ++ st.pulled localOffset).Perm st.server.changes

/-- The server's offset is ahead of the client's by the number of changes that
the client has not received, or by more if it has received none. -/
def Pull.OffsetsMatch (st : Pull) : Prop :=
  st.received.length + min (st.server.offset.toNat - st.client.offset.toNat)
    st.server.changes.length = st.server.changes.length

/-- Every session of a history fetches what is missing. -/
def Pull.AllFetchMissing : Pull → List PullEvent → Prop
  | _, [] => True
  | st, .session localOffset delivered :: events =>
      st.FetchesMissing localOffset ∧
        (st.step (.session localOffset delivered)).AllFetchMissing events
  | st, event :: events => (st.step event).AllFetchMissing events

/-- The offsets match at every session of a history. -/
def Pull.AllOffsetsMatch : Pull → List PullEvent → Prop
  | _, [] => True
  | st, .session localOffset delivered :: events =>
      st.OffsetsMatch ∧ (st.step (.session localOffset delivered)).AllOffsetsMatch events
  | st, event :: events => (st.step event).AllOffsetsMatch events

/-! ## One session -/

/-- What the client received are the oldest entries of a server log of at most
1000 entries. -/
structure Pull.InStep (st : Pull) (room : Nat) : Prop where
  split : ∃ front rest, st.server.changes = front ++ rest ∧ st.received.Perm front
  small : st.server.changes.length + room ≤ 1000
  fits : st.server.changes.length + room ≤ st.server.maxChanges.toNat

/-- A response to a request is never cut when the log has at most 1000 entries. -/
theorem Pull.pulled_eq {st : Pull} {room : Nat} (h : st.InStep room) (localOffset : UInt64) :
    st.pulled localOffset =
      latest (st.server.offset.toNat - st.client.offset.toNat) st.server.changes := by
  have hsmall := h.small
  have hlimit : (1000 : UInt64).toNat = 1000 := rfl
  simp only [Pull.pulled, SyncManager.initialRequest, processMessage_request,
    SyncMessage.changes, SyncManager.answer, truncate, getChangesSince_eq, hlimit]
  exact List.take_of_length_le (by rw [latest_length]; omega)

/-- A session after exact sessions fetches what is missing exactly if the offsets
match. -/
theorem Pull.fetchesMissing_iff {st : Pull} {room : Nat} (h : st.InStep room)
    (localOffset : UInt64) : st.FetchesMissing localOffset ↔ st.OffsetsMatch := by
  rcases h.split with ⟨front, rest, hlog, hperm⟩
  have hlen := hperm.length_eq
  have hlogLen : st.server.changes.length = front.length + rest.length := by
    rw [hlog, List.length_append]
  rw [Pull.FetchesMissing, Pull.OffsetsMatch, Pull.pulled_eq h]
  constructor
  · intro hmissing
    have hcount := hmissing.length_eq
    rwa [List.length_append, latest_length] at hcount
  · intro hmatch
    have hrest : latest (st.server.offset.toNat - st.client.offset.toNat) st.server.changes =
        rest := by
      rw [← latest_min_length, show min (st.server.offset.toNat - st.client.offset.toNat)
        st.server.changes.length = rest.length by omega, hlog, latest_append_length]
    rw [hrest, hlog]
    exact hperm.append_right rest

/-- For distinct changes a response fetches what is missing exactly if each
change of the server's log is in it or was received, and not both. -/
theorem Pull.fetchesMissing_iff_of_nodup {st : Pull} {room : Nat} (h : st.InStep room)
    (hnodup : st.server.changes.Nodup) (localOffset : UInt64) :
    st.FetchesMissing localOffset ↔
      ∀ c ∈ st.server.changes, c ∈ st.pulled localOffset ↔ c ∉ st.received := by
  rcases h.split with ⟨front, rest, hlog, hperm⟩
  have hpulled : (st.pulled localOffset).Sublist st.server.changes := by
    rw [Pull.pulled_eq h]
    exact List.drop_sublist _ _
  have hfront : front.Sublist st.server.changes := by
    rw [hlog]
    exact List.sublist_append_left _ _
  constructor
  · intro hmissing c hc
    have hdisjoint := (List.nodup_append.mp (hmissing.nodup_iff.mpr hnodup)).2.2
    have hmem := hmissing.mem_iff.mpr hc
    rw [List.mem_append] at hmem
    constructor
    · intro hin hreceived
      exact hdisjoint c hreceived c hin rfl
    · exact fun hnot => hmem.resolve_left hnot
  · intro hexact
    have hreceived : ∀ c ∈ st.received, c ∈ st.server.changes := fun c hc =>
      hfront.subset (hperm.mem_iff.mp hc)
    have hnodup' : (st.received ++ st.pulled localOffset).Nodup := by
      rw [List.nodup_append]
      refine ⟨hperm.nodup_iff.mpr (hnodup.sublist hfront), hnodup.sublist hpulled, ?_⟩
      rintro c hc _ hin rfl
      exact (hexact c (hreceived c hc)).mp hin hc
    rw [Pull.FetchesMissing, List.perm_ext_iff_of_nodup hnodup' hnodup]
    intro c
    rw [List.mem_append]
    constructor
    · rintro (hc | hc)
      · exact hreceived c hc
      · exact hpulled.subset hc
    · intro hc
      by_cases hin : c ∈ st.received
      · exact Or.inl hin
      · exact Or.inr ((hexact c hc).mpr hin)

/-! ## Histories -/

/-- A session that fetches what is missing keeps the peers in step. -/
theorem Pull.InStep.session {st : Pull} {room : Nat} (h : st.InStep room) {localOffset : UInt64}
    (hmissing : st.FetchesMissing localOffset) (delivered : Bool) :
    (st.step (.session localOffset delivered)).InStep room := by
  cases delivered with
  | false => exact h
  | true => exact ⟨⟨st.server.changes, [], by simp [step, SyncManager.initialRequest,
      processMessage_request], hmissing⟩, h.small, h.fits⟩

/-- A change that the server records finds room in its log. -/
theorem Pull.InStep.serverRecord {st : Pull} {room : Nat} (h : st.InStep (room + 1))
    (c : Change) : (st.step (.serverRecord c)).InStep room := by
  rcases h.split with ⟨front, rest, hlog, hperm⟩
  have hsmall := h.small
  have hfits := h.fits
  have hpush : (st.server.recordChange c).1.changes = st.server.changes ++ [c] := by
    have hroom : st.server.changes.length + [c].length ≤ st.server.maxChanges.toNat := by
      rw [List.length_singleton]
      omega
    have hall := pushAll_of_le hroom
    rwa [pushAll_cons, pushAll_nil] at hall
  refine ⟨⟨front, rest ++ [c], ?_, hperm⟩, ?_, ?_⟩
  · simp only [step, hpush, hlog, List.append_assoc]
  · simp only [step, hpush, List.length_append, List.length_singleton]
    omega
  · simp only [step, hpush, List.length_append, List.length_singleton]
    simp only [SyncManager.recordChange]
    omega

/-- From peers in step, all sessions of a history fetch what is missing exactly
if the offsets match at each of them. -/
theorem Pull.InStep.allFetchMissing_iff {st : Pull} {events : List PullEvent}
    (h : st.InStep (serverRecords events)) :
    st.AllFetchMissing events ↔ st.AllOffsetsMatch events := by
  induction events generalizing st with
  | nil => exact Iff.rfl
  | cons event events ih =>
      cases event with
      | clientRecord c => exact ih ⟨h.split, h.small, h.fits⟩
      | clientApply cs => exact ih ⟨h.split, h.small, h.fits⟩
      | serverRecord c => exact ih (h.serverRecord c)
      | serverApply cs => exact ih ⟨h.split, h.small, h.fits⟩
      | session localOffset delivered =>
          rw [Pull.AllFetchMissing, Pull.AllOffsetsMatch, ← Pull.fetchesMissing_iff h localOffset]
          exact and_congr_right fun hmissing => ih (h.session hmissing delivered)

/-- For a client that has received nothing yet and a server whose log drops
nothing and stays at 1000 changes or fewer: every session of a history fetches
what is missing exactly if the offsets match at every session. -/
theorem pulls_fetch_missing_iff (client server : SyncManager) (events : List PullEvent)
    (hsmall : server.changes.length + serverRecords events ≤ 1000)
    (hfits : server.changes.length + serverRecords events ≤ server.maxChanges.toNat) :
    Pull.AllFetchMissing ⟨client, server, []⟩ events ↔
      Pull.AllOffsetsMatch ⟨client, server, []⟩ events :=
  Pull.InStep.allFetchMissing_iff ⟨⟨[], server.changes, rfl, List.Perm.nil⟩, hsmall, hfits⟩

/-- A client that records one change of its own for each change that it has received gets
what is missing, also after a session whose response is lost. -/
theorem pulls_fetch_missing_iff_sample :
    Pull.AllFetchMissing ⟨SyncManager.new 10000, SyncManager.new 10000, []⟩
      [.serverRecord sampleChange, .session 0 false, .session 0 true,
        .clientRecord otherChange, .serverRecord otherChange, .session 1 true] :=
  (pulls_fetch_missing_iff (SyncManager.new 10000) (SyncManager.new 10000)
    [.serverRecord sampleChange, .session 0 false, .session 0 true,
      .clientRecord otherChange, .serverRecord otherChange, .session 1 true]
    (by decide) (by decide)).mpr ⟨rfl, rfl, rfl, trivial⟩

/-- A client that recorded one change of its own never gets the first change of
the server. -/
theorem not_fetchMissing_ownChange :
    ¬ Pull.AllFetchMissing ⟨SyncManager.new 10000, SyncManager.new 10000, []⟩
      [.serverRecord sampleChange, .clientRecord otherChange, .session 1 true] := by
  rintro ⟨hmissing, _⟩
  have hlength := hmissing.length_eq
  revert hlength
  decide

end IrohSync
