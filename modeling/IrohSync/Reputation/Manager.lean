import Mathlib.Data.List.AList
import IrohSync.Lib.Table

/-!
# The reputation manager

The manager counts the outcomes of synchronizations with each peer, its
disconnections and the time it was connected, and keeps a score.  Reputations are in
one table, the starts of connections in another.  Every record goes to the entry of
its peer, and where there is no entry it goes nowhere.

Scores are numbers of any kind; no count depends on them.  Times are in seconds, and
every reading of the clock is an input.

Main results:

- Theorems {lit}`getReputation_update_self`, {lit}`getReputation_update_of_ne` and
  {lit}`isSome_getReputation_update`: what a record does to the entries.
-/

namespace IrohSync

namespace Reputation

/-- The operations on scores that the manager uses. -/
class ScoreArithmetic (φ : Type) extends Add φ, Sub φ, Mul φ, Div φ, Min φ, Max φ, NatCast φ

/-- Configuration for peer reputation. -/
structure ReputationConfig (φ : Type) where
  syncSuccessBonus : φ
  syncFailurePenalty : φ
  disconnectionPenalty : φ
  decayRate : φ
  minScore : φ
  maxScore : φ

/-- Reputation score for a peer. -/
structure PeerReputation (ι φ : Type) where
  peerId : ι
  score : φ
  syncSuccesses : UInt64
  syncFailures : UInt64
  connectionTimeSecs : UInt64
  disconnections : UInt64
  firstSeenSecs : UInt64
  lastUpdatedSecs : UInt64

variable {ι φ : Type}

/-- Create a new reputation entry. -/
def PeerReputation.new (peerId : ι) (initialScore : φ) (now : UInt64) : PeerReputation ι φ where
  peerId := peerId
  score := initialScore
  syncSuccesses := 0
  syncFailures := 0
  connectionTimeSecs := 0
  disconnections := 0
  firstSeenSecs := now
  lastUpdatedSecs := now

/-- The seconds from one reading of the clock to another, zero if it went back. -/
def secsSince (start now : UInt64) : UInt64 :=
  if start ≤ now then now - start else 0

/-- Peer reputation manager. -/
structure ReputationManager (ι φ : Type) where
  config : ReputationConfig φ
  reputations : AList fun _ : ι => PeerReputation ι φ
  connectionStarts : AList fun _ : ι => UInt64

namespace ReputationManager

/-- Create a new reputation manager. -/
def new (config : ReputationConfig φ) : ReputationManager ι φ where
  config := config
  reputations := ∅
  connectionStarts := ∅

/-- Apply time-based decay to all reputations. -/
def applyDecay [ScoreArithmetic φ] (m : ReputationManager ι φ) (now : UInt64) :
    ReputationManager ι φ :=
  { m with
    reputations := Table.mapValues (fun rep =>
      let hours := ((secsSince rep.lastUpdatedSecs now).toNat : φ) / ((3600 : Nat) : φ)
      let decay := hours * m.config.decayRate
      { rep with
        score := max (rep.score - decay) m.config.minScore
        lastUpdatedSecs := now }) m.reputations }

variable [DecidableEq ι]

/-- Get reputation for a peer. -/
def getReputation (m : ReputationManager ι φ) (peer : ι) : Option (PeerReputation ι φ) :=
  m.reputations.lookup peer

/-- Change the entry of a peer if there is one. -/
def update (m : ReputationManager ι φ) (peer : ι)
    (f : PeerReputation ι φ → PeerReputation ι φ) : ReputationManager ι φ :=
  match m.reputations.lookup peer with
  | some rep => { m with reputations := m.reputations.insert peer (f rep) }
  | none => m

/-- Record a successful sync. -/
def recordSyncSuccess [ScoreArithmetic φ] (m : ReputationManager ι φ) (peer : ι)
    (now : UInt64) : ReputationManager ι φ :=
  m.update peer fun rep =>
    { rep with
      syncSuccesses := rep.syncSuccesses + 1
      score := min (rep.score + m.config.syncSuccessBonus) m.config.maxScore
      lastUpdatedSecs := now }

/-- Record a failed sync. -/
def recordSyncFailure [ScoreArithmetic φ] (m : ReputationManager ι φ) (peer : ι)
    (now : UInt64) : ReputationManager ι φ :=
  m.update peer fun rep =>
    { rep with
      syncFailures := rep.syncFailures + 1
      score := max (rep.score - m.config.syncFailurePenalty) m.config.minScore
      lastUpdatedSecs := now }

/-- Record a connection established: the clock is read for its start and again for the
entry. -/
def recordConnection (m : ReputationManager ι φ) (peer : ι) (start now : UInt64) :
    ReputationManager ι φ :=
  let m := { m with connectionStarts := m.connectionStarts.insert peer start }
  m.update peer fun rep => { rep with lastUpdatedSecs := now }

/-- Record a disconnection: the clock is read for the duration and again for the
entry. -/
def recordDisconnection [ScoreArithmetic φ] (m : ReputationManager ι φ) (peer : ι)
    (stop now : UInt64) : ReputationManager ι φ :=
  let duration := ((m.connectionStarts.lookup peer).map fun start => secsSince start stop).getD 0
  let m := { m with connectionStarts := m.connectionStarts.erase peer }
  m.update peer fun rep =>
    { rep with
      connectionTimeSecs := rep.connectionTimeSecs + duration
      disconnections := rep.disconnections + 1
      score := max (rep.score - m.config.disconnectionPenalty) m.config.minScore
      lastUpdatedSecs := now }

/-- Remove a peer's reputation. -/
def remove (m : ReputationManager ι φ) (peer : ι) : ReputationManager ι φ :=
  { m with
    reputations := m.reputations.erase peer
    connectionStarts := m.connectionStarts.erase peer }

/-! ## What the operations do to the entry of a peer -/

variable (m : ReputationManager ι φ)

@[simp]
theorem connectionStarts_update (peer : ι) (f : PeerReputation ι φ → PeerReputation ι φ) :
    (m.update peer f).connectionStarts = m.connectionStarts := by
  unfold update
  split <;> rfl

@[simp]
theorem getReputation_update_self (peer : ι) (f : PeerReputation ι φ → PeerReputation ι φ) :
    (m.update peer f).getReputation peer = (m.getReputation peer).map f := by
  unfold update getReputation
  cases hfound : m.reputations.lookup peer with
  | none => exact hfound
  | some rep => exact AList.lookup_insert _

/-- Other entries stay as they are. -/
theorem getReputation_update_of_ne {peer peer' : ι} (hne : peer' ≠ peer)
    (f : PeerReputation ι φ → PeerReputation ι φ) :
    (m.update peer f).getReputation peer' = m.getReputation peer' := by
  unfold update getReputation
  cases m.reputations.lookup peer with
  | none => rfl
  | some rep => exact AList.lookup_insert_ne hne

/-- An update adds no entry and takes none away. -/
theorem isSome_getReputation_update (peer peer' : ι)
    (f : PeerReputation ι φ → PeerReputation ι φ) :
    ((m.update peer f).getReputation peer').isSome = (m.getReputation peer').isSome := by
  by_cases heq : peer' = peer
  · rw [heq, getReputation_update_self, Option.isSome_map]
  · rw [getReputation_update_of_ne m heq]

end ReputationManager

/-! ## Runs -/

/-- A call of the manager, with its readings of the clock. -/
inductive ReputationCall (ι : Type) where
  | recordSyncSuccess (peer : ι) (now : UInt64)
  | recordSyncFailure (peer : ι) (now : UInt64)
  | recordConnection (peer : ι) (start now : UInt64)
  | recordDisconnection (peer : ι) (stop now : UInt64)
  | applyDecay (now : UInt64)
  | remove (peer : ι)

/-- A call that records something for a peer. -/
def ReputationCall.Records (peer : ι) : ReputationCall ι → Prop
  | .recordSyncSuccess p _ => p = peer
  | .recordSyncFailure p _ => p = peer
  | .recordConnection p _ _ => p = peer
  | .recordDisconnection p _ _ => p = peer
  | .applyDecay _ => False
  | .remove _ => False

variable [DecidableEq ι] [ScoreArithmetic φ]

/-- The manager after a call. -/
def ReputationManager.next (m : ReputationManager ι φ) :
    ReputationCall ι → ReputationManager ι φ
  | .recordSyncSuccess peer now => m.recordSyncSuccess peer now
  | .recordSyncFailure peer now => m.recordSyncFailure peer now
  | .recordConnection peer start now => m.recordConnection peer start now
  | .recordDisconnection peer stop now => m.recordDisconnection peer stop now
  | .applyDecay now => m.applyDecay now
  | .remove peer => m.remove peer

/-- The manager after a list of calls. -/
def ReputationManager.run (m : ReputationManager ι φ) (calls : List (ReputationCall ι)) :
    ReputationManager ι φ :=
  calls.foldl ReputationManager.next m

end Reputation

end IrohSync
