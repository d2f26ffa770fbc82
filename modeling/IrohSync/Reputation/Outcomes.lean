import IrohSync.Reputation.Manager

/-!
# Counting the outcomes

What the counts of a peer should be is an account of its own: it is opened by the
first record and closed by a removal.  An entry of the manager agrees with the account
at all times.  But no operation makes an entry, so a new manager never has one, and
whatever is recorded is lost.

Main results:

- Theorems {lit}`Agrees.next` and {lit}`agrees_run`: an entry agrees with the account.
- Theorem {lit}`counts_iff`: in which managers and after which calls a reputation counts
  every outcome; {lit}`counts_planted`: after an entry was put in by hand;
  {lit}`counts_outcomes_iff`: for a new manager.
-/

namespace IrohSync

namespace Reputation

variable {ι φ : Type}

/-! ## The account of a peer -/

/-- The outcomes of a peer since it was last removed, and since when it is connected. -/
structure Account where
  syncSuccesses : Nat
  syncFailures : Nat
  disconnections : Nat
  connectionTimeSecs : Nat
  connectedSince : Option UInt64

/-- Nothing has happened. -/
def Account.opened : Account where
  syncSuccesses := 0
  syncFailures := 0
  disconnections := 0
  connectionTimeSecs := 0
  connectedSince := none

/-- The seconds of a connection that ends now. -/
def Account.lasted (a : Account) (stop : UInt64) : Nat :=
  match a.connectedSince with
  | some start => (secsSince start stop).toNat
  | none => 0

/-- The counts of an entry, which have 64 bits, are those of an account. -/
structure PeerReputation.Shows (rep : PeerReputation ι φ) (a : Account) : Prop where
  syncSuccesses : rep.syncSuccesses = UInt64.ofNat a.syncSuccesses
  syncFailures : rep.syncFailures = UInt64.ofNat a.syncFailures
  disconnections : rep.disconnections = UInt64.ofNat a.disconnections
  connectionTimeSecs : rep.connectionTimeSecs = UInt64.ofNat a.connectionTimeSecs

/-- The counts do not depend on when the peer connected. -/
theorem PeerReputation.Shows.connected {rep : PeerReputation ι φ}
    {a : Account} (h : rep.Shows a) (since : Option UInt64) :
    rep.Shows { a with connectedSince := since } where
  syncSuccesses := h.syncSuccesses
  syncFailures := h.syncFailures
  disconnections := h.disconnections
  connectionTimeSecs := h.connectionTimeSecs

variable [DecidableEq ι]

/-- The account of a peer after a call. -/
def Account.after (peer : ι) (a : Account) : ReputationCall ι → Account
  | .recordSyncSuccess p _ =>
      if p = peer then { a with syncSuccesses := a.syncSuccesses + 1 } else a
  | .recordSyncFailure p _ =>
      if p = peer then { a with syncFailures := a.syncFailures + 1 } else a
  | .recordConnection p start _ =>
      if p = peer then { a with connectedSince := some start } else a
  | .recordDisconnection p stop _ =>
      if p = peer then
        { a with
          disconnections := a.disconnections + 1
          connectionTimeSecs := a.connectionTimeSecs + a.lasted stop
          connectedSince := none }
      else a
  | .applyDecay _ => a
  | .remove p => if p = peer then .opened else a

/-- The account of a peer after a list of calls. -/
def accountOf (peer : ι) (calls : List (ReputationCall ι)) : Account :=
  calls.foldl (Account.after peer) .opened

/-- The entry of a peer, if there is one, and the start of its connection are those of
an account. -/
structure Agrees (m : ReputationManager ι φ) (peer : ι) (a : Account) : Prop where
  shows : ∀ rep ∈ m.getReputation peer, rep.Shows a
  connectedSince : m.connectionStarts.lookup peer = a.connectedSince

/-! ## New managers -/

/-- The entries of a manager are new, and no peer is connected. -/
def ReputationManager.Fresh (m : ReputationManager ι φ) : Prop :=
  ∀ peer, Agrees m peer .opened

/-- A manager into which one new entry was put by hand. -/
theorem fresh_planted (config : ReputationConfig φ) (peer : ι) (score : φ) (now : UInt64) :
    ReputationManager.Fresh
      { ReputationManager.new config with
        reputations := AList.singleton peer (PeerReputation.new peer score now) } := by
  intro peer'
  refine ⟨fun rep hrep => ?_, rfl⟩
  have hmem := AList.mem_lookup_iff.mp hrep
  rw [AList.singleton_entries, List.mem_singleton] at hmem
  cases hmem
  exact ⟨rfl, rfl, rfl, rfl⟩

theorem fresh_new (config : ReputationConfig φ) :
    (ReputationManager.new config : ReputationManager ι φ).Fresh :=
  fun _ => ⟨fun _ hrep => (nomatch hrep), rfl⟩

/-! ## Single calls -/

variable {m : ReputationManager ι φ} {peer : ι} {a : Account}

theorem Account.ofNat_lasted (a : Account) (stop : UInt64) :
    UInt64.ofNat (a.lasted stop) =
      (a.connectedSince.map fun start => secsSince start stop).getD 0 := by
  unfold lasted
  cases a.connectedSince with
  | none => rfl
  | some start => exact UInt64.ofNat_toNat

/-- A record that goes to the entry of the peer. -/
theorem Agrees.update (h : Agrees m peer a) {f : PeerReputation ι φ → PeerReputation ι φ}
    {a' : Account} (hshows : ∀ rep : PeerReputation ι φ, rep.Shows a → (f rep).Shows a')
    (hsince : a'.connectedSince = a.connectedSince) : Agrees (m.update peer f) peer a' where
  shows := by
    intro rep hrep
    rw [ReputationManager.getReputation_update_self] at hrep
    rcases Option.map_eq_some_iff.mp hrep with ⟨before, hbefore, rfl⟩
    exact hshows before (h.shows before hbefore)
  connectedSince := by
    rw [ReputationManager.connectionStarts_update, hsince]
    exact h.connectedSince

/-- A record that goes to another entry. -/
theorem Agrees.update_of_ne (h : Agrees m peer a) {other : ι} (hne : peer ≠ other)
    (f : PeerReputation ι φ → PeerReputation ι φ) : Agrees (m.update other f) peer a where
  shows := by
    rw [ReputationManager.getReputation_update_of_ne m hne]
    exact h.shows
  connectedSince := by
    rw [ReputationManager.connectionStarts_update]
    exact h.connectedSince

/-- A record that goes to the entry of some peer. -/
theorem Agrees.record (h : Agrees m peer a) (p : ι)
    {f : PeerReputation ι φ → PeerReputation ι φ} {a' : Account}
    (hshows : ∀ rep : PeerReputation ι φ, rep.Shows a → (f rep).Shows a')
    (hsince : a'.connectedSince = a.connectedSince) :
    Agrees (m.update p f) peer (if p = peer then a' else a) := by
  by_cases heq : p = peer
  · rw [if_pos heq, heq]
    exact h.update hshows hsince
  · rw [if_neg heq]
    exact h.update_of_ne (Ne.symm heq) f

/-- The connection of the peer starts or ends. -/
theorem Agrees.starts (h : Agrees m peer a) {starts : AList fun _ : ι => UInt64}
    {since : Option UInt64} (hlookup : starts.lookup peer = since) :
    Agrees { m with connectionStarts := starts } peer { a with connectedSince := since } where
  shows := fun rep hrep => (h.shows rep hrep).connected since
  connectedSince := hlookup

/-- So does the connection of another peer. -/
theorem Agrees.starts_of_eq (h : Agrees m peer a) {starts : AList fun _ : ι => UInt64}
    (hlookup : starts.lookup peer = m.connectionStarts.lookup peer) :
    Agrees { m with connectionStarts := starts } peer a where
  shows := h.shows
  connectedSince := hlookup.trans h.connectedSince

/-- A connection is established. -/
theorem Agrees.recordConnection (h : Agrees m peer a) (p : ι) (start now : UInt64) :
    Agrees (m.recordConnection p start now) peer
      (a.after peer (.recordConnection p start now)) := by
  rw [Account.after]
  unfold ReputationManager.recordConnection
  by_cases heq : p = peer
  · subst heq
    rw [if_pos rfl]
    have hstarts := h.starts (AList.lookup_insert (b := start) m.connectionStarts)
    exact hstarts.update (fun rep hrep => ⟨hrep.1, hrep.2, hrep.3, hrep.4⟩) rfl
  · rw [if_neg heq]
    exact (h.starts_of_eq (AList.lookup_insert_ne (Ne.symm heq))).update_of_ne (Ne.symm heq) _

variable [ScoreArithmetic φ]

/-- A connection is lost. -/
theorem Agrees.recordDisconnection (h : Agrees m peer a) (p : ι) (stop now : UInt64) :
    Agrees (m.recordDisconnection p stop now) peer
      (a.after peer (.recordDisconnection p stop now)) := by
  rw [Account.after]
  unfold ReputationManager.recordDisconnection
  by_cases heq : p = peer
  · subst heq
    rw [if_pos rfl]
    have hstarts := h.starts (AList.lookup_erase p m.connectionStarts)
    refine hstarts.update (fun rep hrep => ⟨hrep.1, hrep.2, ?_, ?_⟩) rfl
    · rw [UInt64.ofNat_add, ← hrep.disconnections]
      rfl
    · rw [UInt64.ofNat_add, ← hrep.connectionTimeSecs, Account.ofNat_lasted, h.connectedSince]
  · rw [if_neg heq]
    exact (h.starts_of_eq (AList.lookup_erase_ne (Ne.symm heq))).update_of_ne (Ne.symm heq) _

/-- The agreement is kept by every call. -/
theorem Agrees.next (h : Agrees m peer a) (call : ReputationCall ι) :
    Agrees (m.next call) peer (a.after peer call) := by
  cases call with
  | recordSyncSuccess p now =>
      refine h.record p (fun rep hrep => ⟨?_, hrep.2, hrep.3, hrep.4⟩) rfl
      rw [UInt64.ofNat_add, ← hrep.syncSuccesses]
      rfl
  | recordSyncFailure p now =>
      refine h.record p (fun rep hrep => ⟨hrep.1, ?_, hrep.3, hrep.4⟩) rfl
      rw [UInt64.ofNat_add, ← hrep.syncFailures]
      rfl
  | recordConnection p start now => exact h.recordConnection p start now
  | recordDisconnection p stop now => exact h.recordDisconnection p stop now
  | applyDecay now =>
      refine ⟨fun rep hrep => ?_, h.connectedSince⟩
      -- only the score and the time of the last update change
      rw [ReputationManager.next, ReputationManager.applyDecay, ReputationManager.getReputation,
        Table.lookup_mapValues] at hrep
      rcases Option.map_eq_some_iff.mp hrep with ⟨before, hbefore, rfl⟩
      have hshows := h.shows before hbefore
      exact ⟨hshows.1, hshows.2, hshows.3, hshows.4⟩
  | remove p =>
      rw [ReputationManager.next, Account.after, ReputationManager.remove]
      by_cases heq : p = peer
      · rw [if_pos heq, heq]
        refine ⟨fun rep hrep => ?_, AList.lookup_erase peer _⟩
        rw [ReputationManager.getReputation, AList.lookup_erase] at hrep
        contradiction
      · rw [if_neg heq]
        refine ⟨fun rep hrep => ?_, ?_⟩
        · rw [ReputationManager.getReputation, AList.lookup_erase_ne (Ne.symm heq)] at hrep
          exact h.shows rep hrep
        · rw [AList.lookup_erase_ne (Ne.symm heq)]
          exact h.connectedSince

/-- No call makes an entry, and only a removal takes one away. -/
theorem isSome_getReputation_next (m : ReputationManager ι φ) (call : ReputationCall ι)
    (peer : ι) :
    ((m.next call).getReputation peer).isSome ↔
      (m.getReputation peer).isSome ∧ call ≠ .remove peer := by
  have hkeeps : call ≠ .remove peer →
      ((m.next call).getReputation peer).isSome = (m.getReputation peer).isSome →
      (((m.next call).getReputation peer).isSome ↔
        (m.getReputation peer).isSome ∧ call ≠ .remove peer) :=
    fun hne heq => by rw [heq, and_iff_left hne]
  cases call with
  | recordSyncSuccess p now =>
      exact hkeeps (by simp) (ReputationManager.isSome_getReputation_update m p peer _)
  | recordSyncFailure p now =>
      exact hkeeps (by simp) (ReputationManager.isSome_getReputation_update m p peer _)
  | recordConnection p start now =>
      exact hkeeps (by simp) (ReputationManager.isSome_getReputation_update _ p peer _)
  | recordDisconnection p stop now =>
      exact hkeeps (by simp) (ReputationManager.isSome_getReputation_update _ p peer _)
  | applyDecay now =>
      apply hkeeps (by simp)
      rw [ReputationManager.next, ReputationManager.applyDecay, ReputationManager.getReputation,
        Table.lookup_mapValues, Option.isSome_map, ReputationManager.getReputation]
  | remove p =>
      rw [ReputationManager.next, ReputationManager.remove, ReputationManager.getReputation]
      by_cases heq : p = peer
      · rw [heq, AList.lookup_erase]
        simp
      · rw [AList.lookup_erase_ne (Ne.symm heq), and_iff_left (by simpa using heq)]
        rfl

/-! ## Runs -/

/-- A reputation agrees with the account of its peer after any calls. -/
theorem agrees_run (h : Agrees m peer a) (calls : List (ReputationCall ι)) :
    Agrees (m.run calls) peer (calls.foldl (Account.after peer) a) := by
  induction calls generalizing m a with
  | nil => exact h
  | cons call calls ih => exact ih (h.next call)

/-- A peer has an entry exactly if it had one from the start and was never removed. -/
theorem isSome_getReputation_run (m : ReputationManager ι φ) (calls : List (ReputationCall ι))
    (peer : ι) :
    ((m.run calls).getReputation peer).isSome ↔
      (m.getReputation peer).isSome ∧ .remove peer ∉ calls := by
  induction calls generalizing m with
  | nil => simp [ReputationManager.run]
  | cons call calls ih =>
      have hrun : m.run (call :: calls) = (m.next call).run calls := rfl
      rw [hrun, ih, isSome_getReputation_next, List.mem_cons, not_or, and_assoc, ne_comm]

/-- Some record was made for a peer and the peer was not removed since. -/
def RecordedSince (peer : ι) (calls : List (ReputationCall ι)) : Prop :=
  ∃ front call back, calls = front ++ call :: back ∧ call.Records peer ∧ .remove peer ∉ back

/-- A recorded peer has a reputation, and the reputation counts every outcome. -/
def CountsOutcomes (m : ReputationManager ι φ) (peer : ι) (calls : List (ReputationCall ι)) :
    Prop :=
  RecordedSince peer calls →
    ∃ rep, (m.run calls).getReputation peer = some rep ∧ rep.Shows (accountOf peer calls)

/-- Outcomes are counted for the peers that had an entry from the start and were never
removed, and wherever there was nothing to count. -/
theorem counts_iff (hfresh : m.Fresh) (peer : ι) (calls : List (ReputationCall ι)) :
    CountsOutcomes m peer calls ↔
      (m.getReputation peer).isSome ∧ .remove peer ∉ calls ∨ ¬ RecordedSince peer calls := by
  rw [← isSome_getReputation_run, CountsOutcomes, ← imp_iff_or_not]
  refine forall_congr' fun _ => ?_
  rw [Option.isSome_iff_exists]
  refine exists_congr fun rep => and_iff_left_of_imp fun hrep => ?_
  exact (agrees_run (hfresh peer) calls).shows rep hrep

/-- The outcomes of a peer whose entry was put in by hand are counted. -/
theorem counts_planted (config : ReputationConfig φ) (peer : ι) (score : φ) (now : UInt64)
    {calls : List (ReputationCall ι)} (hkept : .remove peer ∉ calls) :
    CountsOutcomes
      { ReputationManager.new config with
        reputations := AList.singleton peer (PeerReputation.new peer score now) } peer calls := by
  apply (counts_iff (fresh_planted config peer score now) peer calls).mpr
  left
  refine ⟨?_, hkept⟩
  rw [ReputationManager.getReputation, AList.lookup_isSome]
  exact AList.mem_keys.mpr (List.mem_singleton.mpr rfl)

/-- In a new manager no outcome is ever counted: a reputation counts every outcome only
of a peer for which nothing was recorded since it was last removed. -/
theorem counts_outcomes_iff (config : ReputationConfig φ) (peer : ι)
    (calls : List (ReputationCall ι)) :
    CountsOutcomes (ReputationManager.new config) peer calls ↔ ¬ RecordedSince peer calls := by
  have hnone : ¬ ((ReputationManager.new config).getReputation peer).isSome := Bool.false_ne_true
  rw [counts_iff (fresh_new config)]
  exact or_iff_right fun h => hnone h.1

/-- Whole numbers as scores. -/
instance : ScoreArithmetic Nat where

/-- A success is recorded and the peer has no reputation. -/
theorem not_countsOutcomes_new :
    ¬ CountsOutcomes (ReputationManager.new (⟨5, 10, 5, 1, 0, 100⟩ : ReputationConfig Nat)) 7
      [.recordSyncSuccess 7 0] := by
  intro hcounts
  have hrecorded : RecordedSince 7 [ReputationCall.recordSyncSuccess 7 0] :=
    ⟨[], .recordSyncSuccess 7 0, [], rfl, rfl, List.not_mem_nil⟩
  rcases hcounts hrecorded with ⟨rep, hrep, _⟩
  contradiction

end Reputation

end IrohSync
