import IrohSync.Sync.RequestArithmetic

/-!
# Paging through a log

A client asks for pages of a server's log and continues from the offset of each
response, while the server goes on recording.  As long as nothing is dropped
from the log, the pages join up to the log from the start offset on.

Main results:

- Theorem {lit}`Paged.answer_spec`: one page of a log that keeps everything.
- Theorem {lit}`Paging.run_paged`: the invariant along a run of pages and writes.
- Theorem {lit}`paging_delivers`: every change is delivered exactly once, and the
  last page comes after finitely many requests.
-/

namespace IrohSync

open BoundedLog

/-! ## Runs -/

/-- A server, the offset a client asks for next and what it obtained so far. -/
structure Paging where
  server : SyncManager
  next : UInt64
  obtained : List Change

/-- The server records a change, or the client asks for a page. -/
inductive PagingEvent where
  | record (change : Change)
  | request (limit : Option UInt64)

/-- One event; the client continues from the offset of the response. -/
def Paging.step (localOffset : UInt64) (p : Paging) : PagingEvent → Paging
  | .record change => { p with server := (p.server.recordChange change).1 }
  | .request limit =>
      match p.server.processMessage (.request p.next limit) localOffset with
      | (server, .response batch) =>
          { server := server
            next := batch.offset
            obtained := p.obtained ++ batch.changes }
      | (server, _) => { p with server := server }

/-- A run of events. -/
def Paging.run (localOffset : UInt64) (p : Paging) (events : List PagingEvent) : Paging :=
  events.foldl (Paging.step localOffset) p

/-- The changes that a run records. -/
def recorded : List PagingEvent → List Change
  | [] => []
  | .record change :: events => change :: recorded events
  | .request _ :: events => recorded events

theorem recorded_append (events events' : List PagingEvent) :
    recorded (events ++ events') = recorded events ++ recorded events' := by
  induction events with
  | nil => rfl
  | cons event events ih => cases event <;> simp [recorded, ih]

/-! ## One page -/

/-- A server whose log keeps all changes it recorded, and a client that obtained
those from a start offset up to its next one. -/
structure Paged (maxChanges : UInt64) (start : Nat) (all : List Change) (p : Paging) : Prop where
  server : p.server = (SyncManager.new maxChanges).recordAll all
  fits : all.length ≤ maxChanges.toNat
  next : p.next.toNat = start + p.obtained.length
  obtained : p.obtained <+: all.drop start
  le : start + p.obtained.length ≤ all.length

/-- A log that keeps everything counts its changes and holds them all. -/
theorem recordAll_new {maxChanges : UInt64} {all : List Change}
    (hfits : all.length ≤ maxChanges.toNat) :
    ((SyncManager.new maxChanges).recordAll all).offset.toNat = all.length ∧
      ((SyncManager.new maxChanges).recordAll all).changes = all := by
  have hlt := maxChanges.toNat_lt
  constructor
  · rw [recordAll_offset, SyncManager.new, UInt64.zero_add, UInt64.toNat_ofNat']
    omega
  · rw [recordAll_changes, pushAll_of_le (by simpa [SyncManager.new] using hfits)]
    rfl

theorem Paged.serverOffset {maxChanges : UInt64} {start : Nat} {all : List Change} {p : Paging}
    (h : Paged maxChanges start all p) : p.server.offset.toNat = all.length := by
  rw [h.server]
  exact (recordAll_new h.fits).1

/-- A read of such a log is a suffix. -/
theorem Paged.getChangesSince {maxChanges : UInt64} {start : Nat} {all : List Change} {p : Paging}
    (h : Paged maxChanges start all p) :
    p.server.getChangesSince p.next = all.drop p.next.toNat := by
  have hle := h.le
  have hnext := h.next
  rw [getChangesSince_eq, h.serverOffset, h.server, (recordAll_new h.fits).2, latest]
  congr 1
  omega

/-- A page that is not limited to nothing is empty only at the end. -/
theorem truncate_length_pos {changes : List Change} {limit : Option UInt64}
    (hlimit : limit ≠ some 0) (hne : changes ≠ []) : 0 < (truncate changes limit).length := by
  have hpos := List.length_pos_iff.mpr hne
  cases limit with
  | none => exact hpos
  | some limit =>
      have hlimitPos : 0 < limit.toNat := by
        refine Nat.pos_of_ne_zero fun hzero => hlimit (congrArg some ?_)
        exact UInt64.toNat_inj.mp hzero
      rw [truncate, List.length_take]
      omega

/-- One page: it continues what was obtained, its offset counts what was
obtained, and it is final exactly when nothing is left. -/
theorem Paged.answer_spec {maxChanges : UInt64} {start : Nat} {all : List Change} {p : Paging}
    (h : Paged maxChanges start all p) (limit : Option UInt64) :
    p.obtained ++ (p.server.answer p.next limit).changes <+: all.drop start ∧
      (p.server.answer p.next limit).offset.toNat =
        start + (p.obtained ++ (p.server.answer p.next limit).changes).length ∧
      start + (p.obtained ++ (p.server.answer p.next limit).changes).length ≤ all.length := by
  have hread := h.getChangesSince
  have hle := h.le
  have hpage := truncate_prefix (p.server.getChangesSince p.next) limit
  have hpageLen := hpage.length_le
  have hreadLen := congrArg List.length hread
  rw [List.length_drop, h.next] at hreadLen
  have hsplit : all.drop start = p.obtained ++ p.server.getChangesSince p.next := by
    rw [hread, h.next, ← List.drop_drop, ← List.prefix_iff_eq_append.mp h.obtained]
    simp
  refine ⟨?_, ?_, ?_⟩
  · rw [hsplit]
    exact (List.prefix_append_right_inj p.obtained).mpr hpage
  · rw [answer_offset, h.next, List.length_append, Nat.add_assoc]
  · simp only [SyncManager.answer, List.length_append]
    omega

/-- A page is final exactly when everything was obtained with it. -/
theorem Paged.isFinal_iff {maxChanges : UInt64} {start : Nat} {all : List Change} {p : Paging}
    (h : Paged maxChanges start all p) {limit : Option UInt64} (hlimit : limit ≠ some 0) :
    (p.server.answer p.next limit).isFinal = true ↔
      start + (p.obtained ++ (p.server.answer p.next limit).changes).length = all.length := by
  rcases h.answer_spec limit with ⟨_, hoffset, hle⟩
  have hfinal : (p.server.answer p.next limit).isFinal = true ↔
      (p.server.answer p.next limit).changes = [] ∨
        p.server.offset ≤ (p.server.answer p.next limit).offset := by
    simp [SyncManager.answer]
  rw [hfinal, UInt64.le_iff_toNat_le, hoffset, h.serverOffset]
  constructor
  · rintro (hempty | hreached)
    · -- an empty page means that nothing is left
      have hread : p.server.getChangesSince p.next = [] := by
        by_contra hne
        have hpos := truncate_length_pos hlimit hne
        rw [show truncate (p.server.getChangesSince p.next) limit = [] from hempty] at hpos
        simp at hpos
      rw [h.getChangesSince, List.drop_eq_nil_iff, h.next] at hread
      rw [hempty, List.append_nil] at hle ⊢
      omega
    · omega
  · intro heq
    exact Or.inr (by omega)

/-! ## Steps and runs -/

/-- The client takes over a page. -/
theorem Paging.step_request (localOffset : UInt64) (p : Paging) (limit : Option UInt64) :
    p.step localOffset (.request limit) =
      { server := p.server
        next := (p.server.answer p.next limit).offset
        obtained := p.obtained ++ (p.server.answer p.next limit).changes } := by
  simp only [Paging.step, processMessage_request]

/-- A page keeps the invariant. -/
theorem Paged.request {maxChanges : UInt64} {start : Nat} {all : List Change} {p : Paging}
    (h : Paged maxChanges start all p) (localOffset : UInt64) (limit : Option UInt64) :
    Paged maxChanges start all (p.step localOffset (.request limit)) := by
  rcases h.answer_spec limit with ⟨hpage, hoffset, hle⟩
  rw [Paging.step_request]
  exact ⟨h.server, h.fits, hoffset, hpage, hle⟩

/-- A recorded change keeps the invariant for the longer log. -/
theorem Paged.record {maxChanges : UInt64} {start : Nat} {all : List Change} {p : Paging}
    (h : Paged maxChanges start all p) (localOffset : UInt64) {c : Change}
    (hfits : (all ++ [c]).length ≤ maxChanges.toNat) :
    Paged maxChanges start (all ++ [c]) (p.step localOffset (.record c)) := by
  have hle := h.le
  refine ⟨?_, hfits, h.next, ?_, ?_⟩
  · simp only [Paging.step, h.server, recordAll_append, recordAll_cons, recordAll_nil]
  · rw [List.drop_append_of_le_length (by omega)]
    exact h.obtained.trans (List.prefix_append _ _)
  · simp only [Paging.step, List.length_append]
    omega

/-- A run of pages and writes keeps the invariant. -/
theorem Paging.run_paged {maxChanges : UInt64} {start : Nat} {all : List Change} {p : Paging}
    (h : Paged maxChanges start all p) (localOffset : UInt64) {events : List PagingEvent}
    (hfits : (all ++ recorded events).length ≤ maxChanges.toNat) :
    Paged maxChanges start (all ++ recorded events) (p.run localOffset events) := by
  induction events generalizing p all with
  | nil => simpa [recorded, Paging.run] using h
  | cons event events ih =>
      cases event with
      | record c =>
          have hfits' : ((all ++ [c]) ++ recorded events).length ≤ maxChanges.toNat := by
            simpa [recorded] using hfits
          have hstep := h.record localOffset (c := c) (by
            rw [List.length_append] at hfits'
            omega)
          have hrest := ih hstep hfits'
          rwa [List.append_assoc, List.singleton_append] at hrest
      | request limit => exact ih (h.request localOffset limit) hfits

/-- Requests without further writes reach the final page within as many requests
as changes are left, and one if none is. -/
theorem Paged.reaches_final {maxChanges : UInt64} {start : Nat} {all : List Change} {p : Paging}
    (h : Paged maxChanges start all p) (localOffset : UInt64) {limits : List (Option UInt64)}
    (hlimits : some 0 ∉ limits) (hne : limits ≠ [])
    (henough : all.length - p.next.toNat ≤ limits.length) :
    ∃ front limit back, limits = front ++ limit :: back ∧
      ((p.run localOffset (front.map .request)).server.answer
        (p.run localOffset (front.map .request)).next limit).isFinal = true := by
  induction limits generalizing p with
  | nil => exact absurd rfl hne
  | cons limit limits ih =>
      have hlimit : limit ≠ some 0 := fun hzero => hlimits (by simp [hzero])
      by_cases hfinal : (p.server.answer p.next limit).isFinal = true
      · exact ⟨[], limit, limits, rfl, hfinal⟩
      · -- the page was not empty, so fewer changes are left
        rcases h.answer_spec limit with ⟨_, _, hle⟩
        have hmore := mt (h.isFinal_iff hlimit).mpr hfinal
        have hpage : 0 < (p.server.answer p.next limit).changes.length := by
          by_contra hempty
          have hnil := List.eq_nil_of_length_eq_zero (Nat.eq_zero_of_not_pos hempty)
          exact hfinal (by simp [SyncManager.answer] at hnil ⊢; simp [hnil])
        have hnext := h.next
        have hstep := h.request localOffset limit
        have hstepNext := hstep.next
        rw [Paging.step_request, List.length_append] at hstepNext
        rw [List.length_append] at hle hmore
        rw [List.length_cons] at henough
        rw [Paging.step_request] at hstep
        rcases ih hstep (fun hmem => hlimits (List.mem_cons_of_mem _ hmem))
          (by
            rintro rfl
            simp only [List.length_nil] at henough
            omega)
          (by omega) with ⟨front, last, back, rfl, hlast⟩
        refine ⟨limit :: front, last, back, rfl, ?_⟩
        rw [← Paging.step_request localOffset] at hlast
        exact hlast

/-! ## Delivery -/

/-- Between pages the server may record as long as nothing is dropped.  Each page
continues what the client obtained, its offset counts what was obtained, it is
final exactly when its offset has reached the server's, and then everything was
obtained.  Once recording stops, the final page comes within as many requests as
changes are left, or with the first one. -/
theorem paging_delivers (maxChanges start : UInt64) (cs : List Change) (localOffset : UInt64)
    (events : List PagingEvent) (hstart : start.toNat ≤ cs.length)
    (hfits : (cs ++ recorded events).length ≤ maxChanges.toNat)
    (hlimits : .request (some 0) ∉ events) :
    (∀ front limit back, events = front ++ .request limit :: back →
      ∃ batch p, p = Paging.run localOffset
          ⟨(SyncManager.new maxChanges).recordAll cs, start, []⟩ front ∧
        p.server.processMessage (.request p.next limit) localOffset =
          (p.server, .response batch) ∧
        p.obtained ++ batch.changes <+: (cs ++ recorded front).drop start.toNat ∧
        batch.offset.toNat = start.toNat + (p.obtained ++ batch.changes).length ∧
        (batch.isFinal = true ↔ batch.offset = p.server.offset) ∧
        (batch.isFinal = true →
          p.obtained ++ batch.changes = (cs ++ recorded front).drop start.toNat)) ∧
    (∀ limits : List (Option UInt64), some 0 ∉ limits → limits ≠ [] →
      (cs ++ recorded events).length - (Paging.run localOffset
        ⟨(SyncManager.new maxChanges).recordAll cs, start, []⟩ events).next.toNat ≤
          limits.length →
      ∃ front limit back p, limits = front ++ limit :: back ∧
        p = Paging.run localOffset ⟨(SyncManager.new maxChanges).recordAll cs, start, []⟩
          (events ++ front.map .request) ∧
        (p.server.answer p.next limit).isFinal = true) := by
  have hinit : Paged maxChanges start.toNat cs
      ⟨(SyncManager.new maxChanges).recordAll cs, start, []⟩ := by
    rw [List.length_append] at hfits
    exact ⟨rfl, by omega, by simp, List.nil_prefix, by simpa using hstart⟩
  constructor
  · intro front limit back hevents
    have hfront : (cs ++ recorded front).length ≤ maxChanges.toNat := by
      rw [hevents, recorded_append] at hfits
      simp only [List.length_append] at hfits ⊢
      omega
    have hlimit : limit ≠ some 0 := by
      rintro rfl
      exact hlimits (by simp [hevents])
    have hpaged := Paging.run_paged hinit localOffset hfront
    rcases hpaged.answer_spec limit with ⟨hpage, hoffset, hle⟩
    have hfinal := hpaged.isFinal_iff hlimit
    refine ⟨_, _, rfl, processMessage_request _ _ _ _, hpage, hoffset, ?_, ?_⟩
    · rw [hfinal, ← UInt64.toNat_inj, hoffset, hpaged.serverOffset]
    · intro hlast
      rw [hfinal] at hlast
      refine hpage.eq_of_length ?_
      rw [List.length_drop]
      omega
  · intro limits hvalid hne henough
    have hpaged := Paging.run_paged hinit localOffset hfits
    rcases hpaged.reaches_final localOffset hvalid hne henough with
      ⟨front, limit, back, hsplit, hfinal⟩
    refine ⟨front, limit, back, _, hsplit, rfl, ?_⟩
    rw [Paging.run, List.foldl_append]
    exact hfinal

/-- Paging with one write between two pages of at most one change. -/
theorem paging_delivers_sample :
    (∃ batch p, p = Paging.run 0 ⟨(SyncManager.new 10).recordAll [sampleChange], 0, []⟩
        [.request (some 1), .record sampleChange] ∧
      p.server.processMessage (.request p.next (some 1)) 0 = (p.server, .response batch) ∧
      p.obtained ++ batch.changes <+: [sampleChange, sampleChange].drop 0 ∧
      batch.offset.toNat = 0 + (p.obtained ++ batch.changes).length ∧
      (batch.isFinal = true ↔ batch.offset = p.server.offset) ∧
      (batch.isFinal = true →
        p.obtained ++ batch.changes = [sampleChange, sampleChange].drop 0)) ∧
    (∃ front limit back p, [none] = front ++ limit :: back ∧
      p = Paging.run 0 ⟨(SyncManager.new 10).recordAll [sampleChange], 0, []⟩
        ([.request (some 1), .record sampleChange, .request (some 1)] ++ front.map .request) ∧
      (p.server.answer p.next limit).isFinal = true) := by
  have hdelivers := paging_delivers 10 0 [sampleChange] 0
    [.request (some 1), .record sampleChange, .request (some 1)] (by decide) (by decide)
    (by simp)
  exact ⟨hdelivers.1 [.request (some 1), .record sampleChange] (some 1) [] rfl,
    hdelivers.2 [none] (by simp) (by simp) (by decide)⟩

end IrohSync
