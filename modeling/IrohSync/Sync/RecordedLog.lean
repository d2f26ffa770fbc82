import Mathlib.Algebra.Order.Ring.Nat
import Mathlib.Data.List.GetD
import IrohSync.Sync.RequestArithmetic

/-!
# The log with its offsets

The log of a manager holds changes without the offsets that recording returned
for them; a read counts back from the current offset.  Here every retained
change carries its offset, and the projection to the manager of the source shows
that nothing else changed.  Recording is split into its two atomic steps, taking
an offset and pushing the change.

Main results:

- Theorems {lit}`manager_record` and {lit}`since_map`: the projection.
- Theorem {lit}`Numbered.push`: the offsets of a log are consecutive numbers that
  end at the latest one.
- Theorem {lit}`resume_offset_iff`: exactly when the offset of a response is
  where a client has to continue.
-/

namespace IrohSync

open BoundedLog

/-! ## The log -/

/-- A manager whose retained changes carry the offsets that were returned for
them. -/
structure RecordedLog where
  offset : UInt64
  entries : List (UInt64 × Change)
  maxChanges : UInt64
deriving DecidableEq, Repr

/-- The log of a new manager. -/
def RecordedLog.new (maxChanges : UInt64) : RecordedLog where
  offset := 0
  entries := []
  maxChanges := maxChanges

/-- The manager as the source keeps it. -/
def RecordedLog.manager (l : RecordedLog) : SyncManager where
  offset := l.offset
  changes := l.entries.map Prod.snd
  maxChanges := l.maxChanges

/-- Take the next offset. -/
def RecordedLog.fetch (l : RecordedLog) : RecordedLog × UInt64 :=
  ({ l with offset := l.offset + 1 }, l.offset)

/-- Push a change with the offset that was taken for it. -/
def RecordedLog.push (l : RecordedLog) (entry : UInt64 × Change) : RecordedLog :=
  { l with entries := BoundedLog.push l.maxChanges.toNat l.entries entry }

/-- Record a change. -/
def RecordedLog.record (l : RecordedLog) (c : Change) : RecordedLog :=
  l.fetch.1.push (l.fetch.2, c)

/-- Record changes one after the other. -/
def RecordedLog.recordAll (l : RecordedLog) (cs : List Change) : RecordedLog :=
  cs.foldl RecordedLog.record l

/-- What a read from an offset returns, with its offsets. -/
def RecordedLog.since (l : RecordedLog) (offset : UInt64) : List (UInt64 × Change) :=
  if l.offset ≤ offset then []
  else l.entries.drop (l.entries.length - (l.offset - offset).toNat)

/-- A page of what a read returns. -/
def RecordedLog.page (l : RecordedLog) (offset : UInt64) (limit : Option UInt64) :
    List (UInt64 × Change) :=
  match limit with
  | some limit => (l.since offset).take limit.toNat
  | none => l.since offset

/-! ## The projection -/

/-- Recording is recording in the manager, at the offset that it returns. -/
theorem manager_record (l : RecordedLog) (c : Change) :
    (l.record c).manager = (l.manager.recordChange c).1 ∧
      l.fetch.2 = (l.manager.recordChange c).2 := by
  refine ⟨?_, rfl⟩
  simp only [RecordedLog.record, RecordedLog.fetch, RecordedLog.push, RecordedLog.manager,
    SyncManager.recordChange, BoundedLog.push_eq_drop, List.map_drop, List.map_append,
    List.map_cons, List.map_nil, List.length_map]

theorem manager_recordAll (l : RecordedLog) (cs : List Change) :
    (l.recordAll cs).manager = l.manager.recordAll cs := by
  induction cs generalizing l with
  | nil => rfl
  | cons c cs ih =>
      rw [recordAll_cons, ← (manager_record l c).1, ← ih]
      rfl

/-- A read returns what the manager returns. -/
theorem since_map (l : RecordedLog) (offset : UInt64) :
    (l.since offset).map Prod.snd = l.manager.getChangesSince offset := by
  unfold RecordedLog.since SyncManager.getChangesSince
  simp only [RecordedLog.manager, List.length_map]
  split_ifs
  · rfl
  · exact List.map_drop

theorem page_map (l : RecordedLog) (offset : UInt64) (limit : Option UInt64) :
    (l.page offset limit).map Prod.snd =
      truncate (l.manager.getChangesSince offset) limit := by
  cases limit with
  | none => exact since_map l offset
  | some limit => rw [RecordedLog.page, List.map_take, since_map, truncate]

/-- The offset behind a page does not wrap around. -/
theorem toNat_add_page (l : RecordedLog) (offset : UInt64) (limit : Option UInt64) :
    (offset + UInt64.ofNat (l.page offset limit).length).toNat =
      offset.toNat + (l.page offset limit).length := by
  rw [← List.length_map (f := Prod.snd), page_map]
  exact answer_offset l.manager offset limit

/-- A read returns as many of the newest entries as the offset is ahead. -/
theorem since_eq (l : RecordedLog) (offset : UInt64) :
    l.since offset = latest (l.offset.toNat - offset.toNat) l.entries := by
  unfold RecordedLog.since
  split_ifs with hle
  · rw [Nat.sub_eq_zero_of_le (UInt64.le_iff_toNat_le.mp hle), latest, Nat.sub_zero,
      List.drop_length]
  · have hlt : offset ≤ l.offset := UInt64.le_of_lt (UInt64.not_le.mp hle)
    rw [latest, UInt64.toNat_sub_of_le _ _ hlt]

theorem since_length (l : RecordedLog) (offset : UInt64) :
    (l.since offset).length = min (l.offset.toNat - offset.toNat) l.entries.length := by
  rw [since_eq, latest_length]

/-! ## Consecutive offsets -/

/-- The entries carry the last of the first `n` offsets. -/
structure Numbered (l : RecordedLog) (n : Nat) : Prop where
  length_le : l.entries.length ≤ n
  offsets : l.entries.map Prod.fst =
    (List.range' (n - l.entries.length) l.entries.length).map UInt64.ofNat

theorem numbered_new (maxChanges : UInt64) : Numbered (RecordedLog.new maxChanges) 0 where
  length_le := Nat.le_refl 0
  offsets := rfl

/-- Pushing the change that took the next offset. -/
theorem Numbered.push {l : RecordedLog} {n : Nat} (h : Numbered l n) (c : Change) :
    Numbered (l.push (UInt64.ofNat n, c)) (n + 1) := by
  have hle := h.length_le
  generalize hcut : 1 - (l.maxChanges.toNat - l.entries.length) = cut
  have hcutLe : cut ≤ 1 := hcut ▸ Nat.sub_le _ _
  have hentries : (l.push (UInt64.ofNat n, c)).entries =
      (l.entries ++ [(UInt64.ofNat n, c)]).drop cut := by
    rw [RecordedLog.push, push_eq_drop, hcut]
  have hlength : (l.push (UInt64.ofNat n, c)).entries.length = l.entries.length + 1 - cut := by
    rw [hentries, List.length_drop, List.length_append, List.length_singleton]
  constructor
  · rw [hlength]
    omega
  · have hgrown : (l.entries ++ [(UInt64.ofNat n, c)]).map Prod.fst =
        (List.range' (n - l.entries.length) (l.entries.length + 1)).map UInt64.ofNat := by
      rw [List.map_append, h.offsets, List.range'_1_concat, List.map_append,
        Nat.sub_add_cancel hle]
      rfl
    rw [hlength, hentries, List.map_drop, hgrown, ← List.map_drop, List.drop_range',
      Nat.mul_one]
    congr 2
    omega

/-- The offsets of the newest entries. -/
theorem Numbered.latest {l : RecordedLog} {n : Nat} (h : Numbered l n) (k : Nat) :
    (BoundedLog.latest k l.entries).map Prod.fst =
      (List.range' (n - min k l.entries.length) (min k l.entries.length)).map UInt64.ofNat := by
  have hle := h.length_le
  rw [BoundedLog.latest, List.map_drop, h.offsets, ← List.map_drop, List.drop_range', Nat.mul_one]
  congr 2 <;> omega

/-- After any number of recorded changes the offsets count them. -/
theorem numbered_recordAll {l : RecordedLog} {n : Nat} (h : Numbered l n)
    (hoffset : l.offset = UInt64.ofNat n) (cs : List Change) :
    Numbered (l.recordAll cs) (n + cs.length) ∧
      (l.recordAll cs).offset = UInt64.ofNat (n + cs.length) := by
  induction cs generalizing l n with
  | nil => exact ⟨h, hoffset⟩
  | cons c cs ih =>
      have hfetched : Numbered l.fetch.1 n := ⟨h.length_le, h.offsets⟩
      have hnext : Numbered (l.record c) (n + 1) := by
        have hpushed := hfetched.push c
        rwa [← hoffset] at hpushed
      have hoffsetNext : (l.record c).offset = UInt64.ofNat (n + 1) := by
        rw [UInt64.ofNat_add, ← hoffset]
        rfl
      rw [List.length_cons, ← Nat.add_assoc, Nat.add_right_comm]
      exact ih hnext hoffsetNext

/-! ## Resuming -/

/-- A client that was answered with a page and continues from an offset gets
exactly what follows the page: the offset is one more than that of the last
change, and nothing is repeated or skipped. -/
def ResumesRight (l : RecordedLog) (offset : UInt64) (page : List (UInt64 × Change))
    (resume : UInt64) : Prop :=
  ∀ last, page.getLast? = some last →
    resume.toNat = last.1.toNat + 1 ∧ l.since offset = page ++ l.since resume

/-- The requested offset is not older than the oldest retained change, or the
answer is empty for lack of a limit or of any retained change. -/
def Resumable (l : RecordedLog) (offset : UInt64) (limit : Option UInt64) : Prop :=
  limit = some 0 ∨ l.entries = [] ∨ l.offset.toNat - offset.toNat ≤ l.entries.length

theorem page_prefix_since (l : RecordedLog) (offset : UInt64) (limit : Option UInt64) :
    l.page offset limit <+: l.since offset := by
  cases limit with
  | none => exact List.prefix_refl _
  | some limit => exact List.take_prefix _ _

/-- A page is empty only for lack of a limit, of entries or of anything new. -/
theorem resumable_of_page_eq_nil {l : RecordedLog} {offset : UInt64} {limit : Option UInt64}
    (hnil : l.page offset limit = []) : Resumable l offset limit := by
  have hsince : limit = some 0 ∨ l.since offset = [] := by
    cases limit with
    | none => exact Or.inr hnil
    | some limit =>
        rcases List.take_eq_nil_iff.mp hnil with hzero | hempty
        · exact Or.inl (congrArg some (UInt64.toNat_inj.mp hzero))
        · exact Or.inr hempty
  rcases hsince with hlimit | hempty
  · exact Or.inl hlimit
  · have hlength := congrArg List.length hempty
    rw [since_length, List.length_nil] at hlength
    by_cases hentries : l.entries = []
    · exact Or.inr (Or.inl hentries)
    · have hpos := List.length_pos_iff.mpr hentries
      exact Or.inr (Or.inr (by omega))

/-- The offset that was returned for the last change of a page. -/
theorem Numbered.last_page {l : RecordedLog} {n : Nat} (h : Numbered l n)
    (hoffset : l.offset = UInt64.ofNat n) {offset : UInt64} {limit : Option UInt64}
    {last : UInt64 × Change} (hlast : (l.page offset limit).getLast? = some last) :
    last.1.toNat + 1 = l.offset.toNat -
      min (l.offset.toNat - offset.toNat) l.entries.length + (l.page offset limit).length := by
  generalize hcount : min (l.offset.toNat - offset.toNat) l.entries.length = count
  generalize hsize : (l.page offset limit).length = size
  have hpos : 0 < size := by
    rw [← hsize]
    exact List.length_pos_iff.mpr (by rintro hnil; simp [hnil] at hlast)
  have hsizeLe : size ≤ count := by
    rw [← hsize, ← hcount, ← since_length]
    exact (page_prefix_since l offset limit).length_le
  have hoffsets : (l.page offset limit).map Prod.fst =
      (List.range' (n - count) size).map UInt64.ofNat := by
    rw [List.prefix_iff_eq_take.mp (page_prefix_since l offset limit), hsize, List.map_take,
      since_eq, h.latest, hcount, ← List.map_take, List.take_range'_of_length_ge hsizeLe]
  have hnumber : last.1 = UInt64.ofNat (n - count + size - 1) := by
    have hmap := congrArg List.getLast? hoffsets
    rw [List.getLast?_map, hlast, List.getLast?_map, List.getLast?_range',
      if_neg (Nat.pos_iff_ne_zero.mp hpos)] at hmap
    exact Option.some.inj hmap
  -- the offset is `n` modulo `2 ^ 64`, and the last number is less than it in the same round
  have hmod : l.offset.toNat = n % 2 ^ 64 := by
    rw [hoffset, UInt64.toNat_ofNat']
  rw [hnumber, UInt64.toNat_ofNat']
  omega

/-- A nonempty page is resumed where it ends exactly if the requested offset was
retained. -/
theorem Numbered.resumesRight_iff {l : RecordedLog} {n : Nat} (h : Numbered l n)
    (hoffset : l.offset = UInt64.ofNat n) (offset : UInt64) (limit : Option UInt64) :
    ResumesRight l offset (l.page offset limit)
        (offset + UInt64.ofNat (l.page offset limit).length) ↔ Resumable l offset limit := by
  by_cases hnil : l.page offset limit = []
  · refine ⟨fun _ => resumable_of_page_eq_nil hnil, fun _ last hlast => ?_⟩
    simp [hnil] at hlast
  · have hpos := List.length_pos_iff.mpr hnil
    have hpage := page_prefix_since l offset limit
    have hsince := since_eq l offset
    have hsinceLength := since_length l offset
    have hsize := hpage.length_le
    have hresume := toNat_add_page l offset limit
    rcases Option.isSome_iff_exists.mp (List.getLast?_isSome.mpr hnil) with ⟨last, hlast⟩
    have hnumber := h.last_page hoffset hlast
    constructor
    · intro hright
      have hfirst := (hright last hlast).1
      rw [hresume, hnumber] at hfirst
      refine Or.inr (Or.inr (Nat.le_of_not_lt fun hbehind => ?_))
      rw [Nat.min_eq_right (Nat.le_of_lt hbehind)] at hfirst
      omega
    · intro hresumable
      have hretained : l.offset.toNat - offset.toNat ≤ l.entries.length := by
        rcases hresumable with hzero | hempty | hretained
        · simp [hzero, RecordedLog.page] at hnil
        · rw [hsinceLength, hempty, List.length_nil, Nat.min_zero] at hsize
          omega
        · exact hretained
      intro last' hlast'
      obtain rfl : last = last' := Option.some.inj (hlast.symm.trans hlast')
      refine ⟨by rw [hresume]; omega, ?_⟩
      -- what is left of the read is the newest part of the log
      have hrest : l.since (offset + UInt64.ofNat (l.page offset limit).length) =
          (l.since offset).drop (l.page offset limit).length := by
        rw [since_eq, hsince, hresume, BoundedLog.latest, BoundedLog.latest, List.drop_drop]
        congr 1
        omega
      rw [hrest]
      exact List.prefix_append_drop hpage

/-- However many changes were recorded, the offset of the response to a request
is one more than that of the last change in it, and a client that continues
there gets no change twice and misses none, exactly if the requested offset is
not older than the retained changes or the response is empty anyway. -/
theorem resume_offset_iff (maxChanges : UInt64) (cs : List Change) (offset : UInt64)
    (limit : Option UInt64) (localOffset : UInt64) :
    ∃ batch, ((SyncManager.new maxChanges).recordAll cs).processMessage
          (.request offset limit) localOffset =
        ((SyncManager.new maxChanges).recordAll cs, .response batch) ∧
      batch.changes =
        (((RecordedLog.new maxChanges).recordAll cs).page offset limit).map Prod.snd ∧
      (ResumesRight ((RecordedLog.new maxChanges).recordAll cs) offset
          (((RecordedLog.new maxChanges).recordAll cs).page offset limit) batch.offset ↔
        Resumable ((RecordedLog.new maxChanges).recordAll cs) offset limit) := by
  rcases numbered_recordAll (numbered_new maxChanges) rfl cs with ⟨hnumbered, hoffset⟩
  have hmanager : (SyncManager.new maxChanges).recordAll cs =
      ((RecordedLog.new maxChanges).recordAll cs).manager :=
    (manager_recordAll (RecordedLog.new maxChanges) cs).symm
  have hchanges : (((SyncManager.new maxChanges).recordAll cs).answer offset limit).changes =
      (((RecordedLog.new maxChanges).recordAll cs).page offset limit).map Prod.snd := by
    rw [page_map, ← hmanager]
    rfl
  refine ⟨_, processMessage_request _ offset limit localOffset, hchanges, ?_⟩
  have hresume : (((SyncManager.new maxChanges).recordAll cs).answer offset limit).offset =
      offset + UInt64.ofNat
        (((RecordedLog.new maxChanges).recordAll cs).page offset limit).length := by
    rw [← List.length_map (f := Prod.snd), ← hchanges]
    rfl
  rw [hresume]
  exact hnumbered.resumesRight_iff hoffset offset limit

/-- With room for one change, a request for both of two recorded changes is
answered with the second one and the offset behind the first. -/
theorem not_resumesRight_trimmed :
    ∃ batch, ((SyncManager.new 1).recordAll [sampleChange, otherChange]).processMessage
          (.request 0 none) 2 =
        ((SyncManager.new 1).recordAll [sampleChange, otherChange], .response batch) ∧
      batch.changes = [otherChange] ∧
      ¬ ResumesRight ((RecordedLog.new 1).recordAll [sampleChange, otherChange]) 0
        [(1, otherChange)] batch.offset := by
  refine ⟨⟨1, [otherChange], false⟩, by decide, rfl, fun hright => ?_⟩
  have hfirst := (hright (1, otherChange) rfl).1
  exact absurd hfirst (by decide)

end IrohSync
