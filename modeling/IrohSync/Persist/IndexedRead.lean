import IrohSync.Persist.Session

/-!
# Index-assisted reads

A read starts at the last index entry that is not behind the requested offset.
It counts the record at that entry as one more than its number, so the record in
front of the requested one is returned as well unless the entry is exactly the
requested record.

Main results:

- Theorems {lit}`startPosition_expectedIndex` and {lit}`startOffset_recordPosition`:
  where a read starts and how it counts.
- Theorem {lit}`readChangesSince_logBytes`: the result of an indexed read.
- Theorem {lit}`readChangesSince_iff`: exactly when it is the plain scan without
  its first records.
-/

namespace IrohSync

open FileIo Framing Loop BinarySearch

/-! ## The start of a read -/

/-- An index entry of a record of the log. -/
structure Indexed (rs : List Record) (indexInterval : Nat) (i : Nat) : Prop where
  lt : i < indexedCount rs
  mod : i % indexInterval = 0

/-- The entries of the index of a whole log. -/
theorem mem_index_iff {indexInterval : Nat} {rs : List Record} {e : IndexEntry} :
    e ∈ expectedIndex indexInterval headerSize 0 rs ↔
      ∃ i, Indexed rs indexInterval i ∧ e.offset = i ∧ e.position = recordPosition rs i ∧
        ∃ r, rs[i]? = some r ∧ e.length = r.bytes.length := by
  rw [mem_expectedIndex_iff]
  constructor
  · rintro ⟨i, hi, hmod, hoff, hpos, hlen⟩
    rw [Nat.zero_add] at hmod hoff
    exact ⟨i, ⟨hi, hmod⟩, hoff, hpos, hlen⟩
  · rintro ⟨i, hi, hoff, hpos, hlen⟩
    exact ⟨i, hi.lt, by simpa using hi.mod, by simpa using hoff, hpos, hlen⟩

/-- Every indexed record has an entry. -/
theorem Indexed.exists_entry {rs : List Record} {indexInterval i : Nat}
    (hi : Indexed rs indexInterval i) :
    ∃ e ∈ expectedIndex indexInterval headerSize 0 rs, e.offset = i ∧
      e.position = recordPosition rs i := by
  have hget := List.getElem?_eq_getElem (Nat.lt_of_lt_of_le hi.lt (indexedCount_le rs))
  exact ⟨⟨i, recordPosition rs i, _⟩, mem_index_iff.mpr ⟨i, hi, rfl, rfl, _, hget, rfl⟩, rfl, rfl⟩

/-- A read that starts at an indexed record counts it as the next one. -/
theorem startOffset_recordPosition {rs : List Record} {indexInterval i : Nat}
    (hi : Indexed rs indexInterval i) :
    startOffset (expectedIndex indexInterval headerSize 0 rs) (recordPosition rs i) = i + 1 := by
  have hmax : (((expectedIndex indexInterval headerSize 0 rs).filter fun e =>
      e.position ≤ recordPosition rs i).map IndexEntry.offset).max? = some i := by
    rw [List.max?_eq_some_iff]
    constructor
    · rcases hi.exists_entry with ⟨e, he, hoff, hpos⟩
      exact List.mem_map.mpr ⟨e, List.mem_filter.mpr ⟨he, by simp [hpos]⟩, hoff⟩
    · intro offset hoffset
      rcases List.mem_map.mp hoffset with ⟨e, he, rfl⟩
      rcases List.mem_filter.mp he with ⟨hmem, hle⟩
      rcases mem_index_iff.mp hmem with ⟨j, hj, hoff, hpos, _⟩
      rw [hoff]
      by_contra hlt
      have hposition := recordPosition_lt rs (Nat.lt_of_not_le hlt)
        (Nat.le_of_lt (Nat.lt_of_lt_of_le hj.lt (indexedCount_le rs)))
      simp only [decide_eq_true_eq, hpos] at hle
      omega
  simp [startOffset, hmax]

/-- A read starts at the last indexed record that is not behind the requested
offset. -/
theorem startPosition_expectedIndex {rs : List Record} {indexInterval : Nat}
    {index : List IndexEntry} (offset : Nat)
    (hindex : expectedIndex indexInterval headerSize 0 rs = index) (hne : indexedCount rs ≠ 0) :
    ∃ i, Indexed rs indexInterval i ∧ i ≤ offset ∧
      (∀ j, Indexed rs indexInterval j → j ≤ offset → j ≤ i) ∧
      startPosition index offset = recordPosition rs i := by
  have hfirst : Indexed rs indexInterval 0 := ⟨Nat.pos_of_ne_zero hne, Nat.zero_mod _⟩
  by_cases hzero : offset = 0
  · subst offset
    exact ⟨0, hfirst, Nat.le_refl 0, fun j _ hj => hj, by simp [startPosition, recordPosition]⟩
  · have hsorted := pairwise_expectedIndex indexInterval headerSize 0 rs
    rw [hindex] at hsorted
    have hentry : ∀ e ∈ index, ∃ i, Indexed rs indexInterval i ∧ e.offset = i ∧
        e.position = recordPosition rs i := by
      intro e he
      rw [← hindex] at he
      rcases mem_index_iff.mp he with ⟨i, hi, hoff, hpos, _⟩
      exact ⟨i, hi, hoff, hpos⟩
    cases hsearch : binarySearchBy index (fun e => compare e.offset offset) with
    | ok pos =>
        rcases binarySearchBy_ok hsearch with ⟨hpos, hcmp⟩
        have hoffset : index[pos].offset = offset := Nat.compare_eq_eq.mp hcmp
        rcases hentry _ (List.getElem_mem hpos) with ⟨i, hi, hoff, hposition⟩
        refine ⟨i, hi, by omega, fun j _ hj => by omega, ?_⟩
        simp [startPosition, hzero, hsearch, hpos, hposition]
    | error pos =>
        have hpred : ∀ j, Indexed rs indexInterval j → j ≤ offset →
            ∃ hlt : pos - 1 < index.length, 0 < pos ∧ j ≤ index[pos - 1].offset ∧
              index[pos - 1].offset < offset := by
          intro j hj hjoffset
          rcases hj.exists_entry with ⟨e, he, heoff, _⟩
          rw [hindex] at he
          rw [← heoff]
          exact binarySearchBy_error_pred hsorted hsearch he (heoff ▸ hjoffset)
        -- the first record is indexed, so the insertion point is not the start
        rcases hpred 0 hfirst (Nat.zero_le _) with ⟨hlt, hpos, _, hbelow⟩
        rcases hentry _ (List.getElem_mem hlt) with ⟨i, hi, hoff, hposition⟩
        refine ⟨i, hi, by omega, ?_, ?_⟩
        · intro j hj hjoffset
          rcases hpred j hj hjoffset with ⟨_, _, hle, _⟩
          rwa [hoff] at hle
        · have hposNe : pos ≠ 0 := Nat.pos_iff_ne_zero.mp hpos
          simp [startPosition, hzero, hsearch, hposNe, hlt, hposition]

/-! ## The result of a read -/

/-- A log whose first record is too large, or that has none, has no index. -/
theorem expectedIndex_eq_nil {rs : List Record} {indexInterval : Nat}
    (hzero : indexedCount rs = 0) : expectedIndex indexInterval headerSize 0 rs = [] := by
  rw [List.eq_nil_iff_forall_not_mem]
  intro e he
  rcases mem_index_iff.mp he with ⟨i, hi, _⟩
  have hlt := hi.lt
  omega

/-- Reading a well-formed log from the start of a record. -/
theorem readChangesLoop_logBytes {bc : Bincode} (hbc : bc.Lawful) {cs : List Change}
    {rs : List Record} (henc : Encodes bc cs rs) (offset i current : Nat) :
    (readChangesLoop bc offset).run
        ⟨Reader.seek ⟨logBytes rs, 0⟩ (recordPosition rs i), [], current⟩ =
      .ok (cs.drop (i + (offset - current))) := by
  have hrest : Reader.rest (Reader.seek ⟨logBytes rs, 0⟩ (recordPosition rs i)) =
      recordBytes (rs.drop i) ++ [] := by
    rw [List.append_nil]
    exact drop_recordPosition rs i
  rw [readChangesLoop_records hbc (henc.drop i) hrest, readChangesLoop_eof]
  · simp [List.drop_drop]
  · rw [Reader.rest_advance_append hrest]
    simp

/-- The result of a read with the index that opening builds: the record in front
of the requested one is returned too, unless there is no index or the requested
record has an entry. -/
theorem readChangesSince_logBytes {bc : Bincode} (hbc : bc.Lawful) {s : FileChangeStore}
    {cs : List Change} {rs : List Record} (henc : Encodes bc cs rs)
    (hlog : s.log = some (logBytes rs)) {indexInterval : Nat}
    (hindex : buildIndex (logBytes rs) indexInterval = .ok s.index) (offset : Nat) :
    s.readChangesSince bc offset =
      .ok (cs.drop (if indexedCount rs = 0 ∨
        (offset % indexInterval = 0 ∧ offset < indexedCount rs) then offset else offset - 1)) := by
  rw [buildIndex_logBytes, Except.ok.injEq] at hindex
  by_cases hzero : indexedCount rs = 0
  · rw [if_pos (Or.inl hzero)]
    have hread := readChangesLoop_logBytes hbc henc offset 0 0
    simp only [FileChangeStore.readChangesSince, hlog, ← hindex, expectedIndex_eq_nil hzero]
    rw [show startPosition [] offset = recordPosition rs 0 by
      simp [startPosition, binarySearchBy, recordPosition]]
    rw [show startOffset [] (recordPosition rs 0) = 0 from rfl, hread]
    simp
  · rcases startPosition_expectedIndex offset hindex hzero with ⟨i, hi, hle, hgreatest, hstart⟩
    rw [← hindex] at hstart
    have hread := readChangesLoop_logBytes hbc henc offset i (i + 1)
    simp only [FileChangeStore.readChangesSince, hlog, ← hindex, hstart,
      startOffset_recordPosition hi, hread]
    have hlt := hi.lt
    have hmod := hi.mod
    split_ifs with hentry
    · have hindexed := hentry.resolve_left hzero
      have hge := hgreatest offset ⟨hindexed.2, hindexed.1⟩ (Nat.le_refl _)
      rw [show i + (offset - (i + 1)) = offset by omega]
    · have hne : i ≠ offset := by
        intro heq
        subst heq
        exact hentry (Or.inr ⟨hmod, hlt⟩)
      rw [show i + (offset - (i + 1)) = offset - 1 by omega]

/-- Where an indexed read returns exactly the requested records: everything is
requested, or nothing, or there is no index, or the requested record is indexed. -/
def IndexedReadExact (rs : List Record) (indexInterval offset : Nat) : Prop :=
  offset = 0 ∨ rs.length < offset ∨ indexedCount rs = 0 ∨
    (offset % indexInterval = 0 ∧ offset < indexedCount rs)

/-- A read with the index that opening builds returns exactly the records from
the requested offset on in these cases and in no others. -/
theorem readChangesSince_iff (bc : Bincode) (hbc : bc.Lawful) (s : FileChangeStore)
    (cs : List Change) (rs : List Record) (henc : Encodes bc cs rs)
    (hlog : s.log = some (logBytes rs)) (indexInterval : Nat)
    (hindex : buildIndex (logBytes rs) indexInterval = .ok s.index) (offset : Nat) :
    s.readChangesSince bc offset = .ok (cs.drop offset) ↔
      IndexedReadExact rs indexInterval offset := by
  rw [readChangesSince_logBytes hbc henc hlog hindex, Except.ok.injEq, IndexedReadExact]
  have hlen := henc.length_eq
  split_ifs with hentry
  · simp [hentry]
  · constructor
    · intro hdrop
      have hlengths := congrArg List.length hdrop
      simp only [List.length_drop] at hlengths
      omega
    · intro hcond
      rcases hcond with hzero | hbehind | hindexed
      · rw [hzero]
      · rw [List.drop_eq_nil_of_le (by omega), List.drop_eq_nil_of_le (by omega)]
      · exact absurd hindexed hentry

/-- A closed store with an index of its log. -/
def indexedStoreOf (rs : List Record) (indexInterval : Nat) : FileChangeStore :=
  { storeOf rs with
    index := expectedIndex indexInterval headerSize 0 rs
    indexInterval := indexInterval }

theorem indexedStoreOf_log (rs : List Record) (indexInterval : Nat) :
    (indexedStoreOf rs indexInterval).log = some (logBytes rs) :=
  storeOf_log rs

/-- Two records of the small change. -/
theorem encodes_sampleChange_twice :
    Encodes sampleBincode [sampleChange, sampleChange] [sampleRecord, sampleRecord] :=
  .cons serialize_sampleChange (.cons serialize_sampleChange .nil)

/-- The criterion at a log of two records, the second of which is requested. -/
theorem readChangesSince_iff_sample :
    (indexedStoreOf [sampleRecord, sampleRecord] 1000).readChangesSince sampleBincode 1 =
        .ok ([sampleChange, sampleChange].drop 1) ↔
      IndexedReadExact [sampleRecord, sampleRecord] 1000 1 :=
  readChangesSince_iff sampleBincode sampleBincode_lawful _ _ _ encodes_sampleChange_twice
    (indexedStoreOf_log _ _) 1000 (buildIndex_logBytes _ _) 1

/-- Of two records in an indexed log a read from offset 1 returns both, and a
read from offset 2 returns the last one. -/
theorem readChangesSince_repeats_record :
    buildIndex (logBytes [sampleRecord, sampleRecord]) 1000 =
        .ok (indexedStoreOf [sampleRecord, sampleRecord] 1000).index ∧
      (indexedStoreOf [sampleRecord, sampleRecord] 1000).readChangesSince sampleBincode 1 ≠
        .ok ([sampleChange, sampleChange].drop 1) ∧
      (indexedStoreOf [sampleRecord, sampleRecord] 1000).readChangesSince sampleBincode 2 ≠
        .ok ([sampleChange, sampleChange].drop 2) := by
  have hindex := buildIndex_logBytes [sampleRecord, sampleRecord] 1000
  have hread := readChangesSince_logBytes sampleBincode_lawful encodes_sampleChange_twice
    (indexedStoreOf_log _ 1000) hindex
  have hcount : indexedCount [sampleRecord, sampleRecord] = 2 := by decide
  exact ⟨hindex, by simp [hread, hcount], by simp [hread, hcount]⟩

end IrohSync
