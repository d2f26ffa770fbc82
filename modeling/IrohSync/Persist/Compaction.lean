import IrohSync.Persist.LogFormat

/-!
# Streaming compaction

The copy loop starts at byte 0 of the source and so takes the magic bytes for
the length of a first record.  A log that is shorter than this length holds no
complete record in that reading, and compaction leaves nothing but a header.

Main results:

- Theorem {lit}`FileChangeStore.compact_eq`: the result of a compaction in terms
  of the reading of the source from byte 0.
- Theorem {lit}`FileChangeStore.compactKeeps_iff`: exactly when a compaction
  leaves the records it should keep.
-/

namespace IrohSync

open FileIo Framing Loop

/-- The length that the magic bytes spell. -/
def magicLength : Nat := 0x4C434453

/-- What a finished compaction promises: the log is well formed again and holds
exactly the records from {lit}`k` on, whose number is returned and becomes the
write offset. -/
def CompactKeeps (s : FileChangeStore) (rs : List Record) (k : Nat) : Prop :=
  ∃ s' m, s.compact k = (s', .ok m) ∧ s.compactWithRecovery k = (s', .ok m) ∧
    s'.log = some (logBytes (rs.drop k)) ∧ m = rs.length - min k rs.length ∧
    s'.tailOffset = m

/-! ## The reading from byte 0 -/

theorem take_four_logBytes (rs : List Record) : (logBytes rs).take 4 = logMagic :=
  rfl

theorem read_take_four_logBytes (rs : List Record) :
    le.read ((logBytes rs).take 4) = magicLength := by
  rw [take_four_logBytes]
  rfl

/-- A short log holds no record when it is read from byte 0. -/
theorem unframes_logBytes_of_lt {rs : List Record}
    (hshort : (logBytes rs).length < 4 + magicLength) :
    Unframes le (logBytes rs) [] (logBytes rs) :=
  Unframes.of_length_lt le (Or.inr (by rwa [read_take_four_logBytes]))

/-- Frames that begin with the magic bytes begin with a record of their length. -/
theorem magicLength_le_of_take_four {bodies : List Bytes} {left : Bytes}
    (hlt : ∀ body ∈ bodies, body.length < 2 ^ 32) (hne : bodies ≠ [])
    (hmagic : (frames le bodies ++ left).take 4 = logMagic) :
    4 + magicLength ≤ (frames le bodies).length := by
  cases bodies with
  | nil => exact absurd rfl hne
  | cons body bodies =>
      have hlength : (frames le (body :: bodies) ++ left).take 4 = le.write body.length := by
        rw [frames_cons, frame, List.append_assoc, List.append_assoc,
          List.take_left' (le.length_write _)]
      have hread : body.length = magicLength := by
        rw [← read_write_of_lt (p := le) (hlt body List.mem_cons_self), ← hlength, hmagic]
        rfl
      simp only [frames_cons, List.length_append, frame_length]
      omega

/-! ## The result of a compaction -/

/-- A header written to an emptied file is all that the file holds. -/
theorem writeHeader_truncated (d : Disk) (ino : Nat) :
    (writeHeader (d.setContent ino []) ⟨ino, 0, false⟩).1.content ino = header ∧
      (writeHeader (d.setContent ino []) ⟨ino, 0, false⟩).1.entries = d.entries := by
  have hne : header ≠ [] := by simp [header, logMagic]
  have hwrite := Disk.content_write_overwrite (d := d.setContent ino [])
    (h := ⟨ino, 0, false⟩) rfl hne
  have hover : overwrite [] 0 header = header :=
    overwrite_of_length_le (by simp only [List.length_nil]; omega)
  constructor
  · simpa [writeHeader, Disk.setContent, hover] using hwrite
  · simp [writeHeader, Disk.setContent]

/-- The copy loop takes the source for the frames that begin at its byte 0. -/
theorem compactLoop_unframes {source : Bytes} {bodies : List Bytes} {left : Bytes}
    (hun : Unframes le source bodies left) (k : Nat) (d : Disk) (writer : FileHandle) :
    (compactLoop k).run ⟨⟨source, 0⟩, d, writer, 0, 0⟩ =
      ({ reader := ⟨source, (frames le bodies).length⟩
         disk := (d.write writer (frames le (bodies.drop k))).1
         writer := (d.write writer (frames le (bodies.drop k))).2
         newOffset := (bodies.drop k).length
         recordNumber := bodies.length }, .ok ()) := by
  have hrest : Reader.rest ⟨source, 0⟩ = frames le bodies ++ left := by
    simpa [Reader.rest] using hun.eq
  rw [compactLoop_frames hun.length_lt hrest, compactLoop_incomplete]
  · simp
  · rw [Reader.rest_advance_append hrest]
    exact hun.incomplete

/-- A compaction writes the frames that it finds from byte 0 on, and from the
requested number on, over a header. -/
theorem FileChangeStore.compact_eq {s : FileChangeStore} {source : Bytes}
    (hlog : s.log = some source) {bodies : List Bytes} {left : Bytes}
    (hun : Unframes le source bodies left) (k : Nat) :
    ∃ s', s.compact k = (s', .ok (bodies.drop k).length) ∧
      s'.tailOffset = (bodies.drop k).length ∧
      s'.log = some (if bodies.drop k = [] then header
        else overwrite header 0 (frames le (bodies.drop k))) := by
  rcases s.disk.create_handle compactingName with ⟨hentry, hempty, hpos, happend⟩
  generalize htemp : s.disk.create compactingName = temp at *
  rcases temp with ⟨d, writer⟩
  simp only at hentry hempty hpos happend
  -- both handles write to the inode of the temporary file
  have hsecond := Disk.create_of_entry hentry
  rcases writeHeader_truncated d writer.ino with ⟨hheaded, hentries⟩
  generalize hwritten :
    writeHeader (d.setContent writer.ino []) ⟨writer.ino, 0, false⟩ = headed at *
  have hheadedEntry : headed.1.entries compactingName = some writer.ino := by
    rw [hentries, hentry]
  have hcopied := compactLoop_unframes hun k headed.1 writer
  have hentry' : (headed.1.write writer (frames le (bodies.drop k))).1.entries compactingName =
      some writer.ino := by
    simpa using hheadedEntry
  rcases Disk.rename_of_entry compactedName hentry' with
    ⟨renamed, hrename, hrenamedEntry, hrenamedContent⟩
  rcases Disk.rename_of_entry logName hrenamedEntry with
    ⟨replaced, hreplace, hreplacedEntry, hreplacedContent⟩
  refine ⟨{ s with disk := replaced, index := [], tailOffset := (bodies.drop k).length },
    ?_, rfl, ?_⟩
  · simp only [compact, hlog, htemp, hsecond, hwritten, hcopied, hrename, hreplace]
  · have hread := Disk.readFile_of_entry hreplacedEntry
    rw [hreplacedContent, hrenamedContent] at hread
    simp only [log, hread, Option.some.injEq]
    by_cases hkept : bodies.drop k = []
    · simp [hkept, hheaded]
    · have hbytes : frames le (bodies.drop k) ≠ [] := by
        cases hdrop : bodies.drop k with
        | nil => exact absurd hdrop hkept
        | cons body rest => simp [frame, LengthPrefix.little, leBytes]
      rw [if_neg hkept, Disk.content_write_overwrite happend hbytes, hheaded, hpos]

/-- Compacting a log that is shorter than the magic length leaves a bare header. -/
theorem FileChangeStore.compact_of_lt {s : FileChangeStore} {rs : List Record}
    (hlog : s.log = some (logBytes rs)) (hshort : (logBytes rs).length < 4 + magicLength)
    (k : Nat) :
    ∃ s', s.compact k = (s', .ok 0) ∧ s'.tailOffset = 0 ∧ s'.log = some header := by
  simpa using FileChangeStore.compact_eq hlog (unframes_logBytes_of_lt hshort) k

/-! ## When the kept records survive -/

/-- Bytes written over a header make a log only if they are that log. -/
theorem overwrite_header_eq_logBytes_iff {bodies : List Bytes} {rs : List Record}
    (hlt : ∀ body ∈ bodies, body.length < 2 ^ 32) (hne : bodies ≠ []) :
    overwrite header 0 (frames le bodies) = logBytes rs ↔ frames le bodies = logBytes rs := by
  constructor
  · intro heq
    have hmagic : (frames le bodies ++ header.drop (frames le bodies).length).take 4 =
        logMagic := by
      rw [← take_four_logBytes rs, ← heq]
      simp [overwrite]
    have hlen := magicLength_le_of_take_four hlt hne hmagic
    have hheader : header.length ≤ (frames le bodies).length := by
      simp only [header_length, headerSize, magicLength] at *
      omega
    rwa [overwrite_of_length_le hheader] at heq
  · intro heq
    rw [heq]
    apply overwrite_of_length_le
    simp [logBytes]

/-- The condition under which compaction keeps its promise.  Short logs lose
every record.  A log of at least {lit}`4 + magicLength` bytes is read from byte
0 as some other list of frames; these must be as many from {lit}`k` on as there
are records to keep, and where there are any they must spell out the new log. -/
def CompactionIsHarmless (rs : List Record) (k : Nat) : Prop :=
  if (logBytes rs).length < 4 + magicLength then rs.length ≤ k
  else ∃ bodies left, Unframes le (logBytes rs) bodies left ∧
    bodies.length - k = rs.length - k ∧
    (rs.length ≤ k ∨ frames le (bodies.drop k) = logBytes (rs.drop k))

private theorem compactKeeps_iff_unframes {s : FileChangeStore} {rs : List Record}
    (hlog : s.log = some (logBytes rs)) {bodies : List Bytes} {left : Bytes}
    (hun : Unframes le (logBytes rs) bodies left) (k : Nat) :
    CompactKeeps s rs k ↔ bodies.length - k = rs.length - k ∧
      (rs.length ≤ k ∨ frames le (bodies.drop k) = logBytes (rs.drop k)) := by
  rcases FileChangeStore.compact_eq hlog hun k with ⟨s', hcompact, htail, hlog'⟩
  have hltKept : ∀ body ∈ bodies.drop k, body.length < 2 ^ 32 := fun body hbody =>
    hun.length_lt body (List.mem_of_mem_drop hbody)
  have hcount : rs.length - min k rs.length = rs.length - k := by omega
  constructor
  · rintro ⟨s'', m, hcompact', _, hkept, hm, _⟩
    rw [hcompact] at hcompact'
    simp only [Prod.mk.injEq, Except.ok.injEq] at hcompact'
    rcases hcompact' with ⟨rfl, rfl⟩
    rw [List.length_drop, hcount] at hm
    refine ⟨hm, ?_⟩
    by_cases hle : rs.length ≤ k
    · exact Or.inl hle
    · right
      have hne : bodies.drop k ≠ [] := by
        intro hnil
        have := congrArg List.length hnil
        simp at this
        omega
      rw [hlog', if_neg hne, Option.some.injEq,
        overwrite_header_eq_logBytes_iff hltKept hne] at hkept
      exact hkept
  · rintro ⟨hm, hkept⟩
    have hm' : (bodies.drop k).length = rs.length - min k rs.length := by
      rw [List.length_drop, hm, hcount]
    refine ⟨s', _, hcompact, hcompact, ?_, hm', htail⟩
    rw [hlog', Option.some.injEq]
    by_cases hle : rs.length ≤ k
    · have hnil : bodies.drop k = [] := List.eq_nil_of_length_eq_zero (by omega)
      rw [if_pos hnil, List.drop_eq_nil_of_le hle]
      simp [logBytes]
    · have hne : bodies.drop k ≠ [] := by
        intro hnil
        simp [hnil] at hm'
        omega
      rw [if_neg hne, overwrite_header_eq_logBytes_iff hltKept hne]
      exact hkept.resolve_left hle

/-- A compaction keeps exactly the records it should if and only if it is one
of the harmless ones. -/
theorem FileChangeStore.compactKeeps_iff (s : FileChangeStore) (rs : List Record) (k : Nat)
    (hlog : s.log = some (logBytes rs)) :
    CompactKeeps s rs k ↔ CompactionIsHarmless rs k := by
  unfold CompactionIsHarmless
  split_ifs with hshort
  · rw [compactKeeps_iff_unframes hlog (unframes_logBytes_of_lt hshort) k]
    simp only [List.length_nil, Nat.zero_sub, List.drop_nil, frames_nil]
    constructor
    · rintro ⟨hcount, _⟩
      omega
    · intro hle
      exact ⟨by omega, Or.inl hle⟩
  · constructor
    · intro hkeeps
      rcases exists_unframes le (logBytes rs) with ⟨bodies, left, hun⟩
      exact ⟨bodies, left, hun, (compactKeeps_iff_unframes hlog hun k).mp hkeeps⟩
    · rintro ⟨bodies, left, hun, hcond⟩
      exact (compactKeeps_iff_unframes hlog hun k).mpr hcond

/-- One record of one byte. -/
def tinyRecord : Record where
  bytes := [7]
  length_pos := by decide
  length_lt := by decide

/-- The criterion at a log of one record that is compacted at its end. -/
theorem compactKeeps_iff_storeOf :
    CompactKeeps (storeOf [tinyRecord]) [tinyRecord] 1 ↔ CompactionIsHarmless [tinyRecord] 1 :=
  FileChangeStore.compactKeeps_iff _ _ _ (storeOf_log _)

/-- Compacting a log of one record from offset 0 destroys the record. -/
theorem not_compactKeeps_tinyRecord : ¬ CompactKeeps (storeOf [tinyRecord]) [tinyRecord] 0 := by
  rintro ⟨s', m, hcompact, _, _, hm, _⟩
  rcases FileChangeStore.compact_of_lt (storeOf_log [tinyRecord]) (by decide) 0 with
    ⟨s'', hcompact', _, _⟩
  rw [hcompact] at hcompact'
  simp only [Prod.mk.injEq, Except.ok.injEq] at hcompact'
  simp [hcompact'.2] at hm

end IrohSync
