import IrohSync.Persist.AppendHandle
import IrohSync.Persist.CompactSteps

/-!
# Compaction of a store in use

Critical sections of appends and flushes between the steps of a compaction.  The
last rename of a compaction puts a new file under the name of the main log, while
the append handle of the store stays on the file that it replaces.  From then on
every flush writes to a file that no name stands for.

Main results:

- Theorem {lit}`run_compact`: without other threads the steps of a compaction are
  that compaction.
- Theorem {lit}`HandleOn.proceed`: what one step of a compaction does to a store in
  use.
- Theorem {lit}`Live.next`: the invariant of all interleavings.
- Theorem {lit}`compaction_keeps_changes`: which changes survive a compaction.
-/

namespace IrohSync

open FileIo Framing Loop Machine

/-! ## Interleavings -/

/-- The changes of a store that are not in its log yet: those of appends in
progress, those that flushes have taken, and those that are buffered. -/
def ConcurrentStore.unwritten (st : ConcurrentStore) : List Change :=
  st.begun.map Prod.snd ++ (st.taken.flatten ++ st.store.buffer)

/-- A store in use, the compaction of it that runs, the changes that were not in
the log when that compaction began or that were appended since, and the same
changes for the last compaction that returned success. -/
structure CompactingStore where
  calls : ConcurrentStore
  running : Option (Nat × CompactPoint)
  pending : List Change
  atRisk : Option (List Change)

/-- A step of a store in use. -/
inductive CompactingStep where
  | call (e : CriticalSection)
  | compact (keepFromOffset : Nat)
  | compactStep (outcome : Outcome)

/-- The effect of a step.  One compaction runs at a time. -/
def CompactingStore.next (bc : Bincode) (st : CompactingStore) :
    CompactingStep → CompactingStore
  | .call e =>
      { st with
        calls := st.calls.next bc e
        pending := st.pending ++ e.appends
        atRisk := st.atRisk.map fun risk => risk ++ e.appends }
  | .compact keepFromOffset =>
      match st.running with
      | some _ => st
      | none =>
          { st with
            running := some (keepFromOffset, .openSource)
            pending := st.calls.unwritten }
  | .compactStep outcome =>
      match st.running with
      | none => st
      | some (keepFromOffset, point) =>
          let r := CompactRun.next keepFromOffset ⟨st.calls.store, point⟩ outcome
          let calls := { st.calls with store := r.store }
          match r.point with
          | .returned (.ok _) =>
              { st with calls := calls, running := none, atRisk := some st.pending }
          | .returned (.error _) => { st with calls := calls, running := none }
          | point' => { st with calls := calls, running := some (keepFromOffset, point') }

/-- Appends, flushes and compactions of a store, in any interleaving. -/
def compactingStore (bc : Bincode) : Machine CompactingStore CompactingStep Unit where
  next := CompactingStore.next bc
  answer _ _ := ()

/-- A store that is not used yet. -/
def CompactingStore.idle (s : FileChangeStore) : CompactingStore where
  calls := .idle s
  running := none
  pending := []
  atRisk := none

/-- A read from offset 0 returns all of some changes, on a store and on any store
that is opened on its directory. -/
def Returns (bc : Bincode) (s : FileChangeStore) (cs : List Change) : Prop :=
  (∃ found, s.getSince bc 0 = .ok found ∧ cs ⊆ found) ∧
    ∀ t, ∃ s' found, FileChangeStore.new s.disk t = .ok s' ∧
      s'.getSince bc 0 = .ok found ∧ cs ⊆ found

/-- The write offset is the number of records in the log and of buffered changes. -/
def TailCounts (s : FileChangeStore) : Prop :=
  ∃ rs, s.log = some (logBytes rs) ∧ s.tailOffset = rs.length + s.buffer.length

/-- The last compaction that returned success lost no change: when no call is in
progress, a flush that succeeds makes all changes that were at risk readable, and
the write offset counts the records and the buffered changes. -/
def KeepsChanges (bc : Bincode) (st : CompactingStore) : Prop :=
  ∀ risk, st.atRisk = some risk → st.calls.begun = [] → st.calls.taken = [] →
    (∀ s', st.calls.store.flush bc = (s', .ok ()) → Returns bc s' risk) ∧
      TailCounts st.calls.store

/-- While a compaction runs the log is too short to hold the record that its
header spells when it is read as one. -/
def ShortLog (st : CompactingStore) : CompactingStep → Prop
  | .compactStep _ => ∀ data, st.calls.store.log = some data → data.length < 4 + magicLength
  | _ => True

/-- A compaction that gets to its end began when everything was in the log, nothing
was appended while it ran, and nothing is appended from then on. -/
def Quiet (st : CompactingStore) : CompactingStep → Prop
  | .call e => e.appends = [] ∨ st.atRisk = none
  | .compact _ => True
  | .compactStep _ => ∀ k n, st.running = some (k, .setTail n) → st.pending = []

/-! ## A compaction without other threads -/

/-- Where no compaction runs its steps do nothing. -/
theorem run_compactSteps_idle (bc : Bincode) {st : CompactingStore} (hidle : st.running = none)
    (n : Nat) : (compactingStore bc).run st (List.replicate n (.compactStep .ok)) = st := by
  have hnext : (compactingStore bc).next st (.compactStep .ok) = st := by
    simp only [compactingStore, CompactingStore.next, hidle]
  induction n with
  | zero => rfl
  | succ n ih => rw [List.replicate_succ, run_cons, hnext, ih]

theorem run_compactSteps (bc : Bincode) {st : CompactingStore} {k : Nat} {point : CompactPoint}
    (hrunning : st.running = some (k, point)) (n : Nat) :
    ((compactingStore bc).run st (List.replicate n (.compactStep .ok))).calls.store =
      (CompactRun.proceedFor k ⟨st.calls.store, point⟩ n).store := by
  induction n generalizing st point with
  | zero => rfl
  | succ n ih =>
      have hfirst : CompactRun.proceedFor k ⟨st.calls.store, point⟩ (n + 1) =
          (CompactRun.proceed k ⟨st.calls.store, point⟩).proceedFor k n :=
        rfl
      rw [hfirst, List.replicate_succ, run_cons]
      simp only [compactingStore, CompactingStore.next, hrunning, CompactRun.next]
      split
      · rename_i hreturned
        rw [proceedFor_returned k hreturned]
        refine congrArg (fun st => st.calls.store) (run_compactSteps_idle bc ?_ n)
        rfl
      · rename_i hreturned
        rw [proceedFor_returned k hreturned]
        refine congrArg (fun st => st.calls.store) (run_compactSteps_idle bc ?_ n)
        rfl
      · exact ih rfl

/-- Without other threads the steps of a compaction are that compaction. -/
theorem run_compact (bc : Bincode) {st : CompactingStore} (hidle : st.running = none) (k : Nat) :
    ∃ n, ((compactingStore bc).run st
        (.compact k :: List.replicate n (.compactStep .ok))).calls.store =
      (st.calls.store.compact k).1 := by
  rcases run_ok_eq_compact k st.calls.store with ⟨n, hn⟩
  refine ⟨n, ?_⟩
  have hbegun : ((compactingStore bc).next st (.compact k)).running =
      some (k, .openSource) := by
    simp only [compactingStore, CompactingStore.next, hidle]
  have hstore : ((compactingStore bc).next st (.compact k)).calls.store = st.calls.store := by
    simp only [compactingStore, CompactingStore.next, hidle]
  rw [run_cons, run_compactSteps bc hbegun, hstore, hn]

/-! ## Reads of a replaced log -/

theorem getSince_header (bc : Bincode) {s : FileChangeStore} (hlog : s.log = some header) :
    s.getSince bc 0 = .ok [] := by
  rcases getSince_zero bc hlog with ⟨scan, hrest, hchanges, hread⟩
  rw [hread, readChangesLoop_eof, hchanges]
  rw [hrest]
  decide

/-- A log that was replaced returns nothing. -/
theorem returns_header_iff (bc : Bincode) {s : FileChangeStore} (hlog : s.log = some header)
    (cs : List Change) : Returns bc s cs ↔ cs = [] := by
  constructor
  · rintro ⟨⟨found, hread, hsub⟩, _⟩
    rw [getSince_header bc hlog, Except.ok.injEq] at hread
    exact List.subset_nil.mp (hread ▸ hsub)
  · rintro rfl
    refine ⟨⟨[], getSince_header bc hlog, List.Subset.refl _⟩, fun t => ?_⟩
    have hfound : foundLog s.disk = logBytes [] := by
      rw [FileChangeStore.log] at hlog
      simp [foundLog, hlog, logBytes]
    rcases new_logBytes (Or.inl hfound) t with ⟨s', hnew, hs'⟩
    have hlog' : s'.log = some header := by
      rw [hs'.openOn.log]
      simp [logBytes]
    exact ⟨s', [], hnew, getSince_header bc hlog', List.Subset.refl _⟩

/-! ## Points of a compaction of a store in use -/

/-- A handle is on the temporary file, which holds a header and nothing else. -/
structure OnHeader (s : FileChangeStore) (writer : FileHandle) : Prop where
  entry : s.disk.entries compactingName = some writer.ino
  content : s.disk.content writer.ino = header

/-- What holds at the points of a compaction that has not returned: its source is
the main log, it has found no record there, and behind the write of the header
this is all that the new file holds. -/
def Ready (s : FileChangeStore) (ino : Nat) : CompactPoint → Prop
  | .openSource => True
  | .createTemp source => s.disk.entries logName = some source
  | .createHeader source writer =>
      s.disk.entries logName = some source ∧ s.disk.entries compactingName = some writer.ino
  | .writeHeader source writer headerFile =>
      s.disk.entries logName = some source ∧ s.disk.entries compactingName = some writer.ino ∧
        headerFile = ⟨writer.ino, 0, false⟩ ∧ s.disk.content writer.ino = []
  | .copy c =>
      s.disk.entries logName = some c.source ∧ c.pos = 0 ∧ c.newOffset = 0 ∧
        OnHeader s c.writer
  | .copyFlush _ => False
  | .flush writer newOffset => newOffset = 0 ∧ OnHeader s writer
  | .finalize writer newOffset => newOffset = 0 ∧ OnHeader s writer
  | .sync writer newOffset => newOffset = 0 ∧ OnHeader s writer
  | .renameTemp newOffset => newOffset = 0 ∧ s.disk.readFile compactingName = some header
  | .renameCompacted newOffset => newOffset = 0 ∧ s.disk.readFile compactedName = some header
  | .clearIndex newOffset => newOffset = 0 ∧ Detached s ino
  | .setTail newOffset => newOffset = 0 ∧ Detached s ino
  | .returned _ => False

/-- What holds at the point that a step leads to. -/
def Arrived (s : FileChangeStore) (ino : Nat) : CompactPoint → Prop
  | .returned (.ok _) => Detached s ino ∧ s.tailOffset = 0
  | .returned (.error _) => True
  | point => Ready s ino point

theorem Arrived.ready {s : FileChangeStore} {ino : Nat} {point : CompactPoint}
    (h : Arrived s ino point) (hrunning : ∀ result, point ≠ .returned result) :
    Ready s ino point := by
  cases point with
  | returned result => exact absurd rfl (hrunning result)
  | _ => exact h

theorem Ready.arrived {s : FileChangeStore} {ino : Nat} {point : CompactPoint}
    (h : Ready s ino point) : Arrived s ino point := by
  cases point with
  | returned result => exact h.elim
  | _ => exact h

/-- The handles of a compaction are on the temporary file. -/
theorem Ready.temp {s : FileChangeStore} {ino : Nat} {point : CompactPoint}
    (h : Ready s ino point) {f : FileHandle} (hf : f ∈ point.handles) :
    s.disk.entries compactingName = some f.ino := by
  cases point with
  | createHeader source writer =>
      rw [List.mem_singleton.mp hf]
      exact h.2
  | writeHeader source writer headerFile =>
      rcases h with ⟨_, htemp, rfl, _⟩
      rcases List.mem_cons.mp hf with rfl | hf
      · exact htemp
      · rw [List.mem_singleton.mp hf]
        exact htemp
  | copy c =>
      rw [List.mem_singleton.mp hf]
      exact h.2.2.2.entry
  | copyFlush c => exact h.elim
  | flush writer newOffset =>
      rw [List.mem_singleton.mp hf]
      exact h.2.entry
  | finalize writer newOffset =>
      rw [List.mem_singleton.mp hf]
      exact h.2.entry
  | sync writer newOffset =>
      rw [List.mem_singleton.mp hf]
      exact h.2.entry
  | _ => contradiction

theorem OnHeader.written {s s' : FileChangeStore} {ino : Nat} {writer : FileHandle}
    (h : OnHeader s writer) (hon : HandleOn s ino) (hwritten : Written s s') :
    OnHeader s' writer := by
  have hkeeps := hwritten.keeps hon (hon.reserved.names _ logName_ne_compactingName.symm)
  exact ⟨hkeeps.entries.trans h.entry, (hkeeps.content _ h.entry).trans h.content⟩

/-- Appends and flushes do not disturb a compaction. -/
theorem Ready.written {s s' : FileChangeStore} {ino : Nat} {point : CompactPoint}
    (h : Ready s ino point) (hon : HandleOn s ino) (hwritten : Written s s') :
    Ready s' ino point := by
  have hentries := hwritten.entries hon
  have htemp := hwritten.keeps hon (hon.reserved.names _ logName_ne_compactingName.symm)
  have hcompacted := hwritten.keeps hon (hon.reserved.names _ logName_ne_compactedName.symm)
  cases point with
  | openSource => trivial
  | createTemp source => exact (congrFun hentries logName).trans h
  | createHeader source writer =>
      exact ⟨(congrFun hentries logName).trans h.1, htemp.entries.trans h.2⟩
  | writeHeader source writer headerFile =>
      rcases h with ⟨hsource, hwriter, hheader, hempty⟩
      exact ⟨(congrFun hentries logName).trans hsource, htemp.entries.trans hwriter, hheader,
        (htemp.content _ hwriter).trans hempty⟩
  | copy c =>
      rcases h with ⟨hsource, hpos, hoffset, hheader⟩
      exact ⟨(congrFun hentries logName).trans hsource, hpos, hoffset, hheader.written hon hwritten⟩
  | copyFlush c => exact h
  | flush writer newOffset => exact ⟨h.1, h.2.written hon hwritten⟩
  | finalize writer newOffset => exact ⟨h.1, h.2.written hon hwritten⟩
  | sync writer newOffset => exact ⟨h.1, h.2.written hon hwritten⟩
  | renameTemp newOffset => exact ⟨h.1, htemp.readFile.trans h.2⟩
  | renameCompacted newOffset => exact ⟨h.1, hcompacted.readFile.trans h.2⟩
  | clearIndex newOffset => exact ⟨h.1, hwritten.detached hon h.2⟩
  | setTail newOffset => exact ⟨h.1, hwritten.detached hon h.2⟩
  | returned result => exact h

/-! ## One step of a compaction -/

/-- What a step of a compaction does to a store in use. -/
structure Advanced (s : FileChangeStore) (ino : Nat) (r : CompactRun) : Prop where
  handleOn : HandleOn r.store ino
  buffer : r.store.buffer = s.buffer
  log : s.disk.Keeps r.store.disk logName ∨ Detached r.store ino
  tailOffset : s.tailOffset = 0 → r.store.tailOffset = 0
  arrived : Arrived r.store ino r.point

/-- A step that leaves the main log alone. -/
theorem HandleOn.advanced {s : FileChangeStore} {ino : Nat} (hon : HandleOn s ino) {d : Disk}
    {point : CompactPoint} (hreserved : d.Reserves ino logName)
    (hkeeps : s.disk.Keeps d logName) (harrived : Arrived (s.withDisk d) ino point) :
    Advanced s ino ⟨s.withDisk d, point⟩ where
  handleOn := ⟨hon.handle, hreserved⟩
  buffer := rfl
  log := Or.inl hkeeps
  tailOffset := id
  arrived := harrived

/-- A step that only moves on. -/
theorem HandleOn.moveOn {s : FileChangeStore} {ino : Nat} (hon : HandleOn s ino)
    {point : CompactPoint} (harrived : Arrived s ino point) : Advanced s ino ⟨s, point⟩ :=
  hon.advanced hon.reserved (Disk.Keeps.refl _ _) harrived

/-- The log begins with the magic bytes and is too short for the record that they
spell. -/
structure Spells (s : FileChangeStore) : Prop where
  log : ∃ data, s.log = some data ∧ logMagic <+: data ∧ data.length < 4 + magicLength

/-- The copy loop finds no record in the source. -/
theorem Spells.pass {s : FileChangeStore} (h : Spells s) {c : CopyState}
    (hsource : s.disk.entries logName = some c.source) (hpos : c.pos = 0) (k : Nat) :
    (compactLoop k).pass
        ⟨⟨s.disk.content c.source, c.pos⟩, s.disk, c.writer, c.newOffset, c.recordNumber⟩ =
      .done (⟨⟨s.disk.content c.source, c.pos⟩, s.disk, c.writer, c.newOffset,
        c.recordNumber⟩, .ok ()) := by
  rcases h.log with ⟨data, hlog, hmagic, hshort⟩
  rw [FileChangeStore.log, Disk.readFile_of_entry hsource, Option.some.injEq] at hlog
  apply compactLoop_pass_incomplete
  right
  have hrest : Reader.rest ⟨s.disk.content c.source, c.pos⟩ = data := by
    rw [Reader.rest, hpos, List.drop_zero, hlog]
  have htake : data.take 4 = logMagic := (List.prefix_iff_eq_take.mp hmagic).symm
  rw [hrest, htake]
  exact hshort

/-- The last rename puts another file under the name of the log. -/
theorem HandleOn.replace {s : FileChangeStore} {ino : Nat} (hon : HandleOn s ino) {d : Disk}
    (hheader : s.disk.readFile compactedName = some header)
    (hrename : s.disk.rename compactedName logName = .ok d) :
    HandleOn (s.withDisk d) ino ∧ Detached (s.withDisk d) ino := by
  rcases hon.reserved.rename logName_ne_compactedName.symm hrename with ⟨hreserved, hne⟩
  refine ⟨⟨hon.handle, hreserved⟩, hne, ?_⟩
  rcases Disk.rename_entries hrename with ⟨_, hcontent, hnew, _⟩
  rw [← hheader, FileChangeStore.log, Disk.readFile, Disk.readFile, withDisk_disk, hnew, hcontent]

/-- A step whose operation succeeds. -/
theorem HandleOn.proceed {ino : Nat} (k : Nat) {r : CompactRun} (hon : HandleOn r.store ino)
    (hspells : Spells r.store) (hready : Ready r.store ino r.point) :
    Advanced r.store ino (r.proceed k) := by
  rcases r with ⟨s, point⟩
  cases point with
  | openSource =>
      simp only [CompactRun.proceed]
      cases hentry : s.disk.entries logName with
      | none => exact hon.moveOn trivial
      | some source => exact hon.moveOn hentry
  | createTemp source =>
      have hne := logName_ne_compactingName
      have hkeeps := Disk.keeps_create (d := s.disk) hne
      refine hon.advanced (hon.reserved.create hne.symm) hkeeps ?_
      exact ⟨hkeeps.entries.trans hready, (s.disk.create_handle compactingName).1⟩
  | createHeader source writer =>
      rcases hready with ⟨hsource, htemp⟩
      simp only [CompactRun.proceed, Disk.create_of_entry htemp]
      have hne := Disk.entries_ne logName_ne_compactingName htemp
      refine hon.advanced (hon.reserved.setContent _ _) (Disk.keeps_setContent hne) ?_
      exact ⟨hsource, htemp, rfl, Function.update_self _ _ _⟩
  | writeHeader source writer headerFile =>
      rcases hready with ⟨hsource, htemp, rfl, hempty⟩
      have hne := Disk.entries_ne logName_ne_compactingName htemp
      refine hon.advanced (hon.reserved.write _ _) (Disk.keeps_write hne) ?_
      have hentries := Disk.write_entries s.disk ⟨writer.ino, 0, false⟩ header
      refine ⟨(congrFun hentries logName).trans hsource, rfl, rfl,
        (congrFun hentries compactingName).trans htemp, ?_⟩
      have hover : overwrite [] 0 header = header :=
        overwrite_of_length_le (Nat.zero_le _)
      have hnonempty : header ≠ [] := List.cons_ne_nil _ _
      have hwrite := Disk.content_write_overwrite (d := s.disk) (h := ⟨writer.ino, 0, false⟩) rfl
        hnonempty
      rw [hempty, hover] at hwrite
      exact hwrite
  | copy c =>
      rcases hready with ⟨hsource, hpos, hoffset, hheader⟩
      simp only [CompactRun.proceed, hspells.pass hsource hpos k]
      exact hon.advanced hon.reserved (Disk.Keeps.refl _ _) ⟨hoffset, hheader⟩
  | copyFlush c => exact hready.elim
  | flush writer newOffset => exact hon.moveOn hready
  | finalize writer newOffset => exact hon.moveOn hready
  | sync writer newOffset =>
      refine hon.moveOn ⟨hready.1, ?_⟩
      rw [Disk.readFile_of_entry hready.2.entry, hready.2.content]
  | renameTemp newOffset =>
      simp only [CompactRun.proceed]
      cases hrename : s.disk.rename compactingName compactedName with
      | error e => exact hon.moveOn trivial
      | ok d =>
          have hreserved := (hon.reserved.rename logName_ne_compactingName.symm hrename).1
          have hkeeps := Disk.keeps_rename logName_ne_compactingName logName_ne_compactedName
            hrename
          refine hon.advanced hreserved hkeeps ⟨hready.1, ?_⟩
          rcases Disk.rename_entries hrename with ⟨_, hcontent, hnew, _⟩
          rw [← hready.2, Disk.readFile, Disk.readFile, withDisk_disk, hnew, hcontent]
  | renameCompacted newOffset =>
      simp only [CompactRun.proceed]
      cases hrename : s.disk.rename compactedName logName with
      | error e => exact hon.moveOn trivial
      | ok d =>
          rcases hon.replace hready.2 hrename with ⟨hon', hdetached⟩
          exact ⟨hon', rfl, Or.inr hdetached, id, hready.1, hdetached⟩
  | clearIndex newOffset =>
      exact ⟨⟨hon.handle, hon.reserved⟩, rfl, Or.inl (Disk.Keeps.refl _ _), id, hready.1,
        ⟨hready.2.entry, hready.2.log⟩⟩
  | setTail newOffset =>
      exact ⟨⟨hon.handle, hon.reserved⟩, rfl, Or.inl (Disk.Keeps.refl _ _), fun _ => hready.1,
        ⟨hready.2.entry, hready.2.log⟩, hready.1⟩
  | returned result => exact hready.elim

/-- A step whatever becomes of its operation. -/
theorem HandleOn.next {ino : Nat} (k : Nat) {r : CompactRun} (hon : HandleOn r.store ino)
    (hspells : Spells r.store) (hready : Ready r.store ino r.point) (outcome : Outcome) :
    Advanced r.store ino (r.next k outcome) := by
  have hproceed := hon.proceed k hspells hready
  cases outcome with
  | ok => exact hproceed
  | fail e left =>
      simp only [CompactRun.next]
      cases r.point.failure e with
      | none => exact hproceed
      | some err =>
          refine hon.advanced ?_ ?_ trivial
          · unfold CompactRun.leaving
            split
            · exact hon.reserved.setContent _ _
            · exact hon.reserved
          · unfold CompactRun.leaving
            split
            · rename_i writer rest hhandles
              have htemp := hready.temp (hhandles ▸ List.mem_cons_self)
              exact Disk.keeps_setContent (Disk.entries_ne logName_ne_compactingName htemp)
            · exact Disk.Keeps.refl _ _
  | readFails e =>
      simp only [CompactRun.next]
      split
      · exact hon.advanced (hon.reserved.remove _) (Disk.keeps_remove logName_ne_compactingName)
          trivial
      · exact hproceed

/-! ## The invariant -/

/-- A store in use whose append handle is on an inode: the log begins with the
magic bytes, the compaction that runs is at a point where it has found no record,
and once a compaction has returned success the log is a header behind another
inode. -/
structure Live (st : CompactingStore) (ino : Nat) : Prop where
  handleOn : HandleOn st.calls.store ino
  log : ∃ data, st.calls.store.log = some data ∧ logMagic <+: data
  running : ∀ k point, st.running = some (k, point) → Ready st.calls.store ino point ∧
    (st.pending = [] → st.calls.unwritten = [])
  atRisk : ∀ risk, st.atRisk = some risk → Detached st.calls.store ino ∧
    (risk = [] → st.calls.unwritten = [] ∧ st.calls.store.tailOffset = 0)

/-- What a critical section leaves unwritten was unwritten or is appended now. -/
theorem unwritten_next (bc : Bincode) (st : ConcurrentStore) (e : CriticalSection) :
    (st.next bc e).unwritten ⊆ st.unwritten ++ e.appends := by
  cases e with
  | takeOffset c =>
      intro c' hc'
      simp only [ConcurrentStore.unwritten, ConcurrentStore.next, CriticalSection.appends,
        List.map_append, List.map_cons, List.map_nil, List.mem_append] at hc' ⊢
      tauto
  | push i =>
      simp only [ConcurrentStore.next]
      split
      · exact List.subset_append_left _ _
      · rename_i call hcall
        intro c' hc'
        have hcall' := List.mem_map_of_mem (f := Prod.snd) (List.mem_of_getElem? hcall)
        have hsub : (st.begun.eraseIdx i).map Prod.snd ⊆ st.begun.map Prod.snd :=
          List.map_subset _ (List.eraseIdx_subset)
        simp only [ConcurrentStore.unwritten, List.mem_append, List.mem_singleton] at hc' ⊢
        rcases hc' with hbegun | htaken | hbuffer | rfl
        · exact Or.inl (Or.inl (hsub hbegun))
        · exact Or.inl (Or.inr (Or.inl htaken))
        · exact Or.inl (Or.inr (Or.inr hbuffer))
        · exact Or.inl (Or.inl hcall')
  | takeBuffer =>
      simp only [ConcurrentStore.next]
      split_ifs
      · exact List.subset_append_left _ _
      · intro c' hc'
        simpa [ConcurrentStore.unwritten, CriticalSection.appends] using hc'
  | write i fault =>
      simp only [ConcurrentStore.next]
      split
      · exact List.subset_append_left _ _
      · rename_i changes _
        have hbuffer := (writeTaken_frame fault bc st.store changes).1
        intro c' hc'
        simp only [ConcurrentStore.unwritten, hbuffer, List.mem_append,
          List.mem_flatten] at hc' ⊢
        rcases hc' with hbegun | ⟨batch, hbatch, hmem⟩ | hbuffered
        · exact Or.inl (Or.inl hbegun)
        · exact Or.inl (Or.inr (Or.inl ⟨batch, List.mem_of_mem_eraseIdx hbatch, hmem⟩))
        · exact Or.inl (Or.inr (Or.inr hbuffered))

theorem unwritten_next_nil (bc : Bincode) {st : ConcurrentStore} {e : CriticalSection}
    (hunwritten : st.unwritten = []) (happends : e.appends = []) :
    (st.next bc e).unwritten = [] := by
  have hsub := unwritten_next bc st e
  rw [hunwritten, happends] at hsub
  exact List.subset_nil.mp hsub

/-- Only the section that begins an append changes the write offset. -/
theorem tailOffset_next (bc : Bincode) {st : ConcurrentStore} {e : CriticalSection}
    (happends : e.appends = []) : (st.next bc e).store.tailOffset = st.store.tailOffset := by
  cases e with
  | takeOffset c => contradiction
  | push i =>
      simp only [ConcurrentStore.next]
      split
      · rfl
      · rfl
  | takeBuffer =>
      simp only [ConcurrentStore.next]
      split_ifs
      · rfl
      · rfl
  | write i fault =>
      simp only [ConcurrentStore.next]
      split
      · rfl
      · exact (writeTaken_frame fault bc st.store _).2.1

theorem Live.call {bc : Bincode} {st : CompactingStore} {ino : Nat} (h : Live st ino)
    (e : CriticalSection) : Live (st.next bc (.call e)) ino := by
  have hwritten := written_next bc st.calls e
  refine ⟨hwritten.handleOn h.handleOn, ?_, fun k point hrunning => ?_, fun risk hrisk => ?_⟩
  · rcases h.log with ⟨data, hlog, hmagic⟩
    rcases hwritten.log h.handleOn hlog with ⟨bytes, hlog'⟩
    exact ⟨data ++ bytes, hlog', hmagic.trans (List.prefix_append _ _)⟩
  · rcases h.running k point hrunning with ⟨hready, hpending⟩
    refine ⟨hready.written h.handleOn hwritten, fun hnil => ?_⟩
    rcases List.append_eq_nil_iff.mp hnil with ⟨hnone, happends⟩
    exact unwritten_next_nil bc (hpending hnone) happends
  · simp only [CompactingStore.next, Option.map_eq_some_iff] at hrisk
    rcases hrisk with ⟨risk', hrisk', rfl⟩
    rcases h.atRisk risk' hrisk' with ⟨hdetached, hempty⟩
    refine ⟨hwritten.detached h.handleOn hdetached, fun hnil => ?_⟩
    rcases List.append_eq_nil_iff.mp hnil with ⟨hnone, happends⟩
    rcases hempty hnone with ⟨hunwritten, htail⟩
    exact ⟨unwritten_next_nil bc hunwritten happends, (tailOffset_next bc happends).trans htail⟩

theorem Live.compact {bc : Bincode} {st : CompactingStore} {ino : Nat} (h : Live st ino)
    (k : Nat) : Live (st.next bc (.compact k)) ino := by
  simp only [CompactingStore.next]
  split
  · exact h
  · refine ⟨h.handleOn, h.log, fun k' point hrunning => ?_, h.atRisk⟩
    obtain ⟨rfl, rfl⟩ := Prod.mk.inj (Option.some.inj hrunning)
    exact ⟨trivial, id⟩

/-- The log after a step of a compaction. -/
theorem Advanced.exists_log {s : FileChangeStore} {ino : Nat} {r : CompactRun}
    (h : Advanced s ino r) {data : Bytes} (hlog : s.log = some data) (hmagic : logMagic <+: data) :
    ∃ data', r.store.log = some data' ∧ logMagic <+: data' := by
  rcases h.log with hkeeps | hdetached
  · exact ⟨data, hkeeps.readFile.trans hlog, hmagic⟩
  · exact ⟨header, hdetached.log, ⟨_, (List.append_assoc _ _ _).symm⟩⟩

/-- A log that was replaced may only be replaced again. -/
theorem Advanced.detached {s : FileChangeStore} {ino : Nat} {r : CompactRun}
    (h : Advanced s ino r) (hdetached : Detached s ino) : Detached r.store ino := by
  rcases h.log with hkeeps | hdetached'
  · exact ⟨hkeeps.entries ▸ hdetached.entry, hkeeps.readFile.trans hdetached.log⟩
  · exact hdetached'

theorem Live.compactStep {bc : Bincode} {st : CompactingStore} {ino : Nat} (h : Live st ino)
    {outcome : Outcome} (hshort : ShortLog st (.compactStep outcome)) :
    Live (st.next bc (.compactStep outcome)) ino := by
  rcases h.log with ⟨data, hlog, hmagic⟩
  simp only [CompactingStore.next]
  split
  · exact h
  · rename_i k point hrunning
    rcases h.running k point hrunning with ⟨hready, hpending⟩
    have hadvanced := HandleOn.next k (r := ⟨st.calls.store, point⟩) h.handleOn
      ⟨data, hlog, hmagic, hshort data hlog⟩ hready outcome
    generalize CompactRun.next k ⟨st.calls.store, point⟩ outcome = r at hadvanced ⊢
    have hlog' := hadvanced.exists_log hlog hmagic
    have harrived := hadvanced.arrived
    have hunwritten : ConcurrentStore.unwritten { st.calls with store := r.store } =
        st.calls.unwritten := by
      simp only [ConcurrentStore.unwritten, hadvanced.buffer]
    have hrisk : ∀ risk, st.atRisk = some risk → Detached r.store ino ∧
        (risk = [] → ConcurrentStore.unwritten { st.calls with store := r.store } = [] ∧
          r.store.tailOffset = 0) := by
      intro risk hrisk
      rcases h.atRisk risk hrisk with ⟨hdetached, hempty⟩
      refine ⟨hadvanced.detached hdetached, fun hnil => ?_⟩
      rw [hunwritten]
      exact ⟨(hempty hnil).1, hadvanced.tailOffset (hempty hnil).2⟩
    split
    · -- the compaction returns success, and what is pending is at risk now
      rename_i n hpoint
      rw [hpoint] at harrived
      refine ⟨hadvanced.handleOn, hlog', fun _ _ hnone => by contradiction, fun risk hsome => ?_⟩
      obtain rfl := Option.some.inj hsome
      refine ⟨harrived.1, fun hnil => ⟨?_, harrived.2⟩⟩
      rw [hunwritten]
      exact hpending hnil
    · exact ⟨hadvanced.handleOn, hlog', fun _ _ hnone => by contradiction, hrisk⟩
    · rename_i hok herror
      refine ⟨hadvanced.handleOn, hlog', fun k' point' hsome => ?_, hrisk⟩
      obtain ⟨rfl, rfl⟩ := Prod.mk.inj (Option.some.inj hsome)
      refine ⟨harrived.ready fun result hreturned => ?_, fun hnil => ?_⟩
      · cases result with
        | ok n => exact hok n hreturned
        | error e => exact herror e hreturned
      · rw [hunwritten]
        exact hpending hnil

/-- Every step keeps the invariant while logs are short. -/
theorem Live.next {bc : Bincode} {st : CompactingStore} {ino : Nat} (h : Live st ino)
    {step : CompactingStep} (hshort : ShortLog st step) : Live (st.next bc step) ino := by
  cases step with
  | call e => exact h.call e
  | compact k => exact h.compact k
  | compactStep outcome => exact h.compactStep hshort

/-! ## Runs -/

theorem Fresh.live {s : FileChangeStore} {rs : List Record} {t : Nat} {index : List IndexEntry}
    (h : Fresh s (logBytes rs) t index) : ∃ ino, Live (.idle s) ino := by
  rcases h.openOn.handle with ⟨f, hfile, happend, hentry, _⟩
  refine ⟨f.ino, ⟨⟨f, hfile, happend, rfl⟩, Disk.reserves_of_entry hentry⟩,
    ⟨logBytes rs, h.openOn.log, ?_⟩, fun _ _ hnone => ?_, fun _ hnone => ?_⟩
  · exact ⟨_, by rw [logBytes, header, List.append_assoc, List.append_assoc]⟩
  · contradiction
  · contradiction

/-- Once a compaction has returned success, the changes at risk come back exactly
if there are none. -/
theorem Live.returns_iff {bc : Bincode} {st : CompactingStore} {ino : Nat} (h : Live st ino)
    {risk : List Change} (hrisk : st.atRisk = some risk) {s' : FileChangeStore}
    (hflush : st.calls.store.flush bc = (s', .ok ())) : Returns bc s' risk ↔ risk = [] := by
  apply returns_header_iff
  have hwritten := written_flushUnder .none bc st.calls.store
  rw [FileChangeStore.flush] at hflush
  rw [hflush] at hwritten
  exact (hwritten.detached h.handleOn (h.atRisk risk hrisk).1).log

/-- With nothing at risk the write offset is right: log and buffer are empty. -/
theorem Live.tailCounts {st : CompactingStore} {ino : Nat} (h : Live st ino)
    (hrisk : st.atRisk = some []) : TailCounts st.calls.store := by
  rcases h.atRisk [] hrisk with ⟨hdetached, hempty⟩
  rcases hempty rfl with ⟨hunwritten, htail⟩
  have hbuffer : st.calls.store.buffer = [] := by
    simp only [ConcurrentStore.unwritten, List.append_eq_nil_iff] at hunwritten
    exact hunwritten.2.2
  refine ⟨[], ?_, ?_⟩
  · rw [hdetached.log, logBytes, recordBytes_nil, List.append_nil]
  · rw [htail, hbuffer]
    rfl

/-- Nothing is at risk. -/
def Safe (st : CompactingStore) : Prop :=
  ∀ risk, st.atRisk = some risk → risk = []

theorem setTail_of_proceed {k : Nat} {s : FileChangeStore} {point : CompactPoint} {n : Nat}
    (hnext : (CompactRun.proceed k ⟨s, point⟩).point = .returned (.ok n)) :
    point = .setTail n ∨ point = .returned (.ok n) := by
  cases point with
  | openSource =>
      simp only [CompactRun.proceed] at hnext
      split at hnext <;> simp at hnext
  | copy c =>
      simp only [CompactRun.proceed] at hnext
      rcases compactLoop_pass k
        ⟨⟨s.disk.content c.source, c.pos⟩, s.disk, c.writer, c.newOffset, c.recordNumber⟩ with
        ⟨c', bytes, hpass, _, _⟩ | hpass
      · simp only [hpass] at hnext
        split at hnext <;> simp at hnext
      · simp [hpass] at hnext
  | renameTemp newOffset =>
      simp only [CompactRun.proceed] at hnext
      split at hnext <;> simp at hnext
  | renameCompacted newOffset =>
      simp only [CompactRun.proceed] at hnext
      split at hnext <;> simp at hnext
  | setTail newOffset =>
      simp only [CompactRun.proceed, CompactPoint.returned.injEq, Except.ok.injEq] at hnext
      exact Or.inl (congrArg CompactPoint.setTail hnext)
  | returned result => exact Or.inr hnext
  | _ => contradiction

/-- A compaction returns success behind its last step. -/
theorem setTail_of_next {k : Nat} {s : FileChangeStore} {point : CompactPoint} {outcome : Outcome}
    {n : Nat} (hnext : (CompactRun.next k ⟨s, point⟩ outcome).point = .returned (.ok n)) :
    point = .setTail n ∨ point = .returned (.ok n) := by
  cases outcome with
  | ok => exact setTail_of_proceed hnext
  | fail e left =>
      simp only [CompactRun.next] at hnext
      split at hnext
      · simp at hnext
      · exact setTail_of_proceed hnext
  | readFails e =>
      simp only [CompactRun.next] at hnext
      split at hnext
      · simp at hnext
      · exact setTail_of_proceed hnext

/-- Quiet steps put nothing at risk. -/
theorem Safe.next {bc : Bincode} {st : CompactingStore} {ino : Nat} (h : Safe st)
    (hlive : Live st ino) {step : CompactingStep} (hquiet : Quiet st step) :
    Safe (st.next bc step) := by
  cases step with
  | call e =>
      intro risk hsome
      rcases hquiet with happends | hrisk
      · simp only [CompactingStore.next, happends, List.append_nil, Option.map_id'] at hsome
        exact h risk hsome
      · simp [CompactingStore.next, hrisk] at hsome
  | compact k =>
      simp only [CompactingStore.next]
      split
      · exact h
      · exact h
  | compactStep outcome =>
      simp only [CompactingStore.next]
      split
      · exact h
      · rename_i k point hrunning
        split
        · rename_i n hpoint
          rcases setTail_of_next hpoint with rfl | rfl
          · intro risk hrisk
            exact (Option.some.inj hrisk).symm.trans (hquiet k n hrunning)
          · exact (hlive.running k _ hrunning).1.elim
        · exact h
        · exact h

/-- In every interleaving of appends, flushes and compactions on a well-formed
log in which every compaction that gets to its end began when everything was in
the log, nothing is appended from its beginning on and the log is short, no change
is lost around a compaction.  While the log is short, the changes at risk around a compaction come
back after a flush exactly if there are none. -/
theorem compaction_keeps_changes (bc : Bincode) (d : Disk) (rs : List Record)
    (hlog : HoldsLog d rs) (t : Nat) (steps : List CompactingStep) :
    ∃ s, FileChangeStore.new d t = .ok s ∧
      ((compactingStore bc).Along (fun st step => ShortLog st step ∧ Quiet st step) (.idle s)
          steps →
        KeepsChanges bc ((compactingStore bc).run (.idle s) steps)) ∧
      ((compactingStore bc).Along ShortLog (.idle s) steps →
        ∀ risk s', ((compactingStore bc).run (.idle s) steps).atRisk = some risk →
          ((compactingStore bc).run (.idle s) steps).calls.store.flush bc = (s', .ok ()) →
          (Returns bc s' risk ↔ risk = [])) := by
  rcases new_logBytes hlog t with ⟨s, hnew, hfresh⟩
  rcases hfresh.live with ⟨ino, hlive⟩
  have hlives : (compactingStore bc).Along ShortLog (.idle s) steps →
      Live ((compactingStore bc).run (.idle s) steps) ino := by
    intro halong
    exact run_invariant (I := fun st => Live st ino) (fun st step h hshort => h.next hshort)
      hlive halong
  refine ⟨s, hnew, fun halong => ?_, fun halong risk s' hrisk hflush => ?_⟩
  · have hlive' := hlives (halong.mono fun _ _ h => h.1)
    have hidle : Safe (.idle s) := fun _ hsome => by contradiction
    have hsafe := run_invariant (M := compactingStore bc) (I := fun st => Live st ino ∧ Safe st)
      (fun st step h hstep => ⟨h.1.next hstep.1, h.2.next h.1 hstep.2⟩) ⟨hlive, hidle⟩ halong
    intro risk hrisk _ _
    obtain rfl := hsafe.2 risk hrisk
    exact ⟨fun s' hflush => (hlive'.returns_iff hrisk hflush).mpr rfl, hlive'.tailCounts hrisk⟩
  · exact (hlives halong).returns_iff hrisk hflush

/-- A change that is flushed before a compaction begins. -/
def flushedRun : List CompactingStep :=
  [.call (.takeOffset sampleChange), .call (.push 0), .call .takeBuffer, .call (.write 0 .none),
    .compact 0] ++ List.replicate 12 (.compactStep .ok)

set_option maxRecDepth 10000 in
/-- The compaction keeps the promise, and has nothing at risk. -/
theorem compaction_keeps_changes_flushed :
    ∃ s, FileChangeStore.new Disk.empty 10 = .ok s ∧
      KeepsChanges sampleBincode ((compactingStore sampleBincode).run (.idle s) flushedRun) ∧
      ∀ risk s', ((compactingStore sampleBincode).run (.idle s) flushedRun).atRisk = some risk →
        ((compactingStore sampleBincode).run (.idle s) flushedRun).calls.store.flush
          sampleBincode = (s', .ok ()) →
        (Returns sampleBincode s' risk ↔ risk = []) := by
  rcases compaction_keeps_changes sampleBincode Disk.empty [] (Or.inr ⟨rfl, rfl⟩) 10
    flushedRun with ⟨s, hnew, hkeeps, hiff⟩
  have hquiet : (compactingStore sampleBincode).Along
      (fun st step => ShortLog st step ∧ Quiet st step) (.idle s) flushedRun := by
    obtain rfl := Except.ok.inj hnew
    have hshort : ∀ {st : CompactingStore} {data : Bytes}, st.calls.store.log = some data →
        data.length < 4 + magicLength → ShortLog st (.compactStep .ok) := by
      intro st data hlog hlt data' hlog'
      exact Option.some.inj (hlog.symm.trans hlog') ▸ hlt
    refine ⟨⟨trivial, Or.inr rfl⟩, ⟨trivial, Or.inl rfl⟩, ⟨trivial, Or.inl rfl⟩,
      ⟨trivial, Or.inl rfl⟩, ⟨trivial, trivial⟩, ?_⟩
    repeat refine ⟨⟨hshort rfl (by decide), fun _ _ _ => rfl⟩, ?_⟩
    trivial
  exact ⟨s, hnew, hkeeps hquiet, hiff (hquiet.mono fun _ _ h => h.1)⟩

/-- A change that is buffered while a compaction runs. -/
def bufferedRun : List CompactingStep :=
  [.call (.takeOffset sampleChange), .call (.push 0), .compact 0] ++
    List.replicate 12 (.compactStep .ok)

set_option maxRecDepth 10000 in
/-- A change that is buffered when a compaction begins is not read after a flush
that succeeds. -/
theorem not_keepsChanges_buffered :
    ∃ s, FileChangeStore.new Disk.empty 10 = .ok s ∧
      ¬ KeepsChanges sampleBincode ((compactingStore sampleBincode).run (.idle s)
        bufferedRun) := by
  refine ⟨_, rfl, fun hkeeps => ?_⟩
  rcases (hkeeps [sampleChange] rfl rfl rfl).1 _ rfl with ⟨⟨found, hread, hsub⟩, _⟩
  have hlength : some found.length = some 0 :=
    (congrArg (fun r => r.toOption.map List.length) hread).symm.trans (by decide)
  have hempty : found = [] := List.length_eq_zero_iff.mp (Option.some.inj hlength)
  rw [hempty] at hsub
  exact absurd (List.subset_nil.mp hsub) (List.cons_ne_nil _ _)

end IrohSync
