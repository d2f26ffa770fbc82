import Mathlib.Data.List.Infix
import IrohSync.Lib.BinarySearch
import IrohSync.Lib.Framing
import IrohSync.Change
import IrohSync.Error

/-!
# The file-based change store

The operations of {lit}`FileChangeStore` as the source computes them: opening
with recovery and index building, buffered appends, flushes through the append
handle, reads through a fresh handle, and streaming compaction.  The directory
the store works in is part of its state, so a reopened store is simply
{lit}`FileChangeStore.new` on the directory that an earlier one left.

Each of the three scanners of the log is a loop of its own with its own stop
rules; the change encoding, which a library provides, is a parameter.
-/

namespace IrohSync

open FileIo Framing Loop BinarySearch

/-! ## Constants -/

/-- Magic bytes for the change log file header, the ASCII codes of SDCL. -/
def logMagic : Bytes := [0x53, 0x44, 0x43, 0x4C]

/-- Current log format version. -/
def logVersion : Nat := 1

/-- Header size in bytes. -/
def headerSize : Nat := 16

/-- Maximum changes to buffer before forcing a flush. -/
def defaultFlushThreshold : Nat := 100

/-- Default index entry interval (index every N changes). -/
def defaultIndexInterval : Nat := 1000

/-- Records above this size stop the index build. -/
def maxIndexedLength : Nat := 16 * 1024 * 1024

/-- The main log. -/
def logName : String := "changes.log"

/-- The temporary file that a compaction writes. -/
def compactingName : String := "changes.compacting.tmp"

/-- The name a finished compaction goes through. -/
def compactedName : String := "changes.compacted.log"

/-- The four-byte length prefix of a log record. -/
abbrev le : LengthPrefix := LengthPrefix.little

/-! ## The store -/

/-- The encoding of changes that records hold. -/
structure Bincode where
  serialize : Change → Except String Bytes
  deserialize : Bytes → Except String Change

/-- An index entry mapping offset to file position. -/
structure IndexEntry where
  offset : Nat
  position : Nat
  length : Nat
deriving DecidableEq, Repr

/-- A file-based change store together with its directory. -/
structure FileChangeStore where
  disk : Disk
  tailOffset : Nat
  file : Option FileHandle
  buffer : List Change
  flushThreshold : Nat
  index : List IndexEntry
  indexInterval : Nat

/-- The bytes of the main log. -/
def FileChangeStore.log (s : FileChangeStore) : Option Bytes :=
  s.disk.readFile logName

/-! ## Recovery of temporary files -/

/-- Temp file type for recovery logic. -/
inductive TempFileType where
  | flush
  | compacting
deriving DecidableEq, Repr

/-- Stem and extension of a file name, cut at its last dot; a leading dot does
not start an extension. -/
def splitExtension (name : String) : String × Option String :=
  let chars := name.toList.reverse
  let ext := chars.takeWhile (fun c => c ≠ '.')
  match chars.drop ext.length with
  | [] => (name, none)
  | [_] => (name, none)
  | _ :: stem => (String.ofList stem.reverse, some (String.ofList ext.reverse))

/-- How recovery classifies a file of the directory. -/
def tempFileType (name : String) : Option TempFileType :=
  let parts := splitExtension name
  if parts.2 = some "tmp" then
    if "compacting".toList <:+: parts.1.toList then some .compacting else some .flush
  else none

/-- Recover from failed writes or compactions: every temporary file goes, those
of flushes and those of compactions alike. -/
def recoverTempFiles (d : Disk) : Disk :=
  (d.removeAll fun name => (tempFileType name).isSome).removeAll fun name =>
    decide (name = compactingName)

/-! ## Opening -/

/-- The sixteen header bytes: magic, version, reserved zeros. -/
def header : Bytes :=
  logMagic ++ le.write logVersion ++ List.replicate 8 0

/-- Write the log file header. -/
def writeHeader (d : Disk) (file : FileHandle) : Disk × FileHandle :=
  d.write file header

/-- The state of an index build in front of a record.  The reader stands at the
position that the build believes it is at. -/
structure IndexScan where
  reader : Reader
  index : List IndexEntry
  pos : Nat
  offset : Nat
  reader_pos : reader.pos = pos

/-- Build an index by scanning the file. -/
def buildIndexLoop (indexInterval : Nat) :
    Body IndexScan (Except IoError (List IndexEntry)) where
  pass s :=
    let recordStart := s.pos
    match s.reader.readExact 4 with
    | .error e => if e.kind = .unexpectedEof then .done (.ok s.index) else .done (.error e)
    | .ok (lenBuf, reader) =>
        let len := le.read lenBuf
        if len = 0 then .done (.ok s.index)
        else if maxIndexedLength < len then .done (.ok s.index)
        else
          let seekPos := s.pos + 4 + len
          .next
            { reader := reader.seek seekPos
              index :=
                if s.offset % indexInterval = 0 then
                  s.index ++ [{ offset := s.offset, position := recordStart, length := len }]
                else s.index
              pos := seekPos
              offset := s.offset + 1
              reader_pos := rfl }
  measure s := s.reader.data.length - s.reader.pos
  decreases := by
    intro s s' hpass
    simp only at hpass
    cases hread : s.reader.readExact 4 with
    | error e =>
        simp only [hread] at hpass
        split at hpass <;> contradiction
    | ok result =>
        rcases result with ⟨lenBuf, reader⟩
        rcases Reader.readExact_eq_ok hread with ⟨hlen, _, hreader⟩
        rw [Reader.rest_length] at hlen
        simp only [hread] at hpass
        split at hpass
        · contradiction
        · split at hpass
          · contradiction
          · simp only [Pass.next.injEq] at hpass
            subst s'
            subst reader
            have hpos := s.reader_pos
            simp only [Reader.seek]
            omega

/-- The index of a log whose bytes are given. -/
def buildIndex (data : Bytes) (indexInterval : Nat) : Except IoError (List IndexEntry) :=
  (buildIndexLoop indexInterval).run
    { reader := Reader.seek ⟨data, 0⟩ headerSize
      index := []
      pos := headerSize
      offset := 0
      reader_pos := rfl }

/-- The write offset that an index suggests. -/
def nextOffset (index : List IndexEntry) : Nat :=
  (index.getLast?.map fun e => e.offset + 1).getD 0

/-- What opening a log finds: the directory and handle after a header was
written if one was missing, the write offset and the index. -/
structure OpenedLog where
  disk : Disk
  file : FileHandle
  tailOffset : Nat
  index : List IndexEntry

/-- Initialize or migrate the log file. -/
def initializeFile (d : Disk) (file : FileHandle) (indexInterval : Nat) :
    Except IoError OpenedLog :=
  let data := d.content file.ino
  if data.length < headerSize then
    let written := writeHeader d file
    .ok { disk := written.1, file := written.2, tailOffset := 0, index := [] }
  else
    match Reader.readExact ⟨data, 0⟩ headerSize with
    | .error e => .error e
    | .ok (found, _) =>
        if found.take 4 ≠ logMagic then
          .error { kind := .invalidData, message := "invalid log file: missing magic bytes" }
        else
          let version := le.read ((found.drop 4).take 4)
          if logVersion < version then
            .error { kind := .invalidData, message := s!"unsupported log version: {version}" }
          else
            match buildIndex data indexInterval with
            | .error e => .error e
            | .ok index =>
                .ok
                  { disk := d
                    file := file
                    tailOffset := nextOffset index
                    index := index }

/-- Open a change store in a directory. -/
def FileChangeStore.new (d : Disk) (flushThreshold : Nat) : Except Error FileChangeStore :=
  let opened := (recoverTempFiles d).openAppend logName
  match initializeFile opened.1 opened.2 defaultIndexInterval with
  | .error e => .error (.other ("failed to initialize log: " ++ e.message))
  | .ok found =>
      .ok
        { disk := found.disk
          tailOffset := found.tailOffset
          file := some found.file
          buffer := []
          flushThreshold := flushThreshold
          index := found.index
          indexInterval := defaultIndexInterval }

/-! ## Flushing -/

/-- Where the device fails during one flush.  With {lit}`write reached` exactly
{lit}`reached` more bytes reach the file before a write fails. -/
inductive IoFault where
  | none
  | write (reached : Nat)
  | flush
  | sync
deriving DecidableEq, Repr

/-- The append file of a store and the fault its device still has in store. -/
structure Device where
  disk : Disk
  file : FileHandle
  fault : IoFault

/-- Write all bytes, or a part of them and fail. -/
def Device.writeAll (dev : Device) (bytes : Bytes) : Device × Except IoError Unit :=
  match dev.fault with
  | .write reached =>
      if reached < bytes.length then
        let written := dev.disk.write dev.file (bytes.take reached)
        ({ disk := written.1, file := written.2, fault := .write 0 }, .error IoError.full)
      else
        let written := dev.disk.write dev.file bytes
        ({ disk := written.1, file := written.2, fault := .write (reached - bytes.length) },
          .ok ())
  | _ =>
      let written := dev.disk.write dev.file bytes
      ({ dev with disk := written.1, file := written.2 }, .ok ())

/-- The error of a failed write, flush or sync of the log. -/
def flushFailed (e : IoError) : Error :=
  .other ("flush failed (disk full?): " ++ e.message)

/-- Write the records of all changes, stopping at the first error. -/
def writeRecords (bc : Bincode) : Device → List Change → Device × Except Error Unit
  | dev, [] => (dev, .ok ())
  | dev, change :: rest =>
      match bc.serialize change with
      | .error e => (dev, .error (.encoding e))
      | .ok bytes =>
          match dev.writeAll (le.write bytes.length) with
          | (dev, .error e) => (dev, .error (flushFailed e))
          | (dev, .ok ()) =>
              match dev.writeAll bytes with
              | (dev, .error e) => (dev, .error (flushFailed e))
              | (dev, .ok ()) => writeRecords bc dev rest

/-- The entries a large flush adds to the index, without a real position. -/
def flushedEntries (currentOffset count indexInterval : Nat) : List IndexEntry :=
  ((List.range count).filter fun i => i % indexInterval = 0).map fun i =>
    { offset := currentOffset + i, position := 0, length := 0 }

/-- Flush any buffered writes to disk, under a fault of the device. -/
def FileChangeStore.flushUnder (fault : IoFault) (bc : Bincode) (s : FileChangeStore) :
    FileChangeStore × Except Error Unit :=
  let changes := s.buffer
  let s := { s with buffer := [] }
  if changes.isEmpty then (s, .ok ())
  else
    match s.file with
    | none => (s, .ok ())
    | some f =>
        let written := writeRecords bc ⟨s.disk, f, fault⟩ changes
        let s := { s with disk := written.1.disk, file := some written.1.file }
        match written.2 with
        | .error e => (s, .error e)
        | .ok () =>
            if fault = .flush then (s, .error (flushFailed IoError.full))
            else if fault = .sync then
              (s, .error (.other ("sync failed (disk full?): " ++ IoError.full.message ++
                " - data may not be durable")))
            else if s.indexInterval ≤ changes.length then
              ({ s with index := s.index ++
                  flushedEntries (s.tailOffset - changes.length) changes.length s.indexInterval },
                .ok ())
            else (s, .ok ())

/-- Flush any buffered writes to disk. -/
def FileChangeStore.flush (bc : Bincode) (s : FileChangeStore) :
    FileChangeStore × Except Error Unit :=
  s.flushUnder .none bc

/-- Append a change to the log, under a fault of the device. -/
def FileChangeStore.appendUnder (fault : IoFault) (bc : Bincode) (s : FileChangeStore)
    (change : Change) : FileChangeStore × Except Error Nat :=
  let offset := s.tailOffset
  let s := { s with tailOffset := offset + 1, buffer := s.buffer ++ [change] }
  if s.flushThreshold ≤ s.buffer.length then
    match s.flushUnder fault bc with
    | (s, .error e) => (s, .error e)
    | (s, .ok ()) => (s, .ok offset)
  else (s, .ok offset)

/-- Append a change to the log. -/
def FileChangeStore.append (bc : Bincode) (s : FileChangeStore) (change : Change) :
    FileChangeStore × Except Error Nat :=
  s.appendUnder .none bc change

/-- Flush what is buffered and release the file handle. -/
def FileChangeStore.close (bc : Bincode) (s : FileChangeStore) :
    FileChangeStore × Except Error Unit :=
  match s.flush bc with
  | (s, .error e) => (s, .error e)
  | (s, .ok ()) => ({ s with file := none }, .ok ())

/-! ## Reading -/

/-- The byte position from which a read starts. -/
def startPosition (index : List IndexEntry) (offset : Nat) : Nat :=
  if offset = 0 then headerSize
  else
    match binarySearchBy index (fun e => compare e.offset offset) with
    | .ok pos => (index[pos]?.map IndexEntry.position).getD headerSize
    | .error pos =>
        if pos = 0 then headerSize
        else (index[pos - 1]?.map IndexEntry.position).getD headerSize

/-- The record number that a read assigns to the record at its start. -/
def startOffset (index : List IndexEntry) (startPos : Nat) : Nat :=
  match ((index.filter fun e => e.position ≤ startPos).map IndexEntry.offset).max? with
  | some offset => offset + 1
  | none => 0

/-- The state of a read in front of a record. -/
structure ReadScan where
  reader : Reader
  changes : List Change
  currentOffset : Nat

/-- The error of a failed read of the log. -/
def readFailed (e : IoError) : Error :=
  .other ("read error: " ++ e.message)

/-- Read the records from the start position on and decode the requested ones. -/
def readChangesLoop (bc : Bincode) (offset : Nat) :
    Body ReadScan (Except Error (List Change)) where
  pass s :=
    match s.reader.readExact 4 with
    | .error e =>
        if e.kind = .unexpectedEof then .done (.ok s.changes) else .done (.error (readFailed e))
    | .ok (lenBuf, reader) =>
        let len := le.read lenBuf
        if len = 0 then .done (.ok s.changes)
        else
          match reader.readExact len with
          | .error e => .done (.error (readFailed e))
          | .ok (changeBuf, reader) =>
              if offset ≤ s.currentOffset then
                match bc.deserialize changeBuf with
                | .error e => .done (.error (.encoding e))
                | .ok change => .next ⟨reader, s.changes ++ [change], s.currentOffset + 1⟩
              else .next ⟨reader, s.changes, s.currentOffset + 1⟩
  measure s := s.reader.data.length - s.reader.pos
  decreases := by
    intro s s' hpass
    simp only at hpass
    cases hread : s.reader.readExact 4 with
    | error e =>
        simp only [hread] at hpass
        split at hpass <;> contradiction
    | ok result =>
        rcases result with ⟨lenBuf, reader⟩
        rcases Reader.readExact_eq_ok hread with ⟨hlen, _, hreader⟩
        rw [Reader.rest_length] at hlen
        simp only [hread] at hpass
        split at hpass
        · contradiction
        · cases hbody : reader.readExact (le.read lenBuf) with
          | error e => simp [hbody] at hpass
          | ok result =>
              rcases result with ⟨changeBuf, reader'⟩
              rcases Reader.readExact_eq_ok hbody with ⟨_, _, hreader'⟩
              simp only [hbody] at hpass
              subst reader
              subst reader'
              split at hpass
              · split at hpass
                · contradiction
                · simp only [Pass.next.injEq] at hpass
                  subst s'
                  simp only
                  omega
              · simp only [Pass.next.injEq] at hpass
                subst s'
                simp only
                omega

/-- Read changes from a specific offset using the index. -/
def FileChangeStore.readChangesSince (bc : Bincode) (s : FileChangeStore) (offset : Nat) :
    Except Error (List Change) :=
  match s.log with
  | none => .error (.ofIo .missing)
  | some data =>
      let startPos := startPosition s.index offset
      (readChangesLoop bc offset).run
        { reader := Reader.seek ⟨data, 0⟩ startPos
          changes := []
          currentOffset := startOffset s.index startPos }

/-- Get changes since a given offset. -/
def FileChangeStore.getSince (bc : Bincode) (s : FileChangeStore) (offset : Nat) :
    Except Error (List Change) :=
  s.readChangesSince bc offset

/-! ## Compaction -/

/-- The state of a compaction in front of a record of the source file. -/
structure Compaction where
  reader : Reader
  disk : Disk
  writer : FileHandle
  newOffset : Nat
  recordNumber : Nat

/-- Stream through the source record by record and copy the kept ones.  The
writer's buffer is emptied before the loop's result is used, so its bytes count
as written at once. -/
def compactLoop (keepFromOffset : Nat) : Body Compaction (Compaction × Except Error Unit) where
  pass c :=
    match c.reader.readExact 4 with
    | .error e =>
        if e.kind = .unexpectedEof then .done (c, .ok ())
        else .done ({ c with disk := c.disk.remove compactingName }, .error (readFailed e))
    | .ok (lenBuf, reader) =>
        let len := le.read lenBuf
        match reader.readExact len with
        | .error e =>
            if e.kind = .unexpectedEof then .done (c, .ok ())
            else .done ({ c with disk := c.disk.remove compactingName }, .error (readFailed e))
        | .ok (changeBuf, reader) =>
            if keepFromOffset ≤ c.recordNumber then
              let wroteLen := c.disk.write c.writer lenBuf
              let wroteBody := wroteLen.1.write wroteLen.2 changeBuf
              .next ⟨reader, wroteBody.1, wroteBody.2, c.newOffset + 1, c.recordNumber + 1⟩
            else .next ⟨reader, c.disk, c.writer, c.newOffset, c.recordNumber + 1⟩
  measure c := c.reader.data.length - c.reader.pos
  decreases := by
    intro c c' hpass
    simp only at hpass
    cases hread : c.reader.readExact 4 with
    | error e =>
        simp only [hread] at hpass
        split at hpass <;> contradiction
    | ok result =>
        rcases result with ⟨lenBuf, reader⟩
        rcases Reader.readExact_eq_ok hread with ⟨hlen, _, hreader⟩
        rw [Reader.rest_length] at hlen
        simp only [hread] at hpass
        cases hbody : reader.readExact (le.read lenBuf) with
        | error e =>
            simp only [hbody] at hpass
            split at hpass <;> contradiction
        | ok result =>
            rcases result with ⟨changeBuf, reader'⟩
            rcases Reader.readExact_eq_ok hbody with ⟨_, _, hreader'⟩
            simp only [hbody] at hpass
            subst reader
            subst reader'
            split at hpass <;>
              · simp only [Pass.next.injEq] at hpass
                subst c'
                simp only
                omega

/-- Compact the log by removing old entries. -/
def FileChangeStore.compact (s : FileChangeStore) (keepFromOffset : Nat) :
    FileChangeStore × Except Error Nat :=
  match s.log with
  | none => (s, .error (.other ("failed to open source file: " ++ IoError.missing.message)))
  | some source =>
      let temp := s.disk.create compactingName
      -- the header goes through a second handle on the same file
      let headerFile := temp.1.create compactingName
      let headed := writeHeader headerFile.1 headerFile.2
      let copied := (compactLoop keepFromOffset).run ⟨⟨source, 0⟩, headed.1, temp.2, 0, 0⟩
      match copied.2 with
      | .error e => ({ s with disk := copied.1.disk }, .error e)
      | .ok () =>
          match copied.1.disk.rename compactingName compactedName with
          | .error e =>
              ({ s with disk := copied.1.disk },
                .error (.other ("failed to rename temp: " ++ e.message)))
          | .ok renamed =>
              match renamed.rename compactedName logName with
              | .error e =>
                  ({ s with disk := renamed },
                    .error (.other ("failed to rename compacted: " ++ e.message)))
              | .ok replaced =>
                  ({ s with disk := replaced, index := [], tailOffset := copied.1.newOffset },
                    .ok copied.1.newOffset)

/-- Compact with automatic recovery on failure. -/
def FileChangeStore.compactWithRecovery (s : FileChangeStore) (keepFromOffset : Nat) :
    FileChangeStore × Except Error Nat :=
  s.compact keepFromOffset

end IrohSync
