import Mathlib.Logic.Function.Basic
import Mathlib.Tactic.SplitIfs

/-!
# Files, handles and readers

A directory maps names to inodes and inodes to bytes, so that two handles can
share one file and a handle can outlive the name it was opened under.  Handles
carry their own position; an appending handle always writes at the end.

Main results:

- Theorem {lit}`Reader.readExact_append`: reading what the remaining bytes begin
  with.
- Theorems {lit}`Disk.create_handle`, {lit}`Disk.openAppend_handle`,
  {lit}`Disk.content_write_append` and {lit}`Disk.rename_of_entry`: what each
  operation does to the named file.
- Theorem {lit}`Disk.write_write`: consecutive writes through one handle.
- Theorems {lit}`Disk.keeps_write`, {lit}`Disk.keeps_create` and
  {lit}`Disk.keeps_rename`: which files an operation leaves alone.
- Theorems {lit}`Disk.Reserves.create` and {lit}`Disk.Reserves.rename`: the inode
  behind an open handle is not used for another file.
-/

namespace FileIo

abbrev Bytes := List UInt8

/-! ## Errors -/

/-- The kinds of I/O error that a program tells apart. -/
inductive ErrorKind where
  | notFound
  | unexpectedEof
  | invalidInput
  | invalidData
  | storageFull
  | other
deriving DecidableEq, Repr

/-- An I/O error with its displayed text. -/
structure IoError where
  kind : ErrorKind
  message : String
deriving DecidableEq, Repr

/-- The error of a read that finds fewer bytes than it asked for. -/
def IoError.eof : IoError where
  kind := .unexpectedEof
  message := "failed to fill whole buffer"

/-- The error of opening a name that does not exist. -/
def IoError.missing : IoError where
  kind := .notFound
  message := "No such file or directory (os error 2)"

/-- The error of a write to a device without space. -/
def IoError.full : IoError where
  kind := .storageFull
  message := "No space left on device (os error 28)"

/-! ## Sequential readers -/

/-- A reader over the bytes of an open file. -/
structure Reader where
  data : Bytes
  pos : Nat

/-- The bytes a reader has not consumed. -/
def Reader.rest (r : Reader) : Bytes :=
  r.data.drop r.pos

/-- Move a reader to an absolute position, which may lie behind the end. -/
def Reader.seek (r : Reader) (pos : Nat) : Reader :=
  { r with pos := pos }

/-- Read exactly `n` bytes or fail. -/
def Reader.readExact (r : Reader) (n : Nat) : Except IoError (Bytes × Reader) :=
  if r.rest.length < n then .error .eof
  else .ok (r.rest.take n, { r with pos := r.pos + n })

/-- Reading succeeds on what the remaining bytes begin with. -/
theorem Reader.readExact_append {r : Reader} {front back : Bytes}
    (hrest : r.rest = front ++ back) :
    r.readExact front.length = .ok (front, { r with pos := r.pos + front.length }) := by
  simp [readExact, hrest]

/-- Reading fails when too few bytes remain. -/
theorem Reader.readExact_eof {r : Reader} {n : Nat} (h : r.rest.length < n) :
    r.readExact n = .error .eof := by
  simp [readExact, h]

/-- Reading succeeds exactly when enough bytes remain. -/
theorem Reader.readExact_eq_ok {r r' : Reader} {n : Nat} {bytes : Bytes}
    (h : r.readExact n = .ok (bytes, r')) :
    n ≤ r.rest.length ∧ bytes = r.rest.take n ∧ r' = { r with pos := r.pos + n } := by
  unfold readExact at h
  split at h
  · contradiction
  · rename_i hlen
    simp only [Except.ok.injEq, Prod.mk.injEq] at h
    exact ⟨Nat.le_of_not_lt hlen, h.1.symm, h.2.symm⟩

/-- The only error of a read is the end of the file. -/
theorem Reader.readExact_eq_error {r : Reader} {n : Nat} {e : IoError}
    (h : r.readExact n = .error e) : e = .eof ∧ r.rest.length < n := by
  unfold readExact at h
  split at h
  · rename_i hlen
    exact ⟨(Except.error.inj h).symm, hlen⟩
  · contradiction

/-- Advancing a reader drops from its remaining bytes. -/
theorem Reader.rest_advance (r : Reader) (n : Nat) :
    Reader.rest { r with pos := r.pos + n } = r.rest.drop n := by
  simp [rest, Nat.add_comm]

/-- The remaining bytes after reading a front part of them. -/
theorem Reader.rest_advance_append {r : Reader} {front back : Bytes}
    (hrest : r.rest = front ++ back) :
    Reader.rest { r with pos := r.pos + front.length } = back := by
  rw [rest_advance, hrest, List.drop_left]

theorem Reader.rest_length (r : Reader) : r.rest.length = r.data.length - r.pos := by
  simp [rest]

/-! ## Directories -/

/-- A directory of files.  Distinct names never share an inode. -/
structure Disk where
  entries : String → Option Nat
  content : Nat → Bytes
  next : Nat
  entries_lt : ∀ {name ino}, entries name = some ino → ino < next
  entries_inj : ∀ {a b ino}, entries a = some ino → entries b = some ino → a = b

/-- An open file. -/
structure FileHandle where
  ino : Nat
  pos : Nat
  append : Bool
deriving DecidableEq, Repr

/-- The empty directory. -/
def Disk.empty : Disk where
  entries := fun _ => none
  content := fun _ => []
  next := 0
  entries_lt := by simp
  entries_inj := by simp

/-- The directory with one file. -/
def Disk.single (name : String) (bytes : Bytes) : Disk where
  entries := Function.update (fun _ => none) name (some 0)
  content := fun _ => bytes
  next := 1
  entries_lt := by
    intro a ino ha
    by_cases hname : a = name
    · subst a
      simp only [Function.update_self, Option.some.injEq] at ha
      omega
    · simp [Function.update_of_ne hname] at ha
  entries_inj := by
    intro a b ino ha hb
    by_cases han : a = name
    · by_cases hbn : b = name
      · rw [han, hbn]
      · simp [Function.update_of_ne hbn] at hb
    · simp [Function.update_of_ne han] at ha

/-- The bytes of a named file. -/
def Disk.readFile (d : Disk) (name : String) : Option Bytes :=
  (d.entries name).map d.content

/-- Replace the bytes of one inode. -/
def Disk.setContent (d : Disk) (ino : Nat) (bytes : Bytes) : Disk :=
  { d with content := Function.update d.content ino bytes }

/-- Bind a new name to a fresh, empty inode. -/
def Disk.link (d : Disk) (name : String) : Disk where
  entries := Function.update d.entries name (some d.next)
  content := Function.update d.content d.next []
  next := d.next + 1
  entries_lt := by
    intro a ino ha
    by_cases hname : a = name
    · subst a
      simp only [Function.update_self, Option.some.injEq] at ha
      omega
    · rw [Function.update_of_ne hname] at ha
      exact Nat.lt_succ_of_lt (d.entries_lt ha)
  entries_inj := by
    intro a b ino ha hb
    by_cases han : a = name <;> by_cases hbn : b = name
    · rw [han, hbn]
    · subst a
      rw [Function.update_of_ne hbn] at hb
      simp only [Function.update_self, Option.some.injEq] at ha
      have := d.entries_lt hb
      omega
    · subst b
      rw [Function.update_of_ne han] at ha
      simp only [Function.update_self, Option.some.injEq] at hb
      have := d.entries_lt ha
      omega
    · rw [Function.update_of_ne han] at ha
      rw [Function.update_of_ne hbn] at hb
      exact d.entries_inj ha hb

/-- Open a file for writing from its start, truncating it or making it. -/
def Disk.create (d : Disk) (name : String) : Disk × FileHandle :=
  match d.entries name with
  | some ino => (d.setContent ino [], ⟨ino, 0, false⟩)
  | none => (d.link name, ⟨d.next, 0, false⟩)

/-- Open a file for reading and appending, making it if it is missing. -/
def Disk.openAppend (d : Disk) (name : String) : Disk × FileHandle :=
  match d.entries name with
  | some ino => (d, ⟨ino, 0, true⟩)
  | none => (d.link name, ⟨d.next, 0, true⟩)

/-- Put bytes over those from a position on, filling a gap with zeros. -/
def overwrite (old : Bytes) (pos : Nat) (bytes : Bytes) : Bytes :=
  old.take pos ++ List.replicate (pos - old.length) 0 ++ bytes ++
    old.drop (pos + bytes.length)

/-- Write all bytes through a handle.  Writing nothing does nothing. -/
def Disk.write (d : Disk) (h : FileHandle) (bytes : Bytes) : Disk × FileHandle :=
  let old := d.content h.ino
  if bytes.isEmpty then (d, h)
  else if h.append then
    (d.setContent h.ino (old ++ bytes), { h with pos := old.length + bytes.length })
  else
    (d.setContent h.ino (overwrite old h.pos bytes), { h with pos := h.pos + bytes.length })

/-- Remove a name; open handles keep the file. -/
def Disk.remove (d : Disk) (name : String) : Disk where
  entries := Function.update d.entries name none
  content := d.content
  next := d.next
  entries_lt := by
    intro a ino ha
    by_cases hname : a = name
    · subst a
      simp at ha
    · rw [Function.update_of_ne hname] at ha
      exact d.entries_lt ha
  entries_inj := by
    intro a b ino ha hb
    by_cases han : a = name
    · subst a
      simp at ha
    · by_cases hbn : b = name
      · subst b
        simp at hb
      · rw [Function.update_of_ne han] at ha
        rw [Function.update_of_ne hbn] at hb
        exact d.entries_inj ha hb

/-- Remove every name that a test selects. -/
def Disk.removeAll (d : Disk) (selected : String → Bool) : Disk where
  entries := fun name => if selected name then none else d.entries name
  content := d.content
  next := d.next
  entries_lt := by
    intro a ino ha
    split at ha
    · contradiction
    · exact d.entries_lt ha
  entries_inj := by
    intro a b ino ha hb
    split at ha
    · contradiction
    · split at hb
      · contradiction
      · exact d.entries_inj ha hb

/-- Move an existing file to a name, replacing what the name stood for. -/
def Disk.moveTo (d : Disk) (old new : String) (ino : Nat)
    (hino : d.entries old = some ino) : Disk where
  entries := Function.update (Function.update d.entries old none) new (some ino)
  content := d.content
  next := d.next
  entries_lt := by
    intro a i ha
    by_cases han : a = new
    · subst a
      simp only [Function.update_self, Option.some.injEq] at ha
      exact ha ▸ d.entries_lt hino
    · rw [Function.update_of_ne han] at ha
      exact (d.remove old).entries_lt ha
  entries_inj := by
    have hgone : ∀ {a}, a ≠ new →
        Function.update (Function.update d.entries old none) new (some ino) a ≠ some ino := by
      intro a han ha
      rw [Function.update_of_ne han] at ha
      by_cases hao : a = old
      · simp [hao] at ha
      · rw [Function.update_of_ne hao] at ha
        exact hao (d.entries_inj ha hino)
    intro a b i ha hb
    by_cases han : a = new <;> by_cases hbn : b = new
    · rw [han, hbn]
    · subst a
      simp only [Function.update_self, Option.some.injEq] at ha
      exact (hgone hbn (ha ▸ hb)).elim
    · subst b
      simp only [Function.update_self, Option.some.injEq] at hb
      exact (hgone han (hb ▸ ha)).elim
    · rw [Function.update_of_ne han] at ha
      rw [Function.update_of_ne hbn] at hb
      exact (d.remove old).entries_inj ha hb

/-- Rename a file, atomically replacing the target. -/
def Disk.rename (d : Disk) (old new : String) : Except IoError Disk :=
  match h : d.entries old with
  | some ino => .ok (d.moveTo old new ino h)
  | none => .error .missing

/-! ## What the operations do to named files -/

@[simp]
theorem Disk.readFile_single (name : String) (bytes : Bytes) :
    (Disk.single name bytes).readFile name = some bytes := by
  simp [readFile, single]

theorem Disk.readFile_of_entry {d : Disk} {name : String} {ino : Nat}
    (h : d.entries name = some ino) : d.readFile name = some (d.content ino) := by
  simp [readFile, h]

/-- Another name stands for another inode. -/
theorem Disk.entries_ne {d : Disk} {name other : String} {ino : Nat} (hne : other ≠ name)
    (h : d.entries name = some ino) : d.entries other ≠ some ino :=
  fun hother => hne (d.entries_inj hother h)

/-- A name that is not selected for removal keeps its file. -/
theorem Disk.readFile_removeAll {d : Disk} {selected : String → Bool} {name : String}
    (h : selected name = false) : (d.removeAll selected).readFile name = d.readFile name := by
  simp [readFile, removeAll, h]

/-- The handle of a created file is at the start of the named inode. -/
theorem Disk.create_handle (d : Disk) (name : String) :
    (d.create name).1.entries name = some (d.create name).2.ino ∧
      (d.create name).1.content (d.create name).2.ino = [] ∧
      (d.create name).2.pos = 0 ∧ (d.create name).2.append = false := by
  unfold create
  cases hentry : d.entries name with
  | none => simp [link]
  | some ino => simp [setContent, hentry]

/-- The handle of a created file is on the inode of the name or on a new one. -/
theorem Disk.create_ino (d : Disk) (name : String) :
    d.entries name = some (d.create name).2.ino ∨ (d.create name).2.ino = d.next := by
  unfold create
  cases hentry : d.entries name with
  | none => exact Or.inr rfl
  | some ino => exact Or.inl rfl

theorem Disk.next_le_create (d : Disk) (name : String) : d.next ≤ (d.create name).1.next := by
  unfold create
  cases d.entries name with
  | none => exact Nat.le_succ d.next
  | some ino => exact Nat.le_refl d.next

/-- Creating a file that exists reuses its inode. -/
theorem Disk.create_of_entry {d : Disk} {name : String} {ino : Nat}
    (h : d.entries name = some ino) :
    d.create name = (d.setContent ino [], ⟨ino, 0, false⟩) := by
  simp [create, h]

/-- The handle of an appended file is that of the named inode. -/
theorem Disk.openAppend_handle (d : Disk) (name : String) :
    (d.openAppend name).1.entries name = some (d.openAppend name).2.ino ∧
      (d.openAppend name).2.append = true := by
  unfold openAppend
  cases hentry : d.entries name with
  | none => simp [link]
  | some ino => simp [hentry]

/-- Opening for appending keeps the bytes of the file; a new file is empty. -/
theorem Disk.openAppend_content (d : Disk) (name : String) :
    (d.openAppend name).1.content (d.openAppend name).2.ino = (d.readFile name).getD [] := by
  unfold openAppend readFile
  cases hentry : d.entries name with
  | none => simp [link]
  | some ino => simp

@[simp]
theorem Disk.write_entries (d : Disk) (h : FileHandle) (bytes : Bytes) :
    (d.write h bytes).1.entries = d.entries := by
  unfold write
  split_ifs <;> rfl

@[simp]
theorem Disk.write_next (d : Disk) (h : FileHandle) (bytes : Bytes) :
    (d.write h bytes).1.next = d.next := by
  unfold write
  split_ifs <;> rfl

@[simp]
theorem Disk.write_ino (d : Disk) (h : FileHandle) (bytes : Bytes) :
    (d.write h bytes).2.ino = h.ino := by
  unfold write
  split_ifs <;> rfl

@[simp]
theorem Disk.write_append (d : Disk) (h : FileHandle) (bytes : Bytes) :
    (d.write h bytes).2.append = h.append := by
  unfold write
  split_ifs <;> rfl

/-- An appending handle adds its bytes at the end. -/
theorem Disk.content_write_append {d : Disk} {h : FileHandle} {bytes : Bytes}
    (happend : h.append = true) :
    (d.write h bytes).1.content h.ino = d.content h.ino ++ bytes := by
  cases bytes with
  | nil => simp [write]
  | cons b rest => simp [write, happend, setContent]

/-- Writing through a handle leaves other inodes alone. -/
theorem Disk.content_write_of_ne {d : Disk} {h : FileHandle} {bytes : Bytes} {ino : Nat}
    (hne : ino ≠ h.ino) : (d.write h bytes).1.content ino = d.content ino := by
  unfold write
  split_ifs
  · rfl
  · exact Function.update_of_ne hne _ _
  · exact Function.update_of_ne hne _ _

/-- A positioned handle puts its bytes over those from its position on. -/
theorem Disk.content_write_overwrite {d : Disk} {h : FileHandle} {bytes : Bytes}
    (happend : h.append = false) (hne : bytes ≠ []) :
    (d.write h bytes).1.content h.ino = overwrite (d.content h.ino) h.pos bytes := by
  simp [write, happend, hne, setContent]

/-- Writing from the start over bytes that are no longer replaces them. -/
theorem overwrite_of_length_le {old bytes : Bytes} (h : old.length ≤ bytes.length) :
    overwrite old 0 bytes = bytes := by
  simp [overwrite, h]

private theorem overwrite_overwrite (old : Bytes) (pos : Nat) (front back : Bytes) :
    overwrite (overwrite old pos front) (pos + front.length) back =
      overwrite old pos (front ++ back) := by
  have hhead : (old.take pos ++ List.replicate (pos - old.length) 0 ++ front).length =
      pos + front.length := by
    simp
    omega
  have htake : (overwrite old pos front).take (pos + front.length) =
      old.take pos ++ List.replicate (pos - old.length) 0 ++ front := by
    rw [overwrite, List.take_left' hhead]
  have hdrop : (overwrite old pos front).drop (pos + front.length + back.length) =
      old.drop (pos + (front ++ back).length) := by
    rw [← List.drop_drop, overwrite, List.drop_left' hhead, List.drop_drop]
    simp [Nat.add_assoc]
  have hpad : pos + front.length - (overwrite old pos front).length = 0 := by
    simp [overwrite]
    omega
  rw [overwrite, htake, hdrop, hpad]
  simp [overwrite]

@[simp]
theorem Disk.write_nil (d : Disk) (h : FileHandle) : d.write h [] = (d, h) := by
  simp [write]

/-- Two writes through one handle are one write of their bytes together. -/
theorem Disk.write_write (d : Disk) (h : FileHandle) (front back : Bytes) :
    (d.write h front).1.write (d.write h front).2 back = d.write h (front ++ back) := by
  cases front with
  | nil => simp
  | cons a front =>
      cases back with
      | nil => simp
      | cons b back =>
          cases happend : h.append with
          | true =>
              simp [write, happend, setContent, Nat.add_assoc]
              omega
          | false =>
              have hover := overwrite_overwrite (d.content h.ino) h.pos (a :: front) (b :: back)
              simp only [List.length_cons, List.cons_append] at hover
              simp [write, happend, setContent, hover]
              omega

/-- Renaming moves the bytes of the old name to the new one. -/
theorem Disk.rename_of_entry {d : Disk} {old : String} (new : String) {ino : Nat}
    (h : d.entries old = some ino) :
    ∃ d', d.rename old new = .ok d' ∧ d'.entries new = some ino ∧ d'.content = d.content := by
  unfold rename
  split
  · rename_i i hi
    have hino : i = ino := Option.some.inj (hi.symm.trans h)
    subst i
    exact ⟨_, rfl, by simp [moveTo], rfl⟩
  · simp_all

/-- What renaming does to all names. -/
theorem Disk.rename_entries {d d' : Disk} {old new : String} (h : d.rename old new = .ok d') :
    d'.next = d.next ∧ d'.content = d.content ∧ d'.entries new = d.entries old ∧
      ∀ name ≠ new, d'.entries name = if name = old then none else d.entries name := by
  unfold rename at h
  split at h
  · rename_i ino hino
    obtain rfl := Except.ok.inj h
    refine ⟨rfl, rfl, ?_, fun name hname => ?_⟩
    · simp only [moveTo, Function.update_self, hino]
    · simp only [moveTo, Function.update_of_ne hname, Function.update_apply]
  · contradiction

/-! ## Files that are left alone -/

/-- What was done to a directory left a named file alone. -/
structure Disk.Keeps (d d' : Disk) (name : String) : Prop where
  entries : d'.entries name = d.entries name
  content : ∀ ino, d.entries name = some ino → d'.content ino = d.content ino

theorem Disk.Keeps.refl (d : Disk) (name : String) : d.Keeps d name :=
  ⟨rfl, fun _ _ => rfl⟩

theorem Disk.Keeps.trans {d d' d'' : Disk} {name : String} (h : d.Keeps d' name)
    (h' : d'.Keeps d'' name) : d.Keeps d'' name where
  entries := h'.entries.trans h.entries
  content ino hino := (h'.content ino (h.entries.trans hino)).trans (h.content ino hino)

/-- A file that is left alone reads as before. -/
theorem Disk.Keeps.readFile {d d' : Disk} {name : String} (h : d.Keeps d' name) :
    d'.readFile name = d.readFile name := by
  unfold Disk.readFile
  rw [h.entries]
  cases hentry : d.entries name with
  | none => rfl
  | some ino => exact congrArg some (h.content ino hentry)

/-- Changing one inode leaves the names of other inodes alone. -/
theorem Disk.keeps_setContent {d : Disk} {name : String} {ino : Nat} {bytes : Bytes}
    (hne : d.entries name ≠ some ino) : d.Keeps (d.setContent ino bytes) name where
  entries := rfl
  content i hi := by
    have hi' : i ≠ ino := fun heq => hne (heq ▸ hi)
    exact Function.update_of_ne hi' _ _

/-- Writing through a handle leaves the names of other inodes alone. -/
theorem Disk.keeps_write {d : Disk} {h : FileHandle} {bytes : Bytes} {name : String}
    (hne : d.entries name ≠ some h.ino) : d.Keeps (d.write h bytes).1 name := by
  unfold Disk.write
  split_ifs
  · exact Disk.Keeps.refl d name
  · exact Disk.keeps_setContent hne
  · exact Disk.keeps_setContent hne

/-- Creating a file leaves every other named file alone. -/
theorem Disk.keeps_create {d : Disk} {name other : String} (hne : other ≠ name) :
    d.Keeps (d.create name).1 other := by
  unfold Disk.create
  cases hentry : d.entries name with
  | none =>
      refine ⟨Function.update_of_ne hne _ _, fun ino hino => ?_⟩
      exact Function.update_of_ne (Nat.ne_of_lt (d.entries_lt hino)) _ _
  | some ino =>
      apply Disk.keeps_setContent
      intro hother
      exact hne (d.entries_inj hother hentry)

/-- Removing a name leaves every other named file alone. -/
theorem Disk.keeps_remove {d : Disk} {name other : String} (hne : other ≠ name) :
    d.Keeps (d.remove name) other where
  entries := Function.update_of_ne hne _ _
  content _ _ := rfl

/-- Renaming leaves every other named file alone. -/
theorem Disk.keeps_rename {d d' : Disk} {old new other : String} (hold : other ≠ old)
    (hnew : other ≠ new) (hrename : d.rename old new = .ok d') : d.Keeps d' other := by
  unfold Disk.rename at hrename
  split at hrename
  · rw [← Except.ok.inj hrename]
    refine ⟨?_, fun _ _ => rfl⟩
    exact (Function.update_of_ne hnew _ _).trans (Function.update_of_ne hold _ _)
  · contradiction

/-! ## Inodes with one name -/

/-- No name but one may stand for an inode, and no new file will be put there. -/
structure Disk.Reserves (d : Disk) (ino : Nat) (name : String) : Prop where
  lt : ino < d.next
  names : ∀ other ≠ name, d.entries other ≠ some ino

/-- The inode that a name stands for has no other name. -/
theorem Disk.reserves_of_entry {d : Disk} {ino : Nat} {name : String}
    (h : d.entries name = some ino) : d.Reserves ino name where
  lt := d.entries_lt h
  names _ hne := Disk.entries_ne hne h

theorem Disk.Reserves.setContent {d : Disk} {ino : Nat} {name : String}
    (h : d.Reserves ino name) (i : Nat) (bytes : Bytes) :
    (d.setContent i bytes).Reserves ino name :=
  ⟨h.lt, h.names⟩

theorem Disk.Reserves.write {d : Disk} {ino : Nat} {name : String} (h : d.Reserves ino name)
    (f : FileHandle) (bytes : Bytes) : (d.write f bytes).1.Reserves ino name where
  lt := by
    rw [Disk.write_next]
    exact h.lt
  names := by
    rw [Disk.write_entries]
    exact h.names

/-- Creating a file under another name uses another inode. -/
theorem Disk.Reserves.create {d : Disk} {ino : Nat} {name other : String}
    (h : d.Reserves ino name) (hne : other ≠ name) : (d.create other).1.Reserves ino name where
  lt := Nat.lt_of_lt_of_le h.lt (d.next_le_create other)
  names := by
    intro other' hother' hentry
    by_cases hsame : other' = other
    · subst other'
      have hino : ino = (d.create other).2.ino :=
        Option.some.inj (hentry.symm.trans (d.create_handle other).1)
      rcases d.create_ino other with hold | hfresh
      · exact h.names other hne (hino ▸ hold)
      · have hlt := h.lt
        omega
    · rw [(Disk.keeps_create hsame).entries] at hentry
      exact h.names other' hother' hentry

theorem Disk.Reserves.remove {d : Disk} {ino : Nat} {name : String} (h : d.Reserves ino name)
    (other : String) : (d.remove other).Reserves ino name where
  lt := h.lt
  names := by
    intro other' hother' hentry
    by_cases hsame : other' = other
    · subst other'
      simp [Disk.remove] at hentry
    · rw [(Disk.keeps_remove hsame).entries] at hentry
      exact h.names other' hother' hentry

/-- Renaming a file of another name moves another inode. -/
theorem Disk.Reserves.rename {d d' : Disk} {ino : Nat} {name old new : String}
    (h : d.Reserves ino name) (hne : old ≠ name) (hrename : d.rename old new = .ok d') :
    d'.Reserves ino name ∧ d'.entries new ≠ some ino := by
  rcases Disk.rename_entries hrename with ⟨hnext, _, hnew, hothers⟩
  have hmoved : d'.entries new ≠ some ino := by
    rw [hnew]
    exact h.names old hne
  refine ⟨⟨hnext ▸ h.lt, fun other hother => ?_⟩, hmoved⟩
  by_cases hsame : other = new
  · exact hsame ▸ hmoved
  · rw [hothers other hsame]
    split_ifs
    · exact (Option.some_ne_none ino).symm
    · exact h.names other hother

end FileIo
