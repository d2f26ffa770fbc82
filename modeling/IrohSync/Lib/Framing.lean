import Mathlib.Algebra.Order.Ring.Nat
import IrohSync.Lib.FileIo

/-!
# Length-prefixed framing

A frame is a four-byte length followed by that many bytes.  The two byte orders
are values of one structure that carries the laws of a length prefix, and every
fact about frames is stated for either order.

A byte string has exactly one reading as a sequence of frames followed by bytes
that do not contain another complete frame; {lit}`Unframes` is that reading.

Main results:

- Theorems {lit}`readPrefix_frame` and {lit}`readBody_frame`: a reader in front
  of a frame gets its length and then its bytes.
- Theorems {lit}`exists_unframes` and {lit}`Unframes.unique`: every byte string
  has exactly one reading.
- Theorem {lit}`Unframes.of_length_lt`: a string shorter than its first length
  prefix asks for holds no frame.
- Theorems {lit}`readFrame_frame`, {lit}`readFrame_oversized` and
  {lit}`readFrame_cut`: what a reader with a size limit makes of a frame.
-/

namespace Framing

open FileIo

/-! ## Length prefixes -/

/-- A four-byte encoding of lengths below {lit}`2 ^ 32`, as a cast to a 32-bit
word leaves them. -/
structure LengthPrefix where
  write : Nat → Bytes
  read : Bytes → Nat
  length_write : ∀ n, (write n).length = 4
  read_write : ∀ n, read (write n) = n % 2 ^ 32
  write_read : ∀ {b : Bytes}, b.length = 4 → write (read b) = b
  read_lt : ∀ {b : Bytes}, b.length = 4 → read b < 2 ^ 32

/-- The four bytes of a 32-bit word, least significant first. -/
def leBytes (n : Nat) : Bytes :=
  [UInt8.ofNat n, UInt8.ofNat (n / 256), UInt8.ofNat (n / 65536), UInt8.ofNat (n / 16777216)]

/-- The word whose bytes, least significant first, are given. -/
def leValue : Bytes → Nat
  | [a, b, c, d] => a.toNat + 256 * b.toNat + 65536 * c.toNat + 16777216 * d.toNat
  | _ => 0

theorem leValue_leBytes (n : Nat) : leValue (leBytes n) = n % 2 ^ 32 := by
  simp only [leValue, leBytes, UInt8.toNat_ofNat']
  omega

theorem leBytes_leValue {b : Bytes} (h : b.length = 4) : leBytes (leValue b) = b := by
  match b, h with
  | [x, y, z, w], _ =>
      have hx := x.toNat_lt
      have hy := y.toNat_lt
      have hz := z.toNat_lt
      have hw := w.toNat_lt
      simp only [leValue, leBytes, List.cons.injEq, and_true, ← UInt8.toNat_inj,
        UInt8.toNat_ofNat']
      omega

theorem leValue_lt {b : Bytes} (h : b.length = 4) : leValue b < 2 ^ 32 := by
  match b, h with
  | [x, y, z, w], _ =>
      have hx := x.toNat_lt
      have hy := y.toNat_lt
      have hz := z.toNat_lt
      have hw := w.toNat_lt
      simp only [leValue]
      omega

/-- One to three bytes in front of a small length are read together with it as a
length that exceeds what follows. -/
theorem lt_leValue_torn (torn back : Bytes) {n : Nat} (hpos : 0 < torn.length)
    (hlt : torn.length < 4) (hn : 0 < n) (hsmall : n < 256) :
    torn.length + n < leValue ((torn ++ (leBytes n ++ back)).take 4) := by
  match torn, hpos, hlt with
  | [a], _, _ =>
      simp only [leBytes, leValue, List.cons_append, List.nil_append, List.take_succ_cons,
        List.take_zero, UInt8.toNat_ofNat', List.length_cons, List.length_nil]
      omega
  | [a, b], _, _ =>
      simp only [leBytes, leValue, List.cons_append, List.nil_append, List.take_succ_cons,
        List.take_zero, UInt8.toNat_ofNat', List.length_cons, List.length_nil]
      omega
  | [a, b, c], _, _ =>
      simp only [leBytes, leValue, List.cons_append, List.nil_append, List.take_succ_cons,
        List.take_zero, UInt8.toNat_ofNat', List.length_cons, List.length_nil]
      omega

/-- Little-endian length prefixes. -/
def LengthPrefix.little : LengthPrefix where
  write := leBytes
  read := leValue
  length_write := fun _ => rfl
  read_write := leValue_leBytes
  write_read := leBytes_leValue
  read_lt := leValue_lt

/-- Big-endian length prefixes. -/
def LengthPrefix.big : LengthPrefix where
  write := fun n => (leBytes n).reverse
  read := fun b => leValue b.reverse
  length_write := fun _ => rfl
  read_write := by
    intro n
    rw [List.reverse_reverse, leValue_leBytes]
  write_read := by
    intro b h
    rw [leBytes_leValue (by simpa using h), List.reverse_reverse]
  read_lt := by
    intro b h
    exact leValue_lt (by simpa using h)

/-! ## Frames -/

variable (p : LengthPrefix)

/-- One length-prefixed record. -/
def frame (body : Bytes) : Bytes :=
  p.write body.length ++ body

/-- Records one after the other. -/
def frames : List Bytes → Bytes
  | [] => []
  | body :: rest => frame p body ++ frames rest

@[simp]
theorem frames_nil : frames p [] = [] :=
  rfl

@[simp]
theorem frames_cons (body : Bytes) (rest : List Bytes) :
    frames p (body :: rest) = frame p body ++ frames p rest :=
  rfl

theorem frames_append (front back : List Bytes) :
    frames p (front ++ back) = frames p front ++ frames p back := by
  induction front with
  | nil => rfl
  | cons body front ih => simp [ih]

@[simp]
theorem frame_length (body : Bytes) : (frame p body).length = 4 + body.length := by
  simp [frame, p.length_write]

/-- Distinct numbers of leading records end at distinct positions. -/
theorem frames_take_length_lt {bodies : List Bytes} {m n : Nat} (hmn : m < n)
    (hn : n ≤ bodies.length) :
    (frames p (bodies.take m)).length < (frames p (bodies.take n)).length := by
  induction bodies generalizing m n with
  | nil => simp at hn; omega
  | cons body rest ih =>
      cases n with
      | zero => omega
      | succ n =>
          cases m with
          | zero =>
              simp only [List.take_zero, List.take_succ_cons, frames_nil, frames_cons,
                List.length_nil, List.length_append, frame_length]
              omega
          | succ m =>
              simp only [List.length_cons] at hn
              have hrest := ih (m := m) (n := n) (by omega) (by omega)
              simp only [List.take_succ_cons, frames_cons, List.length_append]
              omega

/-- A cut through frames falls between two of them or inside one. -/
theorem take_frames (bodies : List Bytes) (n : Nat) :
    ∃ j ≤ bodies.length, ∃ torn, (frames p bodies).take n = frames p (bodies.take j) ++ torn ∧
      (torn = [] ∨ ∃ body m, bodies[j]? = some body ∧ 0 < m ∧ m < 4 + body.length ∧
        torn = (frame p body).take m) := by
  induction bodies generalizing n with
  | nil => exact ⟨0, Nat.le_refl 0, [], by simp, Or.inl rfl⟩
  | cons body rest ih =>
      by_cases hzero : n = 0
      · subst hzero
        exact ⟨0, Nat.zero_le _, [], by simp, Or.inl rfl⟩
      · by_cases hinside : n < 4 + body.length
        · refine ⟨0, Nat.zero_le _, (frame p body).take n, ?_, Or.inr
            ⟨body, n, rfl, Nat.pos_of_ne_zero hzero, hinside, rfl⟩⟩
          rw [frames_cons, List.take_append_of_le_length (by rw [frame_length]; omega)]
          simp
        · rcases ih (n - (4 + body.length)) with ⟨j, hj, torn, htake, htorn⟩
          refine ⟨j + 1, Nat.succ_le_succ hj, torn, ?_, by simpa using htorn⟩
          rw [frames_cons, List.take_append, List.take_of_length_le (by rw [frame_length]; omega),
            frame_length, htake, List.take_succ_cons, frames_cons, List.append_assoc]

/-- The frames up to and including a record. -/
theorem frames_take_succ {bodies : List Bytes} {j : Nat} {body : Bytes}
    (hbody : bodies[j]? = some body) :
    frames p (bodies.take (j + 1)) = frames p (bodies.take j) ++ frame p body := by
  rw [List.take_add_one, hbody, Option.toList_some, frames_append, frames_cons, frames_nil,
    List.append_nil]

/-- A cut through frames and what follows them falls behind all frames or in front
of the end of one of them. -/
theorem cut_frames (bodies : List Bytes) (tail : Bytes) (n : Nat) :
    ∃ j ≤ bodies.length, (frames p (bodies.take j)).length ≤ n ∧
      ((j = bodies.length ∧ (frames p bodies ++ tail).take n =
          frames p bodies ++ tail.take (n - (frames p bodies).length)) ∨
        ∃ body m, bodies[j]? = some body ∧ m < 4 + body.length ∧
          n = (frames p (bodies.take j)).length + m ∧
          (frames p bodies ++ tail).take n =
            frames p (bodies.take j) ++ (frame p body).take m) := by
  induction bodies generalizing n with
  | nil => exact ⟨0, Nat.le_refl 0, Nat.zero_le n, Or.inl ⟨rfl, by simp⟩⟩
  | cons body rest ih =>
      by_cases hinside : n < 4 + body.length
      · refine ⟨0, Nat.zero_le _, Nat.zero_le n, Or.inr ⟨body, n, rfl, hinside, by simp, ?_⟩⟩
        rw [frames_cons, List.append_assoc,
          List.take_append_of_le_length (by rw [frame_length]; omega), List.take_zero, frames_nil,
          List.nil_append]
      · have htake : (frame p body ++ frames p rest ++ tail).take n =
            frame p body ++ (frames p rest ++ tail).take (n - (4 + body.length)) := by
          rw [List.append_assoc, List.take_append, frame_length,
            List.take_of_length_le (by rw [frame_length]; omega)]
        rcases ih (n - (4 + body.length)) with ⟨j, hj, hlen, hcut⟩
        refine ⟨j + 1, Nat.succ_le_succ hj, ?_, ?_⟩
        · rw [List.take_succ_cons, frames_cons, List.length_append, frame_length]
          omega
        · simp only [List.take_succ_cons, frames_cons, htake]
          rcases hcut with ⟨hall, hcut⟩ | ⟨b, m, hget, hm, hn, hcut⟩
          · left
            refine ⟨by rw [List.length_cons, hall], ?_⟩
            rw [hcut, List.append_assoc, List.length_append, frame_length, Nat.sub_sub]
          · right
            refine ⟨b, m, hget, hm, ?_, by rw [hcut, List.append_assoc]⟩
            rw [List.length_append, frame_length]
            omega

/-! ## Reading one frame -/

variable {p}

/-- A reader in front of a frame reads the four bytes of its length. -/
theorem readPrefix_frame {r : Reader} {body back : Bytes}
    (hrest : r.rest = frame p body ++ back) :
    r.readExact 4 = .ok (p.write body.length, { r with pos := r.pos + 4 }) ∧
      Reader.rest { r with pos := r.pos + 4 } = body ++ back := by
  have hfront : r.rest = p.write body.length ++ (body ++ back) := by
    rw [hrest, frame, List.append_assoc]
  have hread := Reader.readExact_append hfront
  have hafter := Reader.rest_advance_append hfront
  rw [p.length_write] at hread hafter
  exact ⟨hread, hafter⟩

/-- After the length a reader reads the body of the frame. -/
theorem readBody_frame {r : Reader} {body back : Bytes}
    (hrest : r.rest = body ++ back) :
    r.readExact body.length = .ok (body, { r with pos := r.pos + body.length }) ∧
      Reader.rest { r with pos := r.pos + body.length } = back :=
  ⟨Reader.readExact_append hrest, Reader.rest_advance_append hrest⟩

/-- A written length below {lit}`2 ^ 32` is read back. -/
theorem read_write_of_lt {n : Nat} (h : n < 2 ^ 32) : p.read (p.write n) = n := by
  rw [p.read_write, Nat.mod_eq_of_lt h]

/-! ## The frames of an arbitrary byte string -/

variable (p)

/-- The bytes begin with no complete frame. -/
def Incomplete (bytes : Bytes) : Prop :=
  bytes.length < 4 ∨ bytes.length < 4 + p.read (bytes.take 4)

/-- The reading of a byte string as complete frames and what is left over. -/
structure Unframes (bytes : Bytes) (bodies : List Bytes) (left : Bytes) : Prop where
  eq : bytes = frames p bodies ++ left
  length_lt : ∀ body ∈ bodies, body.length < 2 ^ 32
  incomplete : Incomplete p left

/-- Bytes that do not hold the record their own first length prefix announces
have no frames. -/
theorem Unframes.of_length_lt {bytes : Bytes} (h : Incomplete p bytes) :
    Unframes p bytes [] bytes where
  eq := rfl
  length_lt := by simp
  incomplete := h

/-- A byte string that holds a complete frame begins with it. -/
theorem eq_frame_append {bytes : Bytes} (h4 : 4 ≤ bytes.length)
    (hbody : 4 + p.read (bytes.take 4) ≤ bytes.length) :
    ∃ body back, bytes = frame p body ++ back ∧
      body.length = p.read (bytes.take 4) := by
  have hlength : (bytes.take 4).length = 4 := by simp [h4]
  refine ⟨(bytes.drop 4).take (p.read (bytes.take 4)),
    (bytes.drop 4).drop (p.read (bytes.take 4)), ?_, ?_⟩
  · have hlen : ((bytes.drop 4).take (p.read (bytes.take 4))).length =
        p.read (bytes.take 4) := by
      simp
      omega
    rw [frame, hlen, p.write_read hlength, List.append_assoc, List.take_append_drop,
      List.take_append_drop]
  · simp
    omega

/-- Every byte string has a reading. -/
theorem exists_unframes (bytes : Bytes) : ∃ bodies left, Unframes p bytes bodies left := by
  induction hlen : bytes.length using Nat.strongRecOn generalizing bytes with
  | _ n ih =>
      by_cases hincomplete : Incomplete p bytes
      · exact ⟨[], bytes, Unframes.of_length_lt p hincomplete⟩
      · simp only [Incomplete, not_or, Nat.not_lt] at hincomplete
        rcases hincomplete with ⟨h4, hcomplete⟩
        rcases eq_frame_append p h4 hcomplete with ⟨body, back, hbytes, hbody⟩
        have hback : back.length < n := by
          rw [← hlen, hbytes, List.length_append, frame_length]
          omega
        rcases ih back.length hback back rfl with ⟨bodies, left, hrest⟩
        refine ⟨body :: bodies, left, ?_, ?_, hrest.incomplete⟩
        · rw [hbytes, hrest.eq, frames_cons, List.append_assoc]
        · intro b hb
          rcases List.mem_cons.mp hb with rfl | hb
          · rw [hbody]
            exact p.read_lt (by simp [h4])
          · exact hrest.length_lt b hb

variable {p}

/-- The length that a frame begins with. -/
theorem read_take_frame {body : Bytes} (back : Bytes) (hlt : body.length < 2 ^ 32) :
    p.read ((frame p body ++ back).take 4) = body.length := by
  have hlen := Nat.le_of_eq (p.length_write body.length)
  have hlen' := Nat.le_of_eq (p.length_write body.length).symm
  rw [frame, List.append_assoc, List.take_append_of_le_length hlen',
    List.take_of_length_le hlen, read_write_of_lt hlt]

/-- Bytes that begin with a frame are not incomplete. -/
theorem not_incomplete_frame {body back : Bytes} (hlt : body.length < 2 ^ 32) :
    ¬ Incomplete p (frame p body ++ back) := by
  rw [Incomplete, read_take_frame back hlt, List.length_append, frame_length]
  omega

/-- Equal bytes that begin with frames begin with the same frame. -/
theorem frame_append_inj {body body' back back' : Bytes} (hlt : body.length < 2 ^ 32)
    (hlt' : body'.length < 2 ^ 32) (heq : frame p body ++ back = frame p body' ++ back') :
    body = body' ∧ back = back' := by
  have hlen : body.length = body'.length := by
    rw [← read_take_frame (p := p) back hlt, heq, read_take_frame back' hlt']
  rcases List.append_inj heq (by simp [hlen]) with ⟨hframe, hback⟩
  rw [frame, frame, hlen] at hframe
  exact ⟨List.append_cancel_left hframe, hback⟩

/-- A byte string has only one reading. -/
theorem Unframes.unique {bytes left left' : Bytes} {bodies bodies' : List Bytes}
    (h : Unframes p bytes bodies left) (h' : Unframes p bytes bodies' left') :
    bodies = bodies' ∧ left = left' := by
  induction bodies generalizing bytes bodies' with
  | nil =>
      cases bodies' with
      | nil => exact ⟨rfl, h.eq.symm.trans h'.eq⟩
      | cons body' rest' =>
          have hleft : left = frame p body' ++ (frames p rest' ++ left') := by
            rw [← List.append_assoc]
            exact h.eq.symm.trans h'.eq
          exact absurd (hleft ▸ h.incomplete)
            (not_incomplete_frame (h'.length_lt body' List.mem_cons_self))
  | cons body rest ih =>
      have hbody := h.length_lt body List.mem_cons_self
      have hbytes : bytes = frame p body ++ (frames p rest ++ left) := by
        rw [h.eq, frames_cons, List.append_assoc]
      cases bodies' with
      | nil =>
          have hleft : left' = frame p body ++ (frames p rest ++ left) := h'.eq.symm.trans hbytes
          exact absurd (hleft ▸ h'.incomplete) (not_incomplete_frame hbody)
      | cons body' rest' =>
          have hbytes' : bytes = frame p body' ++ (frames p rest' ++ left') := by
            rw [h'.eq, frames_cons, List.append_assoc]
          rcases frame_append_inj hbody (h'.length_lt body' List.mem_cons_self)
            (hbytes.symm.trans hbytes') with ⟨hsame, hback⟩
          have hrest : Unframes p (frames p rest ++ left) rest left :=
            ⟨rfl, fun b hb => h.length_lt b (List.mem_cons_of_mem _ hb), h.incomplete⟩
          have hrest' : Unframes p (frames p rest ++ left) rest' left' :=
            ⟨hback, fun b hb => h'.length_lt b (List.mem_cons_of_mem _ hb), h'.incomplete⟩
          rcases ih hrest hrest' with ⟨hbodies, hleft⟩
          exact ⟨by rw [hsame, hbodies], hleft⟩

/-! ## Reading frames up to a size -/

/-- What a reader finds: less than a length, a length of zero, a length above the
limit, a body that is cut short, or a whole body. -/
inductive FrameRead where
  | short
  | marker (rest : Bytes)
  | oversized (rest : Bytes)
  | cut (rest : Bytes)
  | body (bytes rest : Bytes)
deriving DecidableEq, Repr

variable (p)

/-- Read a length and, unless it is zero or above the limit, so many bytes. -/
def readFrame (limit : Nat) (bytes : Bytes) : FrameRead :=
  if bytes.length < 4 then .short
  else
    let len := p.read (bytes.take 4)
    let rest := bytes.drop 4
    if len = 0 then .marker rest
    else if limit < len then .oversized rest
    else if rest.length < len then .cut rest
    else .body (rest.take len) (rest.drop len)

variable {p}

/-- A reader behind a body has less to read. -/
theorem readFrame_body_lt {limit : Nat} {bytes body rest : Bytes}
    (hread : readFrame p limit bytes = .body body rest) : rest.length < bytes.length := by
  unfold readFrame at hread
  simp only at hread
  split_ifs at hread
  injection hread with _ hrest
  rw [← hrest]
  simp only [List.length_drop]
  omega

/-- A body that is read was framed in front of what is left. -/
theorem eq_of_readFrame_body {limit : Nat} {bytes body rest : Bytes}
    (hread : readFrame p limit bytes = .body body rest) :
    bytes = frame p body ++ rest ∧ 0 < body.length ∧ body.length ≤ limit := by
  unfold readFrame at hread
  simp only at hread
  split_ifs at hread with hshort hzero hlarge hcut
  injection hread with hbody hrest
  rw [List.length_drop] at hcut
  have hbytes : bytes = p.write (p.read (bytes.take 4)) ++ bytes.drop 4 := by
    rw [p.write_read (by rw [List.length_take]; omega), List.take_append_drop]
  have hlength : body.length = p.read (bytes.take 4) := by
    rw [← hbody, List.length_take, List.length_drop]
    omega
  refine ⟨?_, by omega, by omega⟩
  rw [frame, hlength, List.append_assoc, ← hbody, ← hrest, List.take_append_drop, ← hbytes]

theorem readFrame_short {limit : Nat} {bytes : Bytes} (hlt : bytes.length < 4) :
    readFrame p limit bytes = .short := by
  rw [readFrame, if_pos hlt]

/-- In front of a written length the reader decides by it. -/
theorem readFrame_write {limit n : Nat} (hn : n < 2 ^ 32) (rest : Bytes) :
    readFrame p limit (p.write n ++ rest) =
      if n = 0 then .marker rest
      else if limit < n then .oversized rest
      else if rest.length < n then .cut rest
      else .body (rest.take n) (rest.drop n) := by
  have hlen := p.length_write n
  have hfour : ¬ (p.write n ++ rest).length < 4 := by
    rw [List.length_append]
    omega
  have htake : (p.write n ++ rest).take 4 = p.write n := by rw [← hlen, List.take_left]
  have hdrop : (p.write n ++ rest).drop 4 = rest := by rw [← hlen, List.drop_left]
  rw [readFrame, if_neg hfour]
  simp only [htake, hdrop, read_write_of_lt hn]

/-- A whole frame is read. -/
theorem readFrame_frame {limit : Nat} {body : Bytes} (hpos : 0 < body.length)
    (hle : body.length ≤ limit) (hlt : body.length < 2 ^ 32) (rest : Bytes) :
    readFrame p limit (frame p body ++ rest) = .body body rest := by
  have hlong : ¬ (body ++ rest).length < body.length := by
    rw [List.length_append]
    omega
  rw [frame, List.append_assoc, readFrame_write hlt, if_neg (Nat.pos_iff_ne_zero.mp hpos),
    if_neg (Nat.not_lt.mpr hle), if_neg hlong, List.take_left, List.drop_left]

/-- A length above the limit is refused. -/
theorem readFrame_oversized {limit n : Nat} (hlimit : limit < n) (hn : n < 2 ^ 32) (rest : Bytes) :
    readFrame p limit (p.write n ++ rest) = .oversized rest := by
  rw [readFrame_write hn, if_neg (by omega), if_pos hlimit]

/-- A length of zero ends the frames. -/
theorem readFrame_marker (limit : Nat) (rest : Bytes) :
    readFrame p limit (p.write 0 ++ rest) = .marker rest := by
  rw [readFrame_write (by decide), if_pos rfl]

/-- A frame that is cut inside its body is not read. -/
theorem readFrame_cut {limit : Nat} {body torn : Bytes} (hle : body.length ≤ limit)
    (hlt : body.length < 2 ^ 32) (htorn : torn.length < body.length) :
    readFrame p limit (p.write body.length ++ torn) = .cut torn := by
  rw [readFrame_write hlt, if_neg (by omega), if_neg (Nat.not_lt.mpr hle), if_pos htorn]

end Framing
