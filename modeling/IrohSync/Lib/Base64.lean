import Mathlib.Algebra.Order.Ring.Nat
import Mathlib.Data.List.Nodup
import IrohSync.Lib.Chunks
import IrohSync.Lib.FileIo

/-!
# Base64 without padding

Three bytes are written as four symbols of an alphabet, each of which carries
six bits; two bytes or one byte at the end are written as three symbols or two.
The decoder shifts the bits of each symbol into a 32-bit buffer and takes a byte
out of it whenever it holds eight bits.

Main results:

- Theorem {lit}`run_encodeChunk`: the decoder gets back the bytes of each chunk
  and is ready for the next one.
- Theorem {lit}`decode_encode`: decoding inverts encoding.
- Theorem {lit}`encode_length`: the length of an encoding.
-/

namespace Base64

open FileIo Chunks

/-- An alphabet of 64 distinct symbols. -/
structure Alphabet where
  symbols : Bytes
  length_symbols : symbols.length = 64
  nodup : symbols.Nodup

variable (alphabet : Alphabet)

/-- The symbol of a six-bit value. -/
def Alphabet.symbol (value : Nat) : UInt8 :=
  alphabet.symbols.getD value 0

/-- The value of a symbol, and {lit}`-1` for other bytes. -/
def Alphabet.value (byte : UInt8) : Int :=
  match alphabet.symbols.idxOf? byte with
  | some value => value
  | none => -1

/-- Every six-bit value has a symbol. -/
theorem Alphabet.symbol_eq {value : Nat} (hlt : value < alphabet.symbols.length) :
    alphabet.symbol value = alphabet.symbols[value] := by
  rw [symbol, List.getD_eq_getElem?_getD, List.getElem?_eq_getElem hlt, Option.getD_some]

theorem Alphabet.symbol_mem {value : Nat} (hlt : value < 64) :
    alphabet.symbol value ∈ alphabet.symbols := by
  have hin : value < alphabet.symbols.length := by rwa [alphabet.length_symbols]
  rw [alphabet.symbol_eq hin]
  exact List.getElem_mem hin

/-- The value of a symbol is looked up. -/
theorem Alphabet.value_symbol {value : Nat} (hlt : value < 64) :
    alphabet.value (alphabet.symbol value) = value := by
  have hin : value < alphabet.symbols.length := by rwa [alphabet.length_symbols]
  have hindex : alphabet.symbols.idxOf? alphabet.symbols[value] = some value := by
    rw [List.idxOf?_eq_some_iff]
    refine ⟨hin, rfl, fun j hj heq => ?_⟩
    have hsame := alphabet.nodup.getElem_inj_iff.mp heq
    omega
  rw [Alphabet.value, alphabet.symbol_eq hin, hindex]

/-- A byte has a value exactly if it is a symbol. -/
theorem Alphabet.value_neg_iff {byte : UInt8} :
    alphabet.value byte < 0 ↔ byte ∉ alphabet.symbols := by
  rw [value, ← List.idxOf?_eq_none_iff]
  cases alphabet.symbols.idxOf? byte with
  | none => simp
  | some value => simp

/-- Every symbol is that of a six-bit value. -/
theorem Alphabet.exists_symbol {byte : UInt8} (hmem : byte ∈ alphabet.symbols) :
    ∃ value < 64, alphabet.symbol value = byte := by
  rcases List.getElem_of_mem hmem with ⟨value, hlt, hbyte⟩
  exact ⟨value, alphabet.length_symbols ▸ hlt, (alphabet.symbol_eq hlt).trans hbyte⟩

/-- Distinct values have distinct symbols. -/
theorem Alphabet.symbol_inj {value value' : Nat} (hlt : value < 64) (hlt' : value' < 64) :
    alphabet.symbol value = alphabet.symbol value' ↔ value = value' := by
  refine ⟨fun heq => ?_, congrArg alphabet.symbol⟩
  have hvalue := congrArg alphabet.value heq
  rw [alphabet.value_symbol hlt, alphabet.value_symbol hlt'] at hvalue
  exact Int.ofNat_inj.mp hvalue

/-! ## Encoding -/

/-- The bits of up to three bytes, most significant first. -/
def bitsOf (chunk : Bytes) : Nat :=
  chunk.zipIdx.foldl (fun n p => n ||| p.1.toNat <<< (16 - p.2 * 8)) 0

/-- The number of symbols for a chunk. -/
def charsOf (chunk : Bytes) : Nat :=
  match chunk.length with
  | 3 => 4
  | 2 => 3
  | 1 => 2
  | _ => 0

/-- The symbols of one chunk. -/
def encodeChunk (chunk : Bytes) : Bytes :=
  (List.range (charsOf chunk)).map fun i =>
    alphabet.symbol ((bitsOf chunk >>> (18 - i * 6)) &&& 0x3F)

/-- Encode bytes, three at a time. -/
def encode (bytes : Bytes) : Bytes :=
  ((chunks 3 bytes).map (encodeChunk alphabet)).flatten

/-- An encoding consists of symbols of the alphabet. -/
theorem mem_symbols_of_mem_encode {bytes : Bytes} {b : UInt8}
    (hb : b ∈ encode alphabet bytes) : b ∈ alphabet.symbols := by
  rcases List.mem_flatten.mp hb with ⟨_, hchunk, hb⟩
  rcases List.mem_map.mp hchunk with ⟨chunk, _, rfl⟩
  rcases List.mem_map.mp hb with ⟨i, _, rfl⟩
  exact alphabet.symbol_mem (Nat.lt_succ_of_le Nat.and_le_right)

/-! ## Decoding -/

/-- What the decoder has read: the bytes so far, the buffer and the number of
bits in it that are not used up. -/
structure Decoder where
  result : Bytes
  buffer : Nat
  bits : Nat

/-- The decoder before the first symbol. -/
def Decoder.start : Decoder where
  result := []
  buffer := 0
  bits := 0

/-- Shift six bits into the buffer. -/
def Decoder.push (d : Decoder) (value : Nat) : Decoder :=
  let buffer := (d.buffer <<< 6) % 2 ^ 32 ||| value
  let bits := d.bits + 6
  if 8 ≤ bits then
    { result := d.result ++ [UInt8.ofNat (buffer >>> (bits - 8))], buffer := buffer,
      bits := bits - 8 }
  else { d with buffer := buffer, bits := bits }

/-- Read one byte of the input. -/
def step (d : Decoder) (byte : UInt8) : Except String Decoder :=
  let value := alphabet.value byte
  if value < 0 then .error "invalid base64 character"
  else .ok (d.push value.toNat)

/-- Read a whole input. -/
def run (d : Decoder) (input : Bytes) : Except String Decoder :=
  input.foldlM (step alphabet) d

/-- Decode an input. -/
def decode (input : Bytes) : Except String Bytes :=
  (run alphabet .start input).map Decoder.result

/-! ## The round trip -/

/-- The next state of the buffer. -/
theorem shiftIn_eq (buffer : Nat) {value : Nat} (hlt : value < 64) :
    (buffer <<< 6) % 2 ^ 32 ||| value = (buffer * 64) % 2 ^ 32 + value := by
  have hshift : (buffer <<< 6) % 2 ^ 32 = (buffer % 2 ^ 26) <<< 6 := by
    simp only [Nat.shiftLeft_eq]
    omega
  rw [hshift, ← Nat.shiftLeft_add_eq_or_of_lt hlt, Nat.shiftLeft_eq]
  omega

/-- A symbol shifts its six bits in. -/
theorem step_symbol (d : Decoder) {value : Nat} (hlt : value < 64) :
    step alphabet d (alphabet.symbol value) = .ok (d.push value) := by
  have hnonneg : ¬ (value : Int) < 0 := Int.not_lt.mpr (Int.natCast_nonneg value)
  simp only [step, alphabet.value_symbol hlt, if_neg hnonneg, Int.toNat_natCast]

theorem run_append (d : Decoder) (front back : Bytes) :
    run alphabet d (front ++ back) = run alphabet d front >>= fun d' => run alphabet d' back :=
  List.foldlM_append

/-- Symbols shift in their bits one after the other. -/
theorem run_symbols (d : Decoder) {values : List Nat} (hlt : ∀ value ∈ values, value < 64) :
    run alphabet d (values.map alphabet.symbol) = .ok (values.foldl Decoder.push d) := by
  induction values generalizing d with
  | nil => rfl
  | cons value values ih =>
      have hfirst := step_symbol alphabet d (hlt value List.mem_cons_self)
      have hrest := ih (d.push value) fun v hv => hlt v (List.mem_cons_of_mem _ hv)
      simp only [run] at hrest
      simp [run, List.foldlM_cons, hfirst, hrest, bind, Except.bind]

/-- The six-bit values of a chunk. -/
def valuesOf (chunk : Bytes) : List Nat :=
  (List.range (charsOf chunk)).map fun i => (bitsOf chunk >>> (18 - i * 6)) &&& 0x3F

theorem encodeChunk_eq (chunk : Bytes) :
    encodeChunk alphabet chunk = (valuesOf chunk).map alphabet.symbol := by
  simp [encodeChunk, valuesOf]

theorem valuesOf_lt (chunk : Bytes) : ∀ value ∈ valuesOf chunk, value < 64 := by
  intro value hvalue
  rcases List.mem_map.mp hvalue with ⟨i, _, rfl⟩
  exact Nat.lt_succ_of_le Nat.and_le_right

/-- The bits of a chunk as a number. -/
theorem bitsOf_three (a b c : UInt8) :
    bitsOf [a, b, c] = a.toNat * 65536 + b.toNat * 256 + c.toNat := by
  have ha := a.toNat_lt
  have hb := b.toNat_lt
  have hc := c.toNat_lt
  have hab : a.toNat <<< 16 ||| b.toNat <<< 8 = (a.toNat * 256 + b.toNat) <<< 8 := by
    rw [← Nat.shiftLeft_add_eq_or_of_lt (by rw [Nat.shiftLeft_eq]; omega)]
    simp only [Nat.shiftLeft_eq]
    omega
  simp only [bitsOf, List.zipIdx_cons, List.zipIdx_nil, List.foldl_cons, List.foldl_nil,
    Nat.zero_or, Nat.zero_mul, Nat.sub_zero, Nat.zero_add, Nat.one_mul, Nat.reduceAdd,
    Nat.reduceMul, Nat.reduceSub, Nat.shiftLeft_zero, hab]
  rw [← Nat.shiftLeft_add_eq_or_of_lt hc, Nat.shiftLeft_eq]
  omega

theorem bitsOf_two (a b : UInt8) : bitsOf [a, b] = a.toNat * 65536 + b.toNat * 256 := by
  have hzero := bitsOf_three a b 0
  simpa [bitsOf] using hzero

theorem bitsOf_one (a : UInt8) : bitsOf [a] = a.toNat * 65536 := by
  have hzero := bitsOf_two a 0
  simpa [bitsOf] using hzero

/-- Six bits of a number. -/
theorem shiftRight_and (n k : Nat) : (n >>> k) &&& 0x3F = n / 2 ^ k % 64 := by
  rw [Nat.shiftRight_eq_div_pow]
  exact Nat.and_two_pow_sub_one_eq_mod _ 6

/-- The values of three bytes. -/
theorem valuesOf_three (a b c : UInt8) :
    valuesOf [a, b, c] = [a.toNat / 4, a.toNat % 4 * 16 + b.toNat / 16,
      b.toNat % 16 * 4 + c.toNat / 64, c.toNat % 64] := by
  have ha := a.toNat_lt
  have hb := b.toNat_lt
  have hc := c.toNat_lt
  simp only [valuesOf, charsOf, List.length_cons, List.length_nil, Nat.zero_add, Nat.reduceAdd,
    List.range_succ, List.range_zero, List.nil_append, List.map_cons, List.map_nil,
    shiftRight_and, bitsOf_three, List.cons_append, List.cons.injEq, and_true]
  omega

/-- The values of two bytes. -/
theorem valuesOf_two (a b : UInt8) :
    valuesOf [a, b] = [a.toNat / 4, a.toNat % 4 * 16 + b.toNat / 16, b.toNat % 16 * 4] := by
  have ha := a.toNat_lt
  have hb := b.toNat_lt
  simp only [valuesOf, charsOf, List.length_cons, List.length_nil, Nat.zero_add, Nat.reduceAdd,
    List.range_succ, List.range_zero, List.nil_append, List.map_cons, List.map_nil,
    shiftRight_and, bitsOf_two, List.cons_append, List.cons.injEq, and_true]
  omega

/-- The values of one byte. -/
theorem valuesOf_one (a : UInt8) : valuesOf [a] = [a.toNat / 4, a.toNat % 4 * 16] := by
  have ha := a.toNat_lt
  simp only [valuesOf, charsOf, List.length_cons, List.length_nil, Nat.zero_add,
    List.range_succ, List.range_zero, List.nil_append, List.map_cons, List.map_nil,
    shiftRight_and, bitsOf_one, List.cons_append, List.cons.injEq, and_true]
  omega

/-- What a decoder has to offer: the bytes so far and the bits of its buffer that
are not used up.  The bits above them are left over from earlier symbols. -/
structure Decoder.Holds (d : Decoder) (result : Bytes) (bits pending : Nat) : Prop where
  result_eq : d.result = result
  bits_eq : d.bits = bits
  pending_eq : d.buffer % 2 ^ bits = pending

theorem Decoder.Holds.start : Decoder.start.Holds [] 0 0 where
  result_eq := rfl
  bits_eq := rfl
  pending_eq := rfl

/-- Six new bits go behind those that are not used up. -/
theorem shiftIn_mod (buffer : Nat) {bits value : Nat} (hbits : bits ≤ 26) (hlt : value < 64) :
    (buffer * 64 % 2 ^ 32 + value) % 2 ^ (bits + 6) = buffer % 2 ^ bits * 64 + value := by
  have hdvd : 2 ^ (bits + 6) ∣ 2 ^ 32 := Nat.pow_dvd_pow 2 (by omega)
  have hlow : (buffer * 64 + value) % 64 = value := by omega
  have hhigh : (buffer * 64 + value) / 64 = buffer := by omega
  calc (buffer * 64 % 2 ^ 32 + value) % 2 ^ (bits + 6)
      = (buffer * 64 + value) % (64 * 2 ^ bits) := by
        rw [Nat.add_mod, Nat.mod_mod_of_dvd _ hdvd, ← Nat.add_mod, Nat.pow_add,
          Nat.mul_comm (2 ^ bits)]
    _ = buffer % 2 ^ bits * 64 + value := by
        rw [Nat.mod_mul, hlow, hhigh, Nat.mul_comm, Nat.add_comm]

variable {d : Decoder} {result : Bytes}

/-- Six bits that do not complete a byte stay in the buffer. -/
theorem Decoder.Holds.push_wait {bits pending : Nat} (h : d.Holds result bits pending) (value : Nat)
    (hlt : value < 64) (hbits : bits < 2) :
    (d.push value).Holds result (bits + 6) (pending * 64 + value) := by
  have hnot : ¬ 8 ≤ d.bits + 6 := by rw [h.bits_eq]; omega
  simp only [Decoder.push, if_neg hnot]
  constructor
  · exact h.result_eq
  · rw [h.bits_eq]
  · rw [← h.pending_eq, shiftIn_eq _ hlt]
    exact shiftIn_mod _ (by omega) hlt

/-- Six bits that complete a byte let it out. -/
theorem Decoder.Holds.push_byte {pending : Nat} (bits : Nat)
    (h : d.Holds result (bits + 2) pending) (value : Nat) (byte : UInt8) (rest : Nat)
    (hlt : value < 64) (hbits : bits ≤ 24)
    (heq : pending * 64 + value = 2 ^ bits * byte.toNat + rest) (hrest : rest < 2 ^ bits) :
    (d.push value).Holds (result ++ [byte]) bits rest := by
  have hle : 8 ≤ d.bits + 6 := by rw [h.bits_eq]; omega
  have hleft : d.bits + 6 - 8 = bits := by rw [h.bits_eq]; omega
  have hbuffer := shiftIn_mod d.buffer (show bits + 2 ≤ 26 by omega) hlt
  rw [h.pending_eq, heq] at hbuffer
  simp only [Decoder.push, if_pos hle, hleft, shiftIn_eq _ hlt]
  constructor
  · -- only the low eight bits of what is shifted out are taken
    have hbyte : (d.buffer * 64 % 2 ^ 32 + value) / 2 ^ bits % 2 ^ 8 = byte.toNat := by
      rw [← Nat.mod_mul_right_div_self, ← Nat.pow_add, hbuffer, Nat.mul_add_div
        (Nat.two_pow_pos bits), Nat.div_eq_of_lt hrest, Nat.add_zero]
    rw [h.result_eq, Nat.shiftRight_eq_div_pow, ← UInt8.ofNat_mod_size, hbyte,
      UInt8.ofNat_toNat]
  · rfl
  · have hdvd : 2 ^ bits ∣ 2 ^ (bits + 2 + 6) := Nat.pow_dvd_pow 2 (by omega)
    rw [← Nat.mod_mod_of_dvd _ hdvd, hbuffer, Nat.mul_add_mod, Nat.mod_eq_of_lt hrest]

/-- The values of a whole chunk give its three bytes back. -/
theorem Decoder.Holds.push_three (h : d.Holds result 0 0) (a b c : UInt8) :
    ((valuesOf [a, b, c]).foldl Decoder.push d).Holds (result ++ [a, b, c]) 0 0 := by
  have ha := a.toNat_lt
  have hb := b.toNat_lt
  have hc := c.toNat_lt
  rw [valuesOf_three]
  have hfirst := h.push_wait (a.toNat / 4) (by omega) (by omega)
  have ha' := hfirst.push_byte 4 (a.toNat % 4 * 16 + b.toNat / 16) a (b.toNat / 16)
    (by omega) (by omega) (by omega) (by omega)
  have hb' := ha'.push_byte 2 (b.toNat % 16 * 4 + c.toNat / 64) b (c.toNat / 64)
    (by omega) (by omega) (by omega) (by omega)
  have hc' := hb'.push_byte 0 (c.toNat % 64) c 0 (by omega) (by omega) (by omega) (by omega)
  simpa using hc'

/-- The values of two bytes at the end give them back. -/
theorem Decoder.Holds.push_two (h : d.Holds result 0 0) (a b : UInt8) :
    ((valuesOf [a, b]).foldl Decoder.push d).Holds (result ++ [a, b]) 2 0 := by
  have ha := a.toNat_lt
  have hb := b.toNat_lt
  rw [valuesOf_two]
  have hfirst := h.push_wait (a.toNat / 4) (by omega) (by omega)
  have ha' := hfirst.push_byte 4 (a.toNat % 4 * 16 + b.toNat / 16) a (b.toNat / 16)
    (by omega) (by omega) (by omega) (by omega)
  have hb' := ha'.push_byte 2 (b.toNat % 16 * 4) b 0 (by omega) (by omega) (by omega) (by omega)
  simpa using hb'

/-- The values of one byte at the end give it back. -/
theorem Decoder.Holds.push_one (h : d.Holds result 0 0) (a : UInt8) :
    ((valuesOf [a]).foldl Decoder.push d).Holds (result ++ [a]) 4 0 := by
  have ha := a.toNat_lt
  rw [valuesOf_one]
  have hfirst := h.push_wait (a.toNat / 4) (by omega) (by omega)
  exact hfirst.push_byte 4 (a.toNat % 4 * 16) a 0 (by omega) (by omega) (by omega) (by omega)

theorem encode_cons {bytes : Bytes} (hne : bytes ≠ []) :
    encode alphabet bytes =
      encodeChunk alphabet (bytes.take 3) ++ encode alphabet (bytes.drop 3) := by
  rw [encode, chunks_cons (Nat.succ_pos 2) hne, List.map_cons, List.flatten_cons, encode]

/-- A single chunk is encoded by itself. -/
theorem encode_chunk {bytes : Bytes} (hne : bytes ≠ []) (hle : bytes.length ≤ 3) :
    encode alphabet bytes = encodeChunk alphabet bytes := by
  rw [encode_cons alphabet hne, List.take_of_length_le hle, List.drop_eq_nil_of_le hle, encode,
    chunks_nil (Nat.succ_pos 2), List.map_nil, List.flatten_nil, List.append_nil]

theorem encodeChunk_length (chunk : Bytes) :
    (encodeChunk alphabet chunk).length = charsOf chunk := by
  rw [encodeChunk, List.length_map, List.length_range]

/-- An encoding has as many symbols as are needed for the bits of its bytes. -/
theorem encode_length : ∀ bytes : Bytes,
    (encode alphabet bytes).length = divCeil (4 * bytes.length) 3
  | [] => rfl
  | [a] => by
      rw [encode_chunk alphabet (List.cons_ne_nil _ _) (by simp), encodeChunk_length]
      simp [charsOf, divCeil]
  | [a, b] => by
      rw [encode_chunk alphabet (List.cons_ne_nil _ _) (by simp), encodeChunk_length]
      simp [charsOf, divCeil]
  | a :: b :: c :: rest => by
      rw [encode_cons alphabet (List.cons_ne_nil _ _), List.length_append, encodeChunk_length]
      simp only [List.take_succ_cons, List.take_zero, List.drop_succ_cons, List.drop_zero,
        encode_length rest, charsOf, List.length_cons, List.length_nil, divCeil]
      omega

/-- A decoder gets back the bytes of each chunk and is ready for the next one. -/
theorem run_encodeChunk (d : Decoder) (chunk : Bytes) :
    run alphabet d (encodeChunk alphabet chunk) =
      .ok ((valuesOf chunk).foldl Decoder.push d) := by
  rw [encodeChunk_eq, run_symbols alphabet d (valuesOf_lt chunk)]

/-- A decoder with an empty buffer gets all bytes back. -/
theorem run_encode : ∀ (bytes : Bytes) {d : Decoder} {result : Bytes}, d.Holds result 0 0 →
    ∃ d', run alphabet d (encode alphabet bytes) = .ok d' ∧ d'.result = result ++ bytes
  | [], d, result, h => ⟨d, rfl, by rw [h.result_eq, List.append_nil]⟩
  | [a], d, result, h => by
      rw [encode_chunk alphabet (List.cons_ne_nil _ _) (by simp)]
      exact ⟨_, run_encodeChunk alphabet d [a], (h.push_one a).result_eq⟩
  | [a, b], d, result, h => by
      rw [encode_chunk alphabet (List.cons_ne_nil _ _) (by simp)]
      exact ⟨_, run_encodeChunk alphabet d [a, b], (h.push_two a b).result_eq⟩
  | a :: b :: c :: rest, d, result, h => by
      have hchunk := run_encodeChunk alphabet d [a, b, c]
      rcases run_encode rest (h.push_three a b c) with ⟨d', hrun, hresult⟩
      refine ⟨d', ?_, by rw [hresult, List.append_assoc]; rfl⟩
      rw [encode_cons alphabet (List.cons_ne_nil _ _), run_append]
      simp only [List.take_succ_cons, List.take_zero, List.drop_succ_cons, List.drop_zero, hchunk]
      exact hrun

/-- Decoding inverts encoding. -/
theorem decode_encode (bytes : Bytes) :
    decode alphabet (encode alphabet bytes) = .ok bytes := by
  rcases run_encode alphabet bytes Decoder.Holds.start with ⟨d', hrun, hresult⟩
  rw [decode, hrun, Except.map, hresult, List.nil_append]

end Base64
