import IrohSync.Lib.Base64

/-!
# The inputs that base64 decoding takes back

The decoder stops where its input stops, whatever is left in its buffer then.  So an
input may carry bits at its end that no byte takes, and decoding does not look at them:
the inputs that encoding gives back are those without such bits.

Main results:

- Theorem {lit}`foldl_push_iff`: which values a decoder gives back the bytes of.
- Theorem {lit}`encode_of_decode_iff`: which inputs are either refused or the encoding of
  what they are decoded to.
-/

namespace Base64

open FileIo

/-- How many bits are left over behind the last whole byte of an input. -/
def unusedBits (length : Nat) : Nat :=
  6 * length % 8

/-- The bits that are left over are fewer than those of a symbol, and they are zero. -/
def EndsExactly (values : List Nat) : Prop :=
  unusedBits values.length < 6 ∧
    ∀ last ∈ values.getLast?, last % 2 ^ unusedBits values.length = 0

/-- Values behind four more. -/
theorem endsExactly_cons_four (u v w x : Nat) (values : List Nat) :
    EndsExactly (u :: v :: w :: x :: values) ↔ EndsExactly values := by
  have hbits : unusedBits (u :: v :: w :: x :: values).length = unusedBits values.length := by
    simp only [unusedBits, List.length_cons]
    omega
  rw [EndsExactly, hbits]
  cases values with
  | nil => simp [EndsExactly, unusedBits, Nat.mod_one]
  | cons value values => simp only [EndsExactly, List.getLast?_cons_cons]

/-- Any four values are those of three bytes. -/
theorem exists_valuesOf_three {u v w x : Nat} (hu : u < 64) (hv : v < 64) (hw : w < 64)
    (hx : x < 64) : ∃ a b c, valuesOf [a, b, c] = [u, v, w, x] := by
  refine ⟨UInt8.ofNat (u * 4 + v / 16), UInt8.ofNat (v % 16 * 16 + w / 4),
    UInt8.ofNat (w % 4 * 64 + x), ?_⟩
  rw [valuesOf_three]
  simp only [UInt8.toNat_ofNat', List.cons.injEq, and_true]
  omega

variable (alphabet : Alphabet)

theorem encode_nil : encode alphabet [] = [] :=
  rfl

/-- Two lists of values with the same symbols. -/
theorem map_symbol_inj {values values' : List Nat} (hlt : ∀ value ∈ values, value < 64)
    (hlt' : ∀ value ∈ values', value < 64) :
    values.map alphabet.symbol = values'.map alphabet.symbol ↔ values = values' := by
  induction values generalizing values' with
  | nil => cases values' <;> simp
  | cons value values ih =>
      cases values' with
      | nil => simp
      | cons value' values' =>
          rw [List.forall_mem_cons] at hlt hlt'
          rw [List.map_cons, List.map_cons, List.cons.injEq, List.cons.injEq,
            alphabet.symbol_inj hlt.1 hlt'.1, ih hlt.2 hlt'.2]

/-- The symbols of a chunk at the end. -/
theorem encode_eq_iff {chunk : Bytes} (hne : chunk ≠ []) (hle : chunk.length ≤ 3)
    {values : List Nat} (hlt : ∀ value ∈ values, value < 64) :
    encode alphabet chunk = values.map alphabet.symbol ↔ valuesOf chunk = values := by
  rw [encode_chunk alphabet hne hle, encodeChunk_eq,
    map_symbol_inj alphabet (valuesOf_lt chunk) hlt]

variable {d : Decoder} {result : Bytes}

/-- Two values at the end give one byte, and its encoding has them exactly if the last
four bits are zero. -/
theorem Decoder.Holds.push_pair (h : d.Holds result 0 0) {u v : Nat} (hu : u < 64)
    (hv : v < 64) :
    ∃ a, ([u, v].foldl Decoder.push d).result = result ++ [a] ∧
      (valuesOf [a] = [u, v] ↔ v % 16 = 0) := by
  have ha : (UInt8.ofNat (u * 4 + v / 16)).toNat = u * 4 + v / 16 :=
    UInt8.toNat_ofNat_of_lt' (by simp only [UInt8.size]; omega)
  have hfirst := h.push_wait u hu (by omega)
  have hbyte := hfirst.push_byte 4 v (UInt8.ofNat (u * 4 + v / 16)) (v % 16) hv (by omega)
    (by rw [ha]; omega) (by omega)
  refine ⟨_, hbyte.result_eq, ?_⟩
  rw [valuesOf_one, ha]
  simp only [List.cons.injEq, and_true]
  omega

/-- Three values at the end give two bytes, and their encoding has them exactly if the last
two bits are zero. -/
theorem Decoder.Holds.push_triple (h : d.Holds result 0 0) {u v w : Nat} (hu : u < 64)
    (hv : v < 64) (hw : w < 64) :
    ∃ a b, ([u, v, w].foldl Decoder.push d).result = result ++ [a, b] ∧
      (valuesOf [a, b] = [u, v, w] ↔ w % 4 = 0) := by
  have ha : (UInt8.ofNat (u * 4 + v / 16)).toNat = u * 4 + v / 16 :=
    UInt8.toNat_ofNat_of_lt' (by simp only [UInt8.size]; omega)
  have hb : (UInt8.ofNat (v % 16 * 16 + w / 4)).toNat = v % 16 * 16 + w / 4 :=
    UInt8.toNat_ofNat_of_lt' (by simp only [UInt8.size]; omega)
  have hfirst := h.push_wait u hu (by omega)
  have hbyte := hfirst.push_byte 4 v (UInt8.ofNat (u * 4 + v / 16)) (v % 16) hv (by omega)
    (by rw [ha]; omega) (by omega)
  have hbyte' := hbyte.push_byte 2 w (UInt8.ofNat (v % 16 * 16 + w / 4)) (w % 4) hw (by omega)
    (by rw [hb]; omega) (by omega)
  refine ⟨_, _, hbyte'.result_eq.trans (List.append_assoc _ _ _), ?_⟩
  rw [valuesOf_two, ha, hb]
  simp only [List.cons.injEq, and_true]
  omega

/-- The bytes that a decoder with an empty buffer gets out of values, and when their
encoding has these values. -/
theorem foldl_push_iff : ∀ (values : List Nat) {d : Decoder} {result : Bytes},
    (∀ value ∈ values, value < 64) → d.Holds result 0 0 →
      ∃ bytes, (values.foldl Decoder.push d).result = result ++ bytes ∧
        (encode alphabet bytes = values.map alphabet.symbol ↔ EndsExactly values)
  | [], d, result, _, h => by
      refine ⟨[], by rw [List.append_nil]; exact h.result_eq, ?_⟩
      simp [encode_nil, EndsExactly, unusedBits]
  | [u], d, result, hlt, h => by
      have hu := hlt u List.mem_cons_self
      refine ⟨[], ?_, ?_⟩
      · rw [List.append_nil]
        exact (h.push_wait u hu (by omega)).result_eq
      · simp [encode_nil, EndsExactly, unusedBits]
  | [u, v], d, result, hlt, h => by
      rcases h.push_pair (hlt u (by simp)) (hlt v (by simp)) with ⟨a, hresult, hvalues⟩
      refine ⟨[a], hresult, ?_⟩
      rw [encode_eq_iff alphabet (List.cons_ne_nil _ _) (by simp) hlt, hvalues]
      simp [EndsExactly, unusedBits]
  | [u, v, w], d, result, hlt, h => by
      rcases h.push_triple (hlt u (by simp)) (hlt v (by simp)) (hlt w (by simp)) with
        ⟨a, b, hresult, hvalues⟩
      refine ⟨[a, b], hresult, ?_⟩
      rw [encode_eq_iff alphabet (List.cons_ne_nil _ _) (by simp) hlt, hvalues]
      simp [EndsExactly, unusedBits]
  | u :: v :: w :: x :: values, d, result, hlt, h => by
      simp only [List.forall_mem_cons] at hlt
      rcases hlt with ⟨hu, hv, hw, hx, hrest⟩
      rcases exists_valuesOf_three hu hv hw hx with ⟨a, b, c, hvalues⟩
      have hchunk := h.push_three a b c
      rw [hvalues] at hchunk
      rcases foldl_push_iff values hrest hchunk with ⟨bytes, hresult, hiff⟩
      refine ⟨a :: b :: c :: bytes, ?_, ?_⟩
      · simp only [List.foldl_cons, List.foldl_nil, List.append_assoc, List.cons_append,
          List.nil_append] at hresult ⊢
        exact hresult
      · rw [endsExactly_cons_four, ← hiff, encode_cons alphabet (List.cons_ne_nil _ _)]
        simp only [List.take_succ_cons, List.take_zero, List.drop_succ_cons, List.drop_zero,
          encodeChunk_eq, hvalues, List.map_cons, List.map_nil, List.cons_append,
          List.nil_append, List.cons.injEq, true_and]

/-! ## Inputs -/

/-- Symbols are those of values. -/
theorem exists_map_symbol {input : Bytes} (hsymbols : ∀ b ∈ input, b ∈ alphabet.symbols) :
    ∃ values : List Nat, (∀ value ∈ values, value < 64) ∧
      values.map alphabet.symbol = input := by
  induction input with
  | nil => exact ⟨[], by simp, rfl⟩
  | cons b input ih =>
      rw [List.forall_mem_cons] at hsymbols
      rcases alphabet.exists_symbol hsymbols.1 with ⟨value, hlt, rfl⟩
      rcases ih hsymbols.2 with ⟨values, hvalues, rfl⟩
      exact ⟨value :: values, List.forall_mem_cons.mpr ⟨hlt, hvalues⟩, rfl⟩

/-- A decoder refuses an input with a byte that is not a symbol. -/
theorem run_foreign (d : Decoder) {input : Bytes} {byte : UInt8} (hbyte : byte ∈ input)
    (hforeign : byte ∉ alphabet.symbols) :
    run alphabet d input = .error "invalid base64 character" := by
  induction input generalizing d with
  | nil => contradiction
  | cons b input ih =>
      by_cases hb : b ∈ alphabet.symbols
      · have hne : byte ≠ b := by
          rintro rfl
          exact hforeign hb
        rcases alphabet.exists_symbol hb with ⟨value, hlt, rfl⟩
        have hrest := ih (d.push value) ((List.mem_cons.mp hbyte).resolve_left hne)
        simp only [run] at hrest
        simp [run, List.foldlM_cons, step_symbol alphabet d hlt, hrest, bind, Except.bind]
      · have hstep : step alphabet d b = .error "invalid base64 character" :=
          if_pos (alphabet.value_neg_iff.mpr hb)
        simp [run, List.foldlM_cons, hstep, bind, Except.bind]

/-- The bits of an input that are left over behind its last whole byte are fewer than those
of a symbol, and they are zero. -/
def Alphabet.EndsExactly (input : Bytes) : Prop :=
  unusedBits input.length < 6 ∧
    ∀ last ∈ input.getLast?, alphabet.value last % 2 ^ unusedBits input.length = 0

theorem endsExactly_map_symbol {values : List Nat} (hlt : ∀ value ∈ values, value < 64) :
    alphabet.EndsExactly (values.map alphabet.symbol) ↔ EndsExactly values := by
  rw [Alphabet.EndsExactly, EndsExactly, List.length_map, List.getLast?_map]
  refine and_congr_right fun _ => ?_
  cases hlast : values.getLast? with
  | none => simp
  | some last =>
      have hvalue := alphabet.value_symbol (hlt last (List.mem_of_getLast? hlast))
      simp only [Option.map_some, Option.mem_some_iff, forall_eq', hvalue]
      exact_mod_cast Iff.rfl

/-- An input is refused or the encoding of what it is decoded to exactly if it has a byte
that is not a symbol or ends without bits that are left over. -/
theorem encode_of_decode_iff (input : Bytes) :
    (∀ bytes, decode alphabet input = .ok bytes → encode alphabet bytes = input) ↔
      (∃ b ∈ input, b ∉ alphabet.symbols) ∨ alphabet.EndsExactly input := by
  by_cases hsymbols : ∀ b ∈ input, b ∈ alphabet.symbols
  · rcases exists_map_symbol alphabet hsymbols with ⟨values, hlt, rfl⟩
    rcases foldl_push_iff alphabet values hlt Decoder.Holds.start with ⟨bytes, hresult, hiff⟩
    have hdecode : decode alphabet (values.map alphabet.symbol) = .ok bytes := by
      rw [decode, run_symbols alphabet .start hlt, Except.map, hresult, List.nil_append]
    have hnone : ¬ ∃ b ∈ values.map alphabet.symbol, b ∉ alphabet.symbols := by
      push Not
      exact hsymbols
    rw [or_iff_right hnone, endsExactly_map_symbol alphabet hlt, ← hiff, hdecode]
    simp only [Except.ok.injEq, forall_eq']
  · push Not at hsymbols
    rcases hsymbols with ⟨b, hb, hforeign⟩
    refine iff_of_true (fun bytes hdecode => ?_) (Or.inl ⟨b, hb, hforeign⟩)
    rw [decode, run_foreign alphabet .start hb hforeign] at hdecode
    contradiction

end Base64
