import IrohSync.Common
import IrohSync.Lib.Base64Image

/-!
# Several spellings of the same bytes

The decoder of keys and tickets has no condition at the end of its input.  A character that
completes no byte is accepted there, and so are bits that no byte takes.

Main results:

- Theorem {lit}`decodesExactly_iff`: which texts are refused or are the encoding of what
  they are decoded to.
- Theorem {lit}`eq_of_decode_eq`: no two such texts are decoded to the same bytes.
-/

namespace IrohSync

open FileIo Text

/-- A text is accepted only as the encoding of what it is decoded to. -/
def DecodesExactly (input : String) : Prop :=
  ∀ bytes, base64UrlDecode input = .ok bytes → base64UrlEncode bytes = input

/-- Two texts that are decoded to the same bytes are the same if both are accepted only as
encodings. -/
theorem eq_of_decode_eq {input input' : String} {bytes : Bytes} (h : DecodesExactly input)
    (h' : DecodesExactly input') (hdecode : base64UrlDecode input = .ok bytes)
    (hdecode' : base64UrlDecode input' = .ok bytes) : input = input' :=
  (h bytes hdecode).symm.trans (h' bytes hdecode')

/-- An encoding, as bytes. -/
theorem asBytes_base64UrlEncode (bytes : Bytes) :
    asBytes (base64UrlEncode bytes) = Base64.encode urlAlphabet bytes :=
  asBytes_asString fun b hb =>
    urlAlphabet_lt b (Base64.mem_symbols_of_mem_encode urlAlphabet hb)

/-- A text is accepted only as an encoding exactly if it has a character outside of the
alphabet, or the bits behind its last whole byte are fewer than six and zero. -/
theorem decodesExactly_iff (input : String) :
    DecodesExactly input ↔
      (∃ b ∈ asBytes input, b ∉ urlAlphabet.symbols) ∨
        urlAlphabet.EndsExactly (asBytes input) := by
  rw [← Base64.encode_of_decode_iff]
  refine forall₂_congr fun bytes _ => ?_
  rw [← asBytes_inj, asBytes_base64UrlEncode]

/-- A single character is decoded to no bytes; and two texts are decoded to one byte. -/
theorem not_decodesExactly_single :
    ¬ DecodesExactly "A" ∧
      base64UrlDecode "AA" = .ok [0] ∧ base64UrlDecode "AB" = .ok [0] := by
  refine ⟨fun h => ?_, rfl, rfl⟩
  exact absurd (h [] rfl) (by decide)

end IrohSync
