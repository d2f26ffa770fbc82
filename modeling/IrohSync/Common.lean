import IrohSync.Lib.Base64
import IrohSync.Lib.Text

/-!
# Common utilities

The base64 encoding of the keys under which peers are stored: the URL-safe
alphabet, no padding.

Main results:

- Theorem {lit}`base64UrlDecode_encode`: decoding inverts encoding.
- Theorem {lit}`base64Url_roundTrip`: the same, with the characters and the length of an
  encoding.
-/

namespace IrohSync

open FileIo Text Chunks

/-- The URL-safe alphabet. -/
def urlAlphabet : Base64.Alphabet where
  symbols := asBytes "ABCDEFGHIJKLMNOPQRSTUVWXYZabcdefghijklmnopqrstuvwxyz0123456789-_"
  length_symbols := rfl
  nodup := by decide

/-- Encode bytes to base64 URL-safe without padding. -/
def base64UrlEncode (bytes : Bytes) : String :=
  asString (Base64.encode urlAlphabet bytes)

/-- Decode base64 URL-safe without padding. -/
def base64UrlDecode (input : String) : Except String Bytes :=
  Base64.decode urlAlphabet (asBytes input)

set_option maxRecDepth 4000 in
/-- The symbols of an encoding are bytes below 128. -/
theorem urlAlphabet_lt : ∀ b ∈ urlAlphabet.symbols, b < 128 := by
  decide

/-- Decoding inverts encoding. -/
theorem base64UrlDecode_encode (bytes : Bytes) :
    base64UrlDecode (base64UrlEncode bytes) = .ok bytes := by
  have hascii : ∀ b ∈ Base64.encode urlAlphabet bytes, b < 128 := fun b hb =>
    urlAlphabet_lt b (Base64.mem_symbols_of_mem_encode urlAlphabet hb)
  rw [base64UrlDecode, base64UrlEncode, asBytes_asString hascii, Base64.decode_encode]

set_option maxRecDepth 4000 in
/-- The symbols of an encoding are characters of the alphabet. -/
theorem urlAlphabet_chars : ∀ b ∈ urlAlphabet.symbols, Char.ofUInt8 b ∈
    "ABCDEFGHIJKLMNOPQRSTUVWXYZabcdefghijklmnopqrstuvwxyz0123456789-_".toList := by
  decide

/-- Every encoding is decoded to its bytes, consists of characters of the alphabet, and has
the length of four characters for three bytes, rounded up. -/
theorem base64Url_roundTrip (bytes : Bytes) :
    base64UrlDecode (base64UrlEncode bytes) = .ok bytes ∧
      (∀ c ∈ (base64UrlEncode bytes).toList, c ∈
        "ABCDEFGHIJKLMNOPQRSTUVWXYZabcdefghijklmnopqrstuvwxyz0123456789-_".toList) ∧
      (base64UrlEncode bytes).length = divCeil (4 * bytes.length) 3 := by
  refine ⟨base64UrlDecode_encode bytes, fun c hc => ?_, ?_⟩
  · rw [base64UrlEncode, asString, String.toList_ofList] at hc
    rcases List.mem_map.mp hc with ⟨b, hb, rfl⟩
    exact urlAlphabet_chars b (Base64.mem_symbols_of_mem_encode urlAlphabet hb)
  · rw [base64UrlEncode, asString, String.length_ofList, List.length_map, Base64.encode_length]

/-- Distinct bytes have distinct encodings. -/
theorem base64UrlEncode_injective : Function.Injective base64UrlEncode := by
  intro bytes bytes' heq
  have hdecode := base64UrlDecode_encode bytes
  rw [heq, base64UrlDecode_encode] at hdecode
  exact (Except.ok.inj hdecode).symm

end IrohSync
