import Trin.ContentItem

/-! `BlsSignature` of `trin-types`: its SSZ decoder and its serde deserializer copy their
input into a zeroed `[u8; 96]` with `copy_from_slice`, and check no length first. -/
namespace Trin
open Ssz

/-- `BlsSignature` -/
structure BlsSignature where
  signature : FixedArray UInt8 96
  deriving DecidableEq

/-- `<BlsSignature as ssz::Decode>::from_ssz_bytes` -/
def BlsSignature.fromSszBytes (bytes : Bytes) : Rust (Except Ssz.DecodeError BlsSignature) := do
  let signature ← (FixedArray.replicate 96 0).copyFromSlice bytes
  return .ok ⟨signature⟩

/-- `<BlsSignature as ssz::Encode>::ssz_append` -/
def BlsSignature.sszAppend (s : BlsSignature) (buf : Bytes) : Bytes := buf ++ s.signature.toList

/-- `Encode::as_ssz_bytes`: `ssz_append` into an empty buffer. -/
def BlsSignature.asSszBytes (s : BlsSignature) : Bytes := s.sszAppend []

/-- `<BlsSignature as Deserialize>::deserialize`, from the string read. `hexDecode` is
`trin_utils::bytes::hex_decode`, with its error as the message `Error::custom` takes. -/
def BlsSignature.deserialize (hexDecode : String → Except String Bytes) (s : String) :
    Rust (Except String BlsSignature) :=
  match hexDecode s with
  | .error e => .ok (.error e)
  | .ok result => do
    let signature ← (FixedArray.replicate 96 0).copyFromSlice result
    return .ok ⟨signature⟩

theorem BlsSignature.fromSszBytes_eq (bytes : Bytes) :
    BlsSignature.fromSszBytes bytes =
      if h : bytes.length = 96 then .ok (.ok ⟨⟨bytes, h⟩⟩)
      else .error (.copyFromSlice bytes.length 96) := by
  unfold BlsSignature.fromSszBytes
  split
  · rw [FixedArray.copyFromSlice_of_length _ ‹_›]; rfl
  · rw [FixedArray.copyFromSlice_of_ne _ ‹_›]; rfl

theorem BlsSignature.deserialize_of_ok {hexDecode : String → Except String Bytes} {s : String}
    {r : Bytes} (hr : hexDecode s = .ok r) :
    BlsSignature.deserialize hexDecode s =
      if h : r.length = 96 then .ok (.ok ⟨⟨r, h⟩⟩)
      else .error (.copyFromSlice r.length 96) := by
  simp only [BlsSignature.deserialize, hr]
  split
  · rw [FixedArray.copyFromSlice_of_length _ ‹_›]; rfl
  · rw [FixedArray.copyFromSlice_of_ne _ ‹_›]; rfl

/-- Neither decoder returns an error for a wrong length: both panic in `copy_from_slice`. On
96 bytes they give the signature whose SSZ bytes are those bytes, and a string `hex_decode`
rejects gives its error. -/
theorem blsSignature_decode_panics (hexDecode : String → Except String Bytes) :
    (∀ b : Bytes, b.length ≠ 96 →
      BlsSignature.fromSszBytes b = .error (.copyFromSlice b.length 96)) ∧
    (∀ b : Bytes, b.length = 96 →
      ∃ s, BlsSignature.fromSszBytes b = .ok (.ok s) ∧ s.asSszBytes = b) ∧
    (∀ s e, hexDecode s = .error e → BlsSignature.deserialize hexDecode s = .ok (.error e)) ∧
    (∀ s r, hexDecode s = .ok r → r.length ≠ 96 →
      BlsSignature.deserialize hexDecode s = .error (.copyFromSlice r.length 96)) ∧
    (∀ s r, hexDecode s = .ok r → r.length = 96 →
      ∃ sig, BlsSignature.deserialize hexDecode s = .ok (.ok sig) ∧ sig.asSszBytes = r) := by
  refine ⟨fun b hb => ?_, fun b hb => ⟨⟨⟨b, hb⟩⟩, ?_, rfl⟩, fun s e he => ?_,
    fun s r hr hl => ?_, fun s r hr hl => ⟨⟨⟨r, hl⟩⟩, ?_, rfl⟩⟩
  · rw [BlsSignature.fromSszBytes_eq, dif_neg hb]
  · rw [BlsSignature.fromSszBytes_eq, dif_pos hb]
  · simp only [BlsSignature.deserialize, he]
  · rw [BlsSignature.deserialize_of_ok hr, dif_neg hl]
  · rw [BlsSignature.deserialize_of_ok hr, dif_pos hl]

example : BlsSignature.fromSszBytes [] = .error (.copyFromSlice 0 96) := rfl

end Trin
