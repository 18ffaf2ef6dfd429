import Trin.History
import Trin.RoundTrip

/-! Where the content items leave the contract of their trait: `BlockBody::decode` panics
instead of returning an error, and `Vec<Receipt>::encode` copies its encoding over the buffer
instead of appending it. -/
namespace Trin
open Ssz

section Decode
variable {Header Tx Receipt : Type}
variable (hdr : Rlp.Codec Header) (tx : Rlp.Codec Tx) (rc : Rlp.Codec Receipt)

theorem rlpDecode_nil {β : Type} (c : Rlp.Codec β) : ∃ e, rlpDecode c [] = .error e := by
  obtain ⟨e, he⟩ := c.decode_nil
  exact ⟨.rlp e, by simp [rlpDecode, he]⟩

theorem headerWithProof_decode_returns (b : Bytes) :
    ∃ r, HeaderWithProof.decode hdr b = .ok r := by
  unfold HeaderWithProof.decode
  split
  · exact ⟨_, rfl⟩
  split
  · exact ⟨_, rfl⟩
  split
  · rename_i fv _
    simp [FixedArray.copyFromSlice_of_length _
      (show fv.vec.length = epochAccProofLen from fv.length_eq)]
  · exact ⟨_, rfl⟩

/-- `BlockBody::decode` returns `Ok` or panics: it never returns an error. -/
theorem blockBody_decode_ne_error (b : Bytes) (e : ContentItemDecodeError) :
    BlockBody.decode hdr tx b ≠ .ok (.error e) := by
  intro h
  obtain ⟨_, -, h⟩ := Except.bind_eq_ok.mp h
  obtain ⟨_, -, h⟩ := Except.bind_eq_ok.mp h
  obtain ⟨_, -, h⟩ := Except.bind_eq_ok.mp h
  cases h

theorem blockBody_decode_nil :
    BlockBody.decode hdr tx [] = .error (.unwrap (.ssz (.invalidLengthPrefix 0 4))) := rfl

/-- `deserialize` on `"0x"`: the two decoders before `BlockBody` reject the empty bytes, and
`BlockBody::decode` then panics. -/
theorem deserialize_empty :
    HistoryContentItem.deserialize hdr tx rc "0x" =
      .error (.unwrap (.ssz (.invalidLengthPrefix 0 4))) := by
  obtain ⟨e, he⟩ := rlpDecode_nil hdr
  have hbh : BlockHeader.decode hdr [] = .ok (.error e) := by rw [BlockHeader.decode, he]
  show tryDecode (HeaderWithProof.decode hdr []) _ (tryDecode (BlockHeader.decode hdr []) _
    (tryDecode (BlockBody.decode hdr tx []) _ _)) = _
  rw [hbh, blockBody_decode_nil]
  rfl

/-- Four of the five decoders return on every input; `BlockBody::decode` never returns an
error, and panics on the empty input, which `deserialize` reaches from the string `"0x"`. -/
theorem blockBody_decode_unwraps :
    (∀ b, (∃ r, HeaderWithProof.decode hdr b = .ok r) ∧ (∃ r, BlockHeader.decode hdr b = .ok r) ∧
      (∃ r, Receipts.decode rc b = .ok r) ∧ ∃ r, EpochAccumulator.decode b = .ok r) ∧
    (∀ b e, BlockBody.decode hdr tx b ≠ .ok (.error e)) ∧
    BlockBody.decode hdr tx [] = .error (.unwrap (.ssz (.invalidLengthPrefix 0 4))) ∧
    HistoryContentItem.deserialize hdr tx rc "0x" =
      .error (.unwrap (.ssz (.invalidLengthPrefix 0 4))) :=
  ⟨fun b => ⟨headerWithProof_decode_returns hdr b, ⟨_, rfl⟩, ⟨_, rfl⟩, ⟨_, rfl⟩⟩,
    blockBody_decode_ne_error hdr tx, blockBody_decode_nil hdr tx, deserialize_empty hdr tx rc⟩

end Decode

section Encode
variable {Header Tx Receipt : Type}
variable (hdr : Rlp.Codec Header) (tx : Rlp.Codec Tx) (rc : Rlp.Codec Receipt)

/-- The bytes `ssz::ssz_encode(&ssz)` computes inside `Vec<Receipt>::encode`. -/
def Receipts.sszEncoding (receipts : List Receipt) : Bytes :=
  sszReceiptList.encode (VariableList.from (byteLists rc receipts))

theorem Receipts.encode_eq (receipts : List Receipt) (buf : Bytes) :
    Receipts.encode rc receipts buf =
      if buf.length = (Receipts.sszEncoding rc receipts).length then
        .ok (Receipts.sszEncoding rc receipts)
      else .error (.copyFromSlice (Receipts.sszEncoding rc receipts).length buf.length) := by
  simp only [Receipts.encode, Receipts.sszEncoding, copyFromSlice, byteLists, eq_comm]
  split <;> rfl

@[simp] theorem Receipts.sszEncoding_nil : Receipts.sszEncoding rc [] = [] := rfl

theorem Receipts.sszEncoding_ne_nil (r : Receipt) (rs : List Receipt) :
    Receipts.sszEncoding rc (r :: rs) ≠ [] := by
  rw [Receipts.sszEncoding, Codec.encode, sszReceiptList, variableList_append,
    appendList_variable (t := sszReceipt) rfl, ne_eq, ← List.length_eq_zero, length_layoutList]
  simp [VariableList.from, byteLists]

/-- Into an empty buffer, `Vec<Receipt>::encode` returns only for the empty list. -/
theorem Receipts.encode_empty_buffer (receipts : List Receipt) :
    Receipts.encode rc receipts [] =
      if receipts.isEmpty then .ok []
      else .error (.copyFromSlice (Receipts.sszEncoding rc receipts).length 0) := by
  cases receipts with
  | nil => rfl
  | cons r rs =>
    rw [Receipts.encode_eq, if_neg]
    · rfl
    · exact fun h => Receipts.sszEncoding_ne_nil rc r rs (List.length_eq_zero.mp h.symm)

/-- The trait's appending `encode` holds for four impls; `Vec<Receipt>::encode` copies its
encoding over the buffer: it returns the encoding when the buffer has its length, and panics
otherwise. -/
theorem receipts_encode_copies :
    (HeaderWithProof.contentItem hdr).Appends ∧ (BlockHeader.contentItem hdr).Appends ∧
    (BlockBody.contentItem hdr tx).Appends ∧ EpochAccumulator.contentItem.Appends ∧
    ¬ (Receipts.contentItem rc).Appends ∧
    ∀ receipts buf, Receipts.encode rc receipts buf =
      if buf.length = (Receipts.sszEncoding rc receipts).length then
        .ok (Receipts.sszEncoding rc receipts)
      else .error (.copyFromSlice (Receipts.sszEncoding rc receipts).length buf.length) := by
  refine ⟨⟨_, fun _ _ => rfl⟩, ⟨_, fun _ _ => rfl⟩, ⟨_, fun _ _ => rfl⟩,
    ⟨_, fun _ _ => rfl⟩, ?_, Receipts.encode_eq rc⟩
  rintro ⟨e, he⟩
  have h := he [] [0]
  simp [Receipts.contentItem, Receipts.encode_eq] at h

theorem Receipts.decode_sszEncoding {receipts : List Receipt} (hcount : receipts.length ≤ 16384)
    (hlen : ∀ r ∈ receipts, (rc.encode r).length ≤ 134217728)
    (htotal : 4 * receipts.length + (receipts.flatMap rc.encode).length < 2 ^ 32)
    (hrt : ∀ r ∈ receipts, rc.RoundTrips r) :
    Receipts.decode rc (Receipts.sszEncoding rc receipts) = .ok (.ok receipts) := by
  have hl : (byteLists (n := 134217728) rc receipts).length ≤ 16384 := by simpa [byteLists]
  have hlist : sszReceiptList.RoundTrips ⟨_, hl⟩ := byteLists_list_roundTrips hlen hl (by omega)
  simp only [Receipts.decode, Receipts.sszEncoding, Codec.encode, VariableList.from_of_le hl,
    sszDecode]
  rw [hlist, Except.mapError_ok, Except.ok_bind, mapM_rlpDecode_byteLists hlen hrt]

/-- Within the declared bounds, `Vec<Receipt>::encode` into an empty buffer panics for every
non-empty list, although the bytes it computed would decode back to the same receipts. -/
theorem receipts_encode_panics (receipts : List Receipt) (hcount : receipts.length ≤ 16384)
    (hlen : ∀ r ∈ receipts, (rc.encode r).length ≤ 134217728)
    (htotal : 4 * receipts.length + (receipts.flatMap rc.encode).length < 2 ^ 32)
    (hrt : ∀ r ∈ receipts, rc.RoundTrips r) :
    Receipts.encode rc receipts [] =
      (if receipts.isEmpty then .ok []
        else .error (.copyFromSlice (Receipts.sszEncoding rc receipts).length 0)) ∧
    Receipts.decode rc (Receipts.sszEncoding rc receipts) = .ok (.ok receipts) :=
  ⟨Receipts.encode_empty_buffer rc receipts,
    Receipts.decode_sszEncoding rc hcount hlen htotal hrt⟩

theorem receipts_encode_panics_u8 :
    [(7 : UInt8)].length ≤ 16384 ∧ (∀ r ∈ [(7 : UInt8)], (Rlp.Codec.u8.encode r).length ≤ 134217728) ∧
    4 * [(7 : UInt8)].length + ([(7 : UInt8)].flatMap Rlp.Codec.u8.encode).length < 2 ^ 32 ∧
    Receipts.encode Rlp.Codec.u8 [7] [] = .error (.copyFromSlice 5 0) ∧
    Receipts.decode Rlp.Codec.u8 (Receipts.sszEncoding Rlp.Codec.u8 [7]) = .ok (.ok [7]) := by
  obtain ⟨h1, h2⟩ := receipts_encode_panics Rlp.Codec.u8 [7] (by decide) (by decide) (by decide)
    fun r _ => Rlp.Codec.u8_roundTrips r
  exact ⟨by decide, by decide, by decide, h1.trans rfl, h2⟩

/-- `serialize` panics on every non-empty receipt list; the empty receipt list and the empty
epoch accumulator serialize to `"0x"`, on which `deserialize` panics. -/
theorem serialize_receipts_panics :
    (∀ r rs, ∃ n, 0 < n ∧
      HistoryContentItem.serialize hdr tx rc (.receipts (r :: rs)) = .error (.copyFromSlice n 0)) ∧
    HistoryContentItem.serialize hdr tx rc (.receipts []) = .ok "0x" ∧
    HistoryContentItem.serialize hdr tx rc (.epochAccumulator ⟨[], Nat.zero_le _⟩) = .ok "0x" ∧
    HistoryContentItem.deserialize hdr tx rc "0x" =
      .error (.unwrap (.ssz (.invalidLengthPrefix 0 4))) := by
  refine ⟨fun r rs => ?_, rfl, rfl, deserialize_empty hdr tx rc⟩
  refine ⟨_, List.length_pos.mpr (Receipts.sszEncoding_ne_nil rc r rs), ?_⟩
  simp [HistoryContentItem.serialize, Receipts.encode_empty_buffer]

end Encode

end Trin
