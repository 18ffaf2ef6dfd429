import Trin.Reencode

/-! Value to bytes to value beyond the declared bounds: `VariableList::from` cuts an over-long
list or byte string where `encode` builds it. A cut list of transactions comes back shorter;
a cut RLP item, and an offset wrapped past `2 ^ 32`, are rejected. -/
namespace Trin
open Ssz

variable {α : Type}

/-- Two container layouts are equal only with equal fields, unless the first one's second
offset wrapped and the second one's last field takes more than `2 ^ 32` bytes. -/
theorem layout2_inj {A B A' B' : Bytes} (h : layout2 A B = layout2 A' B')
    (hA' : 8 + A'.length < 2 ^ 32) (hwrap : 8 + A.length < 2 ^ 32 ∨ B'.length < 2 ^ 32) :
    A = A' ∧ B = B' := by
  have hoff := congrArg (fun b => readOffset (b.drop 4)) h
  simp only [layout2_drop_four, readOffset_encodeLength, Except.ok.injEq,
    Nat.mod_eq_of_lt hA'] at hoff
  have hlen := congrArg List.length h
  simp only [layout2, List.length_append, length_encodeLength] at hlen
  have hAA : A.length = A'.length := by omega
  have h8 : A ++ B = A' ++ B' := by
    have := congrArg (List.drop 8) h
    simpa [layout2, List.drop_left'] using this
  exact List.append_inj h8 hAA

/-- A lawful codec reads no value from a cut encoding but the whole one: an encoding cut
short is rejected. -/
theorem Rlp.Codec.eq_of_decode_take {c : Rlp.Codec α} (hc : c.Canonical) {x y : α} {n : Nat}
    {rest : Bytes} (hx : c.RoundTrips x) (hy : c.RoundTrips y)
    (h : c.decode ((c.encode x).take n) = .ok (y, rest)) : y = x ∧ (c.encode x).length ≤ n := by
  have hsplit : c.encode x = c.encode y ++ (rest ++ (c.encode x).drop n) := by
    rw [← List.append_assoc, ← hc h, List.take_append_drop]
  have h2 := hx []
  rw [List.append_nil, hsplit, hy] at h2
  obtain ⟨rfl, hnil⟩ := Prod.mk.inj (Except.ok.inj h2)
  exact ⟨rfl, List.drop_eq_nil_iff.mp (List.append_eq_nil.mp hnil).2⟩

theorem rlpDecode_take {c : Rlp.Codec α} (hc : c.Canonical) (hrt : ∀ x, c.RoundTrips x)
    {x y : α} {n : Nat} (h : rlpDecode c ((c.encode x).take n) = .ok y) : y = x := by
  unfold rlpDecode at h
  split at h
  · rename_i hd; cases h; exact (Rlp.Codec.eq_of_decode_take hc (hrt x) (hrt _) hd).1
  · cases h

/-- Transactions cut to byte lists of `m` bytes read back, when they read back at all, as the
transactions themselves. -/
theorem mapM_rlpDecode_take {c : Rlp.Codec α} (hc : c.Canonical) (hrt : ∀ x, c.RoundTrips x)
    {m : Nat} {xs ys : List α}
    (h : (byteLists (n := m) c xs).mapM (fun b => rlpDecode c b.vec) = .ok ys) : ys = xs := by
  induction xs generalizing ys with
  | nil => cases h; rfl
  | cons x xs ih =>
    simp only [byteLists, List.map_cons, List.mapM_cons] at h
    obtain ⟨y, hy, h1⟩ := Except.bind_eq_ok.mp h
    obtain ⟨ys', hys, h2⟩ := Except.bind_eq_ok.mp h1
    cases h2
    rw [rlpDecode_take hc hrt hy, ih hys]

/-- The same for an RLP list whose payload fits a `usize`, cut to fewer than `2 ^ 64` bytes. -/
theorem rlpDecode_list_take {c : Rlp.Codec α} (hc : c.Canonical) (hrt : ∀ x, c.RoundTrips x)
    {xs ys : List α} {n : Nat} (hn : n < 2 ^ 64) (hxs : (xs.flatMap c.encode).length < 2 ^ 64)
    (h : rlpDecode c.list ((c.list.encode xs).take n) = .ok ys) : ys = xs := by
  unfold rlpDecode at h
  split at h
  · rename_i rest hd
    cases h
    have hys : (ys.flatMap c.encode).length < 256 ^ 8 := by
      have hpre := congrArg List.length (Rlp.Codec.list_canonical hc hd)
      have := c.length_flatMap_le_list ys
      simp only [List.length_append, List.length_take] at hpre
      omega
    exact (Rlp.Codec.eq_of_decode_take (Rlp.Codec.list_canonical hc)
      (Rlp.Codec.list_roundTrips (fun x _ => hrt x) hxs)
      (Rlp.Codec.list_roundTrips (fun x _ => hrt x) hys) hd).1
  · cases h

section Impls
variable {Header Tx Receipt : Type}
variable (hdr : Rlp.Codec Header) (tx : Rlp.Codec Tx) (rc : Rlp.Codec Receipt)

/-- Whatever `BlockBody::decode` reads from what `encode` wrote is the body with its first
16384 transactions: a cut transaction or uncle list, or a wrapped offset, is rejected. The
uncles' RLP payload is a `usize`, below `2 ^ 64`. -/
theorem blockBody_encode_decode (htc : tx.Canonical) (htx : ∀ t, tx.RoundTrips t)
    (hhc : hdr.Canonical) (hh : ∀ h, hdr.RoundTrips h) {v v' : BlockBody Tx Header}
    (hus : (v.uncles.flatMap hdr.encode).length < 2 ^ 64)
    (hd : (BlockBody.encode hdr tx v [] >>= BlockBody.decode hdr tx) = .ok (.ok v')) :
    v' = ⟨v.transactions.take 16384, v.uncles⟩ := by
  rw [BlockBody.encode_take] at hd
  obtain ⟨txs, us⟩ := v
  simp only at hd hus ⊢
  have hcount := List.length_take_le 16384 txs
  generalize txs.take 16384 = txs at hcount hd ⊢
  have hl : (byteLists (n := 16777216) tx txs).length ≤ 16384 := by simpa [byteLists]
  rw [BlockBody.encode_of_le hdr tx _ hcount, Except.ok_bind] at hd
  obtain ⟨T, U, hcont, hmap, hun⟩ := blockBody_decode_eq_ok hdr tx hd
  obtain ⟨A, B, hlay, hA, hT, hU⟩ := (container2_fromBytes_eq_ok rfl rfl).mp hcont
  rw [List.nil_append, Codec.encode, blockBodySszContainer, container2_append rfl rfl] at hlay
  obtain ⟨rfl, rfl⟩ := layout2_inj hlay hA
    (.inr (by rw [← byteList_fromBytes_vec hU]; exact U.length_le.trans_lt (by decide)))
  have hT' : sszTransactionList.RoundTrips ⟨byteLists tx txs, hl⟩ :=
    variableList_roundTrips _ rfl (fun b _ => byteList_roundTrips b) (by
      simp only [sszTransactionList] at hA; omega)
  obtain rfl := Except.ok.inj (hT.symm.trans hT')
  have hUvec : U.vec = (hdr.list.encode us).take 131072 := by
    rw [byteList_fromBytes_vec hU, sszUncles, byteList_append]; rfl
  rw [hUvec] at hun
  obtain ⟨t', u'⟩ := v'
  simp only at hmap hun
  rw [mapM_rlpDecode_take htc htx hmap, rlpDecode_list_take hhc hh (by decide) hus hun]

/-- Whatever `HeaderWithProof::decode` reads from what `encode` wrote is the value itself: a
header RLP cut to 2048 bytes is rejected. -/
theorem headerWithProof_encode_decode (hhc : hdr.Canonical) (hh : ∀ h, hdr.RoundTrips h)
    {v v' : HeaderWithProof Header}
    (hd : (HeaderWithProof.encode hdr v [] >>= HeaderWithProof.decode hdr) = .ok (.ok v')) :
    v' = v := by
  simp only [HeaderWithProof.encode, List.nil_append, Except.ok_bind, Codec.encode] at hd
  obtain ⟨hb, po, hcont, hhd, hpo⟩ := headerWithProof_decode_eq_ok hdr hd
  rw [headerWithProof_container_roundTrips hdr v] at hcont
  obtain ⟨rfl, rfl⟩ := Prod.mk.inj (Except.ok.inj hcont)
  have hinj : Function.Injective fun p : FixedArray H256 epochAccProofLen =>
      (FixedVector.from p.toList : FixedVector H256 15) := fun p q h => by
    rw [FixedArray.ext_iff, ← FixedVector.from_toList p, ← FixedVector.from_toList q]
    exact congrArg FixedVector.vec h
  obtain ⟨header', proof'⟩ := v'
  obtain ⟨header, proof⟩ := v
  simp only at hhd hpo
  rw [rlpDecode_take (n := 2048) hhc hh hhd, Option.map_injective hinj hpo]

/-- `Vec<Receipt>::encode` into an empty buffer returns only for the empty list, which is
read back. -/
theorem receipts_encode_decode {rs rs' : List Receipt}
    (hd : (Receipts.encode rc rs [] >>= Receipts.decode rc) = .ok (.ok rs')) : rs' = rs := by
  cases rs with
  | nil => exact (Except.ok.inj (Except.ok.inj hd)).symm
  | cons r rs => rw [Receipts.encode_empty_buffer] at hd; cases hd

/-- Value to bytes to value at any size, for lawful inner codecs: a header with proof or a
receipt list comes back as itself or not at all; a block body comes back with its first
16384 transactions, and with its uncles, or not at all. -/
theorem encode_decode_beyond_bounds (htc : tx.Canonical) (htx : ∀ t, tx.RoundTrips t)
    (hhc : hdr.Canonical) (hh : ∀ h, hdr.RoundTrips h) :
    (∀ v v' : BlockBody Tx Header, (v.uncles.flatMap hdr.encode).length < 2 ^ 64 →
      (BlockBody.encode hdr tx v [] >>= BlockBody.decode hdr tx) = .ok (.ok v') →
        v' = ⟨v.transactions.take 16384, v.uncles⟩) ∧
    (∀ rs rs' : List Receipt,
      (Receipts.encode rc rs [] >>= Receipts.decode rc) = .ok (.ok rs') → rs' = rs) ∧
    ∀ v v' : HeaderWithProof Header,
      (HeaderWithProof.encode hdr v [] >>= HeaderWithProof.decode hdr) = .ok (.ok v') → v' = v :=
  ⟨fun _ _ hus hd => blockBody_encode_decode hdr tx htc htx hhc hh hus hd,
    fun _ _ hd => receipts_encode_decode rc hd,
    fun _ _ hd => headerWithProof_encode_decode hdr hhc hh hd⟩

end Impls

/-- Over the lawful `u8` codec, a block body of 16385 transactions comes back from its
encoding as another valid body, with 16384. -/
theorem blockBody_transactions_truncated :
    Rlp.Codec.u8.Canonical ∧ (∀ x, Rlp.Codec.u8.RoundTrips x) ∧
    (BlockBody.encode Rlp.Codec.u8 Rlp.Codec.u8 ⟨List.replicate 16385 0, []⟩ [] >>=
      BlockBody.decode Rlp.Codec.u8 Rlp.Codec.u8) = .ok (.ok ⟨List.replicate 16384 0, []⟩) := by
  refine ⟨Rlp.Codec.u8_canonical, Rlp.Codec.u8_roundTrips, ?_⟩
  have htake : (List.replicate 16385 (0 : UInt8)).take 16384 = List.replicate 16384 0 := by
    rw [List.take_replicate, Nat.min_eq_left (by decide)]
  have h := blockBody_decode_encode Rlp.Codec.u8 Rlp.Codec.u8 ⟨List.replicate 16385 0, []⟩
    (fun t ht => by rw [htake] at ht; obtain ⟨-, rfl⟩ := List.mem_replicate.mp ht; decide)
    (by decide)
    (by
      rw [htake, List.flatMap_replicate, show Rlp.Codec.u8.encode 0 = [0x80] from rfl,
        List.flatten_replicate_singleton, List.length_replicate, List.length_replicate]
      decide)
    (fun t _ => Rlp.Codec.u8_roundTrips t) (fun h _ => Rlp.Codec.u8_roundTrips h)
  rwa [htake] at h

theorem encode_decode_beyond_bounds_u8 :
    Rlp.Codec.u8.Canonical ∧ (∀ x, Rlp.Codec.u8.RoundTrips x) ∧
    ((∀ v v' : BlockBody UInt8 UInt8, (v.uncles.flatMap Rlp.Codec.u8.encode).length < 2 ^ 64 →
      (BlockBody.encode Rlp.Codec.u8 Rlp.Codec.u8 v [] >>= BlockBody.decode Rlp.Codec.u8 Rlp.Codec.u8) =
        .ok (.ok v') → v' = ⟨v.transactions.take 16384, v.uncles⟩) ∧
    (∀ rs rs' : List UInt8,
      (Receipts.encode Rlp.Codec.u8 rs [] >>= Receipts.decode Rlp.Codec.u8) = .ok (.ok rs') →
        rs' = rs) ∧
    ∀ v v' : HeaderWithProof UInt8,
      (HeaderWithProof.encode Rlp.Codec.u8 v [] >>= HeaderWithProof.decode Rlp.Codec.u8) =
        .ok (.ok v') → v' = v) :=
  ⟨Rlp.Codec.u8_canonical, Rlp.Codec.u8_roundTrips,
    encode_decode_beyond_bounds Rlp.Codec.u8 Rlp.Codec.u8 Rlp.Codec.u8 Rlp.Codec.u8_canonical
      Rlp.Codec.u8_roundTrips Rlp.Codec.u8_canonical Rlp.Codec.u8_roundTrips⟩

end Trin
