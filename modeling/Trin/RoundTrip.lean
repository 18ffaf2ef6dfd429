import Trin.ContentItem

/-! Value to bytes to value: within their declared bounds, the content items `encode` writes
come back from `decode`, and the epoch accumulator's codec is a bijection. -/
namespace Trin
open Ssz

variable {α : Type}

@[simp] theorem unwrap_ok (a : α) :
    unwrap (.ok a : Except ContentItemDecodeError α) = .ok a := rfl

@[simp] theorem unwrap_error (e : ContentItemDecodeError) :
    unwrap (.error e : Except ContentItemDecodeError α) = .error (.unwrap e) := rfl

theorem rlpDecode_encode {c : Rlp.Codec α} {a : α} (h : c.RoundTrips a) :
    rlpDecode c (c.encode a) = .ok a := by
  simp [rlpDecode, by simpa using h []]

theorem FixedArray.ext_iff {n : Nat} {a b : FixedArray α n} : a = b ↔ a.toList = b.toList := by
  cases a; cases b; simp

section HeaderWithProof
variable {Header : Type} (hdr : Rlp.Codec Header)

theorem sszHeaderProof_roundTrips (p : FixedArray H256 epochAccProofLen) :
    sszHeaderProof.RoundTrips (FixedVector.from p.toList) :=
  (fixedVector_fromBytes_eq_ok h256_fixedWidth (by decide)).mpr rfl

theorem FixedVector.from_toList (p : FixedArray H256 epochAccProofLen) :
    (FixedVector.from p.toList : FixedVector H256 15).vec = p.toList := by
  have h : p.toList.length = 15 := p.length_toList
  simp [FixedVector.from, h]

/-- The container `HeaderWithProof::encode` builds is read back whole: its header is cut to
2048 bytes, so no offset wraps. -/
theorem headerWithProof_container_roundTrips (v : HeaderWithProof Header) :
    headerWithProofSszContainer.RoundTrips (VariableList.from (hdr.encode v.header),
      v.proof.map fun p => FixedVector.from p.toList) := by
  refine container2_roundTrips rfl rfl (byteList_roundTrips _) (option_roundTrips fun a ha => ?_)
    (by simp [sszEncodedHeader, VariableList.from]; omega)
  obtain ⟨p, -, rfl⟩ := Option.map_eq_some'.mp ha
  exact sszHeaderProof_roundTrips p

/-- `decode` reads back the container `encode` writes, when the header's RLP fits its 2048
bytes. -/
theorem HeaderWithProof.decode_container {v : HeaderWithProof Header}
    (hlen : (hdr.encode v.header).length ≤ 2048) (hrt : hdr.RoundTrips v.header) :
    HeaderWithProof.decode hdr (headerWithProofSszContainer.encode
      (VariableList.from (hdr.encode v.header), v.proof.map fun p => FixedVector.from p.toList)) =
        .ok (.ok v) := by
  simp only [HeaderWithProof.decode, Codec.encode, sszDecode]
  rw [headerWithProof_container_roundTrips hdr v, Except.mapError_ok]
  simp only [VariableList.from_of_le hlen, rlpDecode_encode hrt]
  obtain ⟨header, proof⟩ := v
  cases proof with
  | none => rfl
  | some p => simp [FixedVector.from_toList, FixedArray.copyFromSlice_of_length _ p.length_toList]

/-- A header with proof whose header RLP fits in 2048 bytes is read back from what `encode`
writes: the same header, and the same 15 hashes when there is a proof. -/
theorem headerWithProof_roundTrip (v : HeaderWithProof Header)
    (hlen : (hdr.encode v.header).length ≤ 2048) (hrt : hdr.RoundTrips v.header) :
    (HeaderWithProof.encode hdr v [] >>= HeaderWithProof.decode hdr) = .ok (.ok v) := by
  simp only [HeaderWithProof.encode, List.nil_append, Except.ok_bind]
  exact HeaderWithProof.decode_container hdr hlen hrt

theorem headerWithProof_roundTrip_u8 :
    (Rlp.Codec.u8.encode 5).length ≤ 2048 ∧ Rlp.Codec.u8.RoundTrips 5 ∧
      (HeaderWithProof.encode Rlp.Codec.u8 ⟨5, some (FixedArray.replicate 15 H256.zero)⟩ [] >>=
        HeaderWithProof.decode Rlp.Codec.u8) = .ok (.ok ⟨5, some (FixedArray.replicate 15 H256.zero)⟩) :=
  ⟨by decide, Rlp.Codec.u8_roundTrips 5,
    headerWithProof_roundTrip _ _ (by decide) (Rlp.Codec.u8_roundTrips 5)⟩

end HeaderWithProof

section ByteLists
variable {n : Nat}

/-- RLP items, each cut to a byte list of at most `n` bytes as `VariableList::from` does. -/
def byteLists (c : Rlp.Codec α) (xs : List α) : List (VariableList UInt8 n) :=
  xs.map fun x => VariableList.from (c.encode x)

theorem byteLists_append {c : Rlp.Codec α} {xs : List α}
    (h : ∀ x ∈ xs, (c.encode x).length ≤ n) :
    (byteLists (n := n) c xs).map (variableList u8 n).append = xs.map c.encode := by
  induction xs with
  | nil => rfl
  | cons x xs ih =>
    simp only [byteLists, List.map_cons, List.map_map] at ih ⊢
    rw [byteList_append, VariableList.from_of_le (h x (List.mem_cons_self x xs)),
      ih fun y hy => h y (List.mem_cons_of_mem x hy)]

theorem mapM_rlpDecode_byteLists {c : Rlp.Codec α} {xs : List α}
    (h : ∀ x ∈ xs, (c.encode x).length ≤ n) (hrt : ∀ x ∈ xs, c.RoundTrips x) :
    (byteLists (n := n) c xs).mapM (fun b => rlpDecode c b.vec) = .ok xs := by
  induction xs with
  | nil => rfl
  | cons x xs ih =>
    simp only [byteLists, List.map_cons, List.mapM_cons] at ih ⊢
    rw [VariableList.from_of_le (h x (List.mem_cons_self x xs)),
      ih (fun y hy => h y (List.mem_cons_of_mem x hy))
        fun y hy => hrt y (List.mem_cons_of_mem x hy)]
    simp [rlpDecode_encode (hrt x (List.mem_cons_self x xs))]

theorem mapM_unwrap {β : Type} (f : β → Except ContentItemDecodeError α) (l : List β) :
    l.mapM (fun b => unwrap (f b)) = unwrap (l.mapM f) := by
  induction l with
  | nil => rfl
  | cons b l ih =>
    simp only [List.mapM_cons, ih]
    cases f b <;> cases l.mapM f <;> rfl

/-- The SSZ list of byte lists that `encode` builds from RLP items. -/
theorem appendList_byteLists {c : Rlp.Codec α} {xs : List α}
    (h : ∀ x ∈ xs, (c.encode x).length ≤ n) :
    appendList (variableList u8 n) (byteLists c xs) = layoutList (xs.map c.encode) := by
  rw [appendList_variable rfl, byteLists_append h]

theorem layoutList_map_length {c : Rlp.Codec α} (xs : List α) :
    (layoutList (xs.map c.encode)).length = 4 * xs.length + (xs.flatMap c.encode).length := by
  simp [length_layoutList, List.flatMap, Nat.mul_comm]

variable {N : Nat} {c : Rlp.Codec α} {xs : List α}

theorem byteLists_list_append (h : ∀ x ∈ xs, (c.encode x).length ≤ n)
    (hl : (byteLists (n := n) c xs).length ≤ N) :
    (variableList (variableList u8 n) N).append ⟨byteLists c xs, hl⟩ =
      layoutList (xs.map c.encode) := by
  rw [variableList_append, appendList_byteLists h]

/-- A list of RLP items as byte lists reads back when its layout is shorter than `2 ^ 32`. -/
theorem byteLists_list_roundTrips (h : ∀ x ∈ xs, (c.encode x).length ≤ n)
    (hl : (byteLists (n := n) c xs).length ≤ N)
    (hlt : 4 * xs.length + (xs.flatMap c.encode).length < 2 ^ 32) :
    (variableList (variableList u8 n) N).RoundTrips ⟨byteLists c xs, hl⟩ :=
  variableList_roundTrips _ rfl (fun b _ => byteList_roundTrips b)
    (by rwa [byteLists_list_append h, layoutList_map_length])

end ByteLists

theorem Rlp.Codec.length_flatMap_le_list (c : Rlp.Codec α) (xs : List α) :
    (xs.flatMap c.encode).length ≤ (c.list.encode xs).length := by
  simp [Rlp.Codec.list_encode]

section BlockBody
variable {Header Tx : Type} (hdr : Rlp.Codec Header) (tx : Rlp.Codec Tx)

/-- `encode` keeps only the first 16384 transactions (`VariableList::from` cuts the list). -/
theorem BlockBody.encode_take (v : BlockBody Tx Header) (buf : Bytes) :
    BlockBody.encode hdr tx v buf =
      BlockBody.encode hdr tx ⟨v.transactions.take 16384, v.uncles⟩ buf := by
  simp only [BlockBody.encode, VariableList.from, List.map_take, List.take_take, Nat.min_self]

/-- `encode` on at most 16384 transactions: the container of their RLP items as byte lists,
and of the uncles' RLP list. -/
theorem BlockBody.encode_of_le (v : BlockBody Tx Header) (hcount : v.transactions.length ≤ 16384)
    (buf : Bytes) :
    BlockBody.encode hdr tx v buf = .ok (buf ++ blockBodySszContainer.encode
      (⟨byteLists tx v.transactions, by simpa [byteLists]⟩,
        VariableList.from (hdr.list.encode v.uncles))) := by
  have hl : (byteLists (n := 16777216) tx v.transactions).length ≤ 16384 := by
    simpa [byteLists]
  rw [BlockBody.encode, ← VariableList.from_of_le hl]
  rfl

/-- Within the declared bounds `encode` cuts nothing: it writes the container layout of the
transactions' RLP and of the uncles' RLP list. -/
theorem BlockBody.encode_of_bounds (v : BlockBody Tx Header)
    (hcount : v.transactions.length ≤ 16384)
    (htx : ∀ t ∈ v.transactions, (tx.encode t).length ≤ 16777216)
    (huncles : (hdr.list.encode v.uncles).length ≤ 131072) (buf : Bytes) :
    BlockBody.encode hdr tx v buf = .ok (buf ++
      layout2 (layoutList (v.transactions.map tx.encode)) (hdr.list.encode v.uncles)) := by
  rw [BlockBody.encode_of_le hdr tx v hcount, Codec.encode, VariableList.from_of_le huncles,
    blockBodySszContainer, container2_append rfl rfl, sszTransactionList, sszTransaction,
    byteLists_list_append htx, sszUncles, byteList_append]

/-- What `decode` reads from what `encode` writes: the first 16384 transactions and the
uncles, when these are within their bounds, round-trip, and the uncles' offset stays below
`2 ^ 32`. -/
theorem blockBody_decode_encode (v : BlockBody Tx Header)
    (htx : ∀ t ∈ v.transactions.take 16384, (tx.encode t).length ≤ 16777216)
    (huncles : (hdr.list.encode v.uncles).length ≤ 131072)
    (htotal : 8 + 4 * (v.transactions.take 16384).length +
      ((v.transactions.take 16384).flatMap tx.encode).length < 2 ^ 32)
    (htxrt : ∀ t ∈ v.transactions.take 16384, tx.RoundTrips t)
    (hrt : ∀ h ∈ v.uncles, hdr.RoundTrips h) :
    (BlockBody.encode hdr tx v [] >>= BlockBody.decode hdr tx) =
      .ok (.ok ⟨v.transactions.take 16384, v.uncles⟩) := by
  rw [BlockBody.encode_take]
  obtain ⟨txs, uncles⟩ := v
  have hcount := List.length_take_le 16384 txs
  generalize txs.take 16384 = txs at htx htotal htxrt hcount ⊢
  have hl : (byteLists (n := 16777216) tx txs).length ≤ 16384 := by simpa [byteLists]
  have hcont : blockBodySszContainer.RoundTrips
      (⟨byteLists tx txs, hl⟩, VariableList.from (hdr.list.encode uncles)) :=
    container2_roundTrips rfl rfl (byteLists_list_roundTrips htx hl (by omega))
      (byteList_roundTrips _) (by
        rw [sszTransactionList, sszTransaction, byteLists_list_append htx, layoutList_map_length]
        omega)
  have huncles_rt : hdr.list.RoundTrips uncles :=
    Rlp.Codec.list_roundTrips hrt (by
      have := hdr.length_flatMap_le_list uncles
      simp only at huncles
      omega)
  rw [BlockBody.encode_of_le hdr tx _ hcount]
  simp only [BlockBody.decode, List.nil_append, Except.ok_bind, Codec.encode, sszDecode]
  rw [hcont, Except.mapError_ok, unwrap_ok, Except.ok_bind, mapM_unwrap,
    mapM_rlpDecode_byteLists htx htxrt, unwrap_ok, Except.ok_bind,
    VariableList.from_of_le huncles, rlpDecode_encode huncles_rt]
  rfl

/-- A block body within the declared bounds, whose encoding is shorter than `2 ^ 32` bytes,
is read back from what `encode` writes: the same transactions in order, and the same uncles. -/
theorem blockBody_roundTrip (v : BlockBody Tx Header)
    (hcount : v.transactions.length ≤ 16384)
    (htx : ∀ t ∈ v.transactions, (tx.encode t).length ≤ 16777216)
    (huncles : (hdr.list.encode v.uncles).length ≤ 131072)
    (htotal : 8 + 4 * v.transactions.length + (v.transactions.flatMap tx.encode).length +
      (hdr.list.encode v.uncles).length < 2 ^ 32)
    (htxrt : ∀ t ∈ v.transactions, tx.RoundTrips t) (hrt : ∀ h ∈ v.uncles, hdr.RoundTrips h) :
    (BlockBody.encode hdr tx v [] >>= BlockBody.decode hdr tx) = .ok (.ok v) := by
  have htake : v.transactions.take 16384 = v.transactions := List.take_of_length_le hcount
  have h := blockBody_decode_encode hdr tx v (by rwa [htake]) huncles (by rw [htake]; omega)
    (by rwa [htake]) hrt
  rwa [htake] at h

theorem blockBody_roundTrip_u8 :
    let v : BlockBody UInt8 UInt8 := ⟨[1, 2], [3]⟩
    v.transactions.length ≤ 16384 ∧
    (∀ t ∈ v.transactions, (Rlp.Codec.u8.encode t).length ≤ 16777216) ∧
    (Rlp.Codec.u8.list.encode v.uncles).length ≤ 131072 ∧
    8 + 4 * v.transactions.length + (v.transactions.flatMap Rlp.Codec.u8.encode).length +
      (Rlp.Codec.u8.list.encode v.uncles).length < 2 ^ 32 ∧
    (BlockBody.encode Rlp.Codec.u8 Rlp.Codec.u8 v [] >>= BlockBody.decode Rlp.Codec.u8 Rlp.Codec.u8) =
      .ok (.ok v) :=
  ⟨by decide, by decide, by decide, by decide,
    blockBody_roundTrip _ _ _ (by decide) (by decide) (by decide) (by decide)
      (fun t _ => Rlp.Codec.u8_roundTrips t) fun h _ => Rlp.Codec.u8_roundTrips h⟩

end BlockBody

section EpochAccumulator

theorem headerRecord_fixedWidth : headerRecord.FixedWidth :=
  Codec.map_fixedWidth (container2_fixedWidth h256_fixedWidth u256_fixedWidth)
    (fun _ => rfl) fun _ => rfl

@[simp] theorem headerRecord_fixedLen : headerRecord.fixedLen = 64 := rfl

/-- A record is its hash, then its total difficulty as 32 little-endian bytes. -/
theorem headerRecord_append (r : HeaderRecord) :
    headerRecord.append r = r.hash.bytes ++ leBytes 32 r.totalDifficulty.val := by
  simp [headerRecord, Codec.map, container2, Codec.fieldLen, h256, u256,
    SszEncoder.appendParameterized, SszEncoder.container, SszEncoder.finalize]

theorem epochAccumulator_decode_ok {b : Bytes} {acc : EpochAccumulator} :
    EpochAccumulator.decode b = .ok (.ok acc) ↔
      (variableList headerRecord 8192).fromBytes b = .ok acc := by
  simp only [EpochAccumulator.decode, sszDecode, Except.ok.injEq, epochAccumulator]
  cases (variableList headerRecord 8192).fromBytes b <;> simp

/-- `EpochAccumulator::decode` accepts exactly the encodings of accumulators. -/
theorem epochAccumulator_decode_eq_ok {b : Bytes} {acc : EpochAccumulator} :
    EpochAccumulator.decode b = .ok (.ok acc) ↔ b = epochAccumulator.append acc :=
  epochAccumulator_decode_ok.trans (variableList_fromBytes_eq_ok headerRecord_fixedWidth)

/-- `EpochAccumulator`'s codec is a bijection between lists of at most 8192 records and the
byte strings whose length is a multiple of 64, at most 8192 · 64; each record takes 64 bytes,
hash then little-endian total difficulty. -/
theorem epochAccumulator_bijection :
    (∀ b : Bytes, (∃ acc, EpochAccumulator.decode b = .ok (.ok acc)) ↔
      64 ∣ b.length ∧ b.length ≤ 8192 * 64) ∧
    (∀ b acc, EpochAccumulator.decode b = .ok (.ok acc) → EpochAccumulator.encode acc [] = .ok b) ∧
    (∀ acc : EpochAccumulator,
      (EpochAccumulator.encode acc [] >>= EpochAccumulator.decode) = .ok (.ok acc)) ∧
    (∀ (acc : EpochAccumulator) (buf : Bytes), EpochAccumulator.encode acc buf =
      .ok (buf ++ acc.vec.flatMap fun r => r.hash.bytes ++ leBytes 32 r.totalDifficulty.val)) := by
  refine ⟨fun b => ?_, fun b acc h => by
      simp [EpochAccumulator.encode, Codec.encode, epochAccumulator_decode_eq_ok.mp h],
    fun acc => epochAccumulator_decode_eq_ok.mpr rfl, fun acc buf => ?_⟩
  · simp only [epochAccumulator_decode_ok]
    simpa using (variableList_fromBytes_isOk headerRecord_fixedWidth :
      (∃ l, (variableList headerRecord 8192).fromBytes b = .ok l) ↔ _)
  · simp only [EpochAccumulator.encode, Codec.encode, epochAccumulator, variableList_append,
      appendList_fixed headerRecord_fixedWidth, show headerRecord.append = _ from
        funext headerRecord_append]

end EpochAccumulator

end Trin
