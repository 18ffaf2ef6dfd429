import Trin.Panics

/-! Bytes to value to bytes: what each decoder accepts, and what `encode` writes back for
it. The inner RLP items are read from slices whose trailing bytes nothing checks, and a
`None` proof ignores what follows its selector; re-encoding drops those bytes. -/
namespace Trin
open Ssz

variable {α : Type}

theorem encode_isPrefix_of_rlpDecode {c : Rlp.Codec α} (hc : c.Canonical) {b : Bytes} {a : α}
    (h : rlpDecode c b = .ok a) : c.encode a <+: b := by
  unfold rlpDecode at h
  split at h
  · rename_i rest hd
    cases h
    exact ⟨rest, (hc hd).symm⟩
  · cases h

theorem unwrap_eq_ok {r : Except ContentItemDecodeError α} {a : α} (h : unwrap r = .ok a) :
    r = .ok a := by
  cases r <;> cases h; rfl

theorem byteList_fromBytes_vec {n : Nat} {b : Bytes} {l : VariableList UInt8 n}
    (h : (variableList u8 n).fromBytes b = .ok l) : l.vec = b :=
  (byteList_fromBytes_eq_ok.mp h).symm

theorem map_vec_of_forall₂ {m : Nat} {bodies : List Bytes} {xs : List (VariableList UInt8 m)}
    (h : List.Forall₂ (fun c x => (variableList u8 m).fromBytes c = .ok x) bodies xs) :
    xs.map VariableList.vec = bodies := by
  induction h with
  | nil => rfl
  | cons hc _ ih => rw [List.map_cons, ih, byteList_fromBytes_vec hc]

/-- A list of byte lists accepts only the layout of its bodies. -/
theorem byteLists_fromBytes_eq_ok {n m : Nat} {b : Bytes}
    {l : VariableList (VariableList UInt8 m) n}
    (h : (variableList (variableList u8 m) n).fromBytes b = .ok l) :
    b = layoutList (l.vec.map VariableList.vec) := by
  obtain ⟨xs, hxs, rfl⟩ := variableList_fromBytes_ok.mp h
  obtain ⟨bodies, rfl, hn, hall⟩ := decodeVariableList_variable_eq_ok _ rfl hxs
  have hvec := map_vec_of_forall₂ hall
  have hlen : xs.length ≤ n := by simpa [← hvec] using hn
  rw [VariableList.from_of_le hlen, hvec]

theorem sszDecode_eq_ok {t : Codec α} {b : Bytes} {a : α} :
    sszDecode t b = .ok a ↔ t.fromBytes b = .ok a := by
  unfold sszDecode
  cases t.fromBytes b <;> simp

theorem prefix_length_le {es bodies : List Bytes} {n : Nat}
    (h : List.Forall₂ (fun e body => e <+: body) es bodies)
    (hb : ∀ b ∈ bodies, b.length ≤ n) :
    ∀ e ∈ es, e.length ≤ n := by
  induction h with
  | nil => simp
  | cons hp _ ih =>
    simp only [List.mem_cons, forall_eq_or_imp] at hb ⊢
    exact ⟨hp.length_le.trans hb.1, ih hb.2⟩

/-- Byte lists whose bodies a canonical RLP codec reads: each body begins with the encoding
of the value read from it. -/
theorem rlpBodies_prefix {c : Rlp.Codec α} (hc : c.Canonical) {m : Nat}
    {l : List (VariableList UInt8 m)} {xs : List α}
    (h : l.mapM (fun s => rlpDecode c s.vec) = .ok xs) :
    xs.length = l.length ∧
      List.Forall₂ (fun e body => e <+: body) (xs.map c.encode) (l.map VariableList.vec) := by
  induction l generalizing xs with
  | nil => cases h; exact ⟨rfl, .nil⟩
  | cons s l ih =>
    rw [List.mapM_cons] at h
    obtain ⟨x, hx, h1⟩ := Except.bind_eq_ok.mp h
    obtain ⟨ys, hys, h2⟩ := Except.bind_eq_ok.mp h1
    cases h2
    obtain ⟨hlen, hall⟩ := ih hys
    exact ⟨by simp [hlen], .cons (encode_isPrefix_of_rlpDecode hc hx) hall⟩

theorem length_encode_le_of_bodies {c : Rlp.Codec α} {m : Nat} {l : List (VariableList UInt8 m)}
    {xs : List α}
    (h : List.Forall₂ (fun e body => e <+: body) (xs.map c.encode) (l.map VariableList.vec)) :
    ∀ x ∈ xs, (c.encode x).length ≤ m := by
  intro x hx
  refine prefix_length_le h ?_ _ (List.mem_map_of_mem _ hx)
  simp only [List.mem_map]
  rintro _ ⟨s, -, rfl⟩
  exact s.length_le

section Impls
variable {Header Tx Receipt : Type}
variable (hdr : Rlp.Codec Header) (tx : Rlp.Codec Tx) (rc : Rlp.Codec Receipt)

/-- `Header::decode` reads an item off the front; encoding it gives that item alone. -/
theorem blockHeader_reencode (hc : hdr.Canonical) {b : Bytes} {h : Header}
    (hd : BlockHeader.decode hdr b = .ok (.ok h)) :
    hdr.encode h <+: b ∧ BlockHeader.encode hdr h [] = .ok (hdr.encode h) :=
  ⟨encode_isPrefix_of_rlpDecode hc (Except.ok.inj hd), rfl⟩

theorem receipts_decode_eq_ok {b : Bytes} {rs : List Receipt}
    (hd : Receipts.decode rc b = .ok (.ok rs)) :
    ∃ l, sszReceiptList.fromBytes b = .ok l ∧
      l.vec.mapM (fun s => rlpDecode rc s.vec) = .ok rs := by
  obtain ⟨l, hl, h⟩ := Except.bind_eq_ok.mp (Except.ok.inj hd)
  exact ⟨l, sszDecode_eq_ok.mp hl, h⟩

/-- A receipt list accepts the layout of receipt bodies that each begin with a receipt's RLP;
the SSZ bytes `encode` computes for what it read are the layout of those RLP items alone. -/
theorem receipts_reencode (hc : rc.Canonical) {b : Bytes} {rs : List Receipt}
    (hd : Receipts.decode rc b = .ok (.ok rs)) :
    ∃ bodies, b = layoutList bodies ∧
      List.Forall₂ (fun e body => e <+: body) (rs.map rc.encode) bodies ∧
      Receipts.sszEncoding rc rs = layoutList (rs.map rc.encode) := by
  obtain ⟨l, hl, hmap⟩ := receipts_decode_eq_ok rc hd
  obtain ⟨hlen, hall⟩ := rlpBodies_prefix hc hmap
  refine ⟨_, byteLists_fromBytes_eq_ok hl, hall, ?_⟩
  have hcount : (byteLists (n := 134217728) rc rs).length ≤ 16384 := by
    simpa [byteLists, hlen] using l.length_le
  rw [Receipts.sszEncoding, Codec.encode, VariableList.from_of_le hcount, sszReceiptList,
    sszReceipt, byteLists_list_append (length_encode_le_of_bodies hall)]

theorem blockBody_decode_eq_ok {b : Bytes} {v : BlockBody Tx Header}
    (hd : BlockBody.decode hdr tx b = .ok (.ok v)) :
    ∃ T U, blockBodySszContainer.fromBytes b = .ok (T, U) ∧
      T.vec.mapM (fun t => rlpDecode tx t.vec) = .ok v.transactions ∧
      rlpDecode hdr.list U.vec = .ok v.uncles := by
  obtain ⟨⟨T, U⟩, h1, h2⟩ := Except.bind_eq_ok.mp hd
  obtain ⟨txs, h3, h4⟩ := Except.bind_eq_ok.mp h2
  obtain ⟨us, h5, h6⟩ := Except.bind_eq_ok.mp h4
  cases h6
  rw [mapM_unwrap] at h3
  exact ⟨T, U, sszDecode_eq_ok.mp (unwrap_eq_ok h1), unwrap_eq_ok h3, unwrap_eq_ok h5⟩

/-- A block body accepts the container layout of a transaction list and an uncles blob,
each transaction body and the uncles blob beginning with an RLP item; `encode` writes the
same layout with the RLP items alone. -/
theorem blockBody_reencode (htc : tx.Canonical) (hhc : hdr.Canonical) {b : Bytes}
    {v : BlockBody Tx Header} (hd : BlockBody.decode hdr tx b = .ok (.ok v)) :
    ∃ bodies U, b = layout2 (layoutList bodies) U ∧
      List.Forall₂ (fun e body => e <+: body) (v.transactions.map tx.encode) bodies ∧
      hdr.list.encode v.uncles <+: U ∧
      BlockBody.encode hdr tx v [] =
        .ok (layout2 (layoutList (v.transactions.map tx.encode)) (hdr.list.encode v.uncles)) := by
  obtain ⟨T, U, hcont, hmap, hun⟩ := blockBody_decode_eq_ok hdr tx hd
  obtain ⟨A, B, rfl, -, hA, hB⟩ := (container2_fromBytes_eq_ok rfl rfl).mp hcont
  obtain ⟨hlen, hall⟩ := rlpBodies_prefix htc hmap
  have hpre := encode_isPrefix_of_rlpDecode (Rlp.Codec.list_canonical hhc) hun
  have hU := byteList_fromBytes_vec hB
  refine ⟨_, _, by rw [byteLists_fromBytes_eq_ok hA, hU], hall, hpre, ?_⟩
  have hcount : v.transactions.length ≤ 16384 := hlen ▸ T.length_le
  have huncles : (hdr.list.encode v.uncles).length ≤ 131072 :=
    hpre.length_le.trans (hU ▸ U.length_le)
  rw [BlockBody.encode_of_bounds hdr tx v hcount (length_encode_le_of_bodies hall) huncles,
    List.nil_append]

theorem headerWithProof_decode_eq_ok {b : Bytes} {v : HeaderWithProof Header}
    (hd : HeaderWithProof.decode hdr b = .ok (.ok v)) :
    ∃ hb po, headerWithProofSszContainer.fromBytes b = .ok (hb, po) ∧
      rlpDecode hdr hb.vec = .ok v.header ∧
      v.proof.map (fun p => (FixedVector.from p.toList : FixedVector H256 15)) = po := by
  unfold HeaderWithProof.decode at hd
  split at hd
  · cases hd
  rename_i hb po hcont
  split at hd
  · cases hd
  rename_i header hh
  cases po with
  | none =>
    cases hd
    exact ⟨hb, none, sszDecode_eq_ok.mp hcont, hh, rfl⟩
  | some fv =>
    dsimp only at hd
    rw [FixedArray.copyFromSlice_of_length _
      (show fv.vec.length = epochAccProofLen from fv.length_eq)] at hd
    cases hd
    exact ⟨hb, some fv, sszDecode_eq_ok.mp hcont, hh, by simp [FixedVector.from_vec]⟩

/-- A header with proof accepts the container layout of a header blob beginning with an RLP
header and a proof union; `encode` writes the same layout with the RLP header alone and the
union cut after a `None` selector. -/
theorem headerWithProof_reencode (hc : hdr.Canonical) {b : Bytes} {v : HeaderWithProof Header}
    (hd : HeaderWithProof.decode hdr b = .ok (.ok v)) :
    ∃ H P, b = layout2 H P ∧ hdr.encode v.header <+: H ∧
      (option sszHeaderProof).append (v.proof.map fun p => FixedVector.from p.toList) <+: P ∧
      (v.proof.isSome →
        (option sszHeaderProof).append (v.proof.map fun p => FixedVector.from p.toList) = P) ∧
      HeaderWithProof.encode hdr v [] = .ok (layout2 (hdr.encode v.header)
        ((option sszHeaderProof).append (v.proof.map fun p => FixedVector.from p.toList))) := by
  obtain ⟨hb, po, hcont, hh, hpo⟩ := headerWithProof_decode_eq_ok hdr hd
  obtain ⟨H, P, rfl, -, hH, hP⟩ := (container2_fromBytes_eq_ok rfl rfl).mp hcont
  have hpre := encode_isPrefix_of_rlpDecode hc hh
  have hvec := byteList_fromBytes_vec hH
  have hlen : (hdr.encode v.header).length ≤ 2048 := hpre.length_le.trans (hvec ▸ hb.length_le)
  have hsome : v.proof.isSome = po.isSome := by rw [← hpo]; cases v.proof <;> rfl
  rw [hsome, hpo]
  refine ⟨H, P, rfl, hvec ▸ hpre, ?_, ?_, ?_⟩
  · obtain ⟨rfl, rest, rfl⟩ | ⟨fv, e, rfl, rfl, he⟩ := option_fromBytes_eq_ok.mp hP
    · exact ⟨rest, rfl⟩
    · rw [(fixedVector_fromBytes_eq_ok h256_fixedWidth (by decide)).mp he]
      exact List.prefix_refl _
  · intro hs
    obtain ⟨rfl, -⟩ | ⟨fv, e, rfl, rfl, he⟩ := option_fromBytes_eq_ok.mp hP
    · cases hs
    · rw [(fixedVector_fromBytes_eq_ok h256_fixedWidth (by decide)).mp he]; rfl
  · rw [HeaderWithProof.encode, List.nil_append, Codec.encode, hpo, VariableList.from_of_le hlen,
      headerWithProofSszContainer, container2_append rfl rfl, sszEncodedHeader, byteList_append]

/-- Bytes to value to bytes: re-encoding what a decoder accepted gives its input with the
bytes no decoder checks left out, those after each inner RLP item and after a `None`
selector, laid out again by SSZ; for the epoch accumulator it gives the input itself. -/
theorem decode_reencode (hhc : hdr.Canonical) (htc : tx.Canonical) (hrc : rc.Canonical) :
    (∀ b h, BlockHeader.decode hdr b = .ok (.ok h) →
      hdr.encode h <+: b ∧ BlockHeader.encode hdr h [] = .ok (hdr.encode h)) ∧
    (∀ b v, HeaderWithProof.decode hdr b = .ok (.ok v) →
      ∃ H P, b = layout2 H P ∧ hdr.encode v.header <+: H ∧
        (option sszHeaderProof).append (v.proof.map fun p => FixedVector.from p.toList) <+: P ∧
        (v.proof.isSome →
          (option sszHeaderProof).append (v.proof.map fun p => FixedVector.from p.toList) = P) ∧
        HeaderWithProof.encode hdr v [] = .ok (layout2 (hdr.encode v.header)
          ((option sszHeaderProof).append (v.proof.map fun p => FixedVector.from p.toList)))) ∧
    (∀ b v, BlockBody.decode hdr tx b = .ok (.ok v) →
      ∃ bodies U, b = layout2 (layoutList bodies) U ∧
        List.Forall₂ (fun e body => e <+: body) (v.transactions.map tx.encode) bodies ∧
        hdr.list.encode v.uncles <+: U ∧
        BlockBody.encode hdr tx v [] =
          .ok (layout2 (layoutList (v.transactions.map tx.encode)) (hdr.list.encode v.uncles))) ∧
    (∀ b rs, Receipts.decode rc b = .ok (.ok rs) →
      ∃ bodies, b = layoutList bodies ∧
        List.Forall₂ (fun e body => e <+: body) (rs.map rc.encode) bodies ∧
        Receipts.sszEncoding rc rs = layoutList (rs.map rc.encode)) ∧
    (∀ b acc, EpochAccumulator.decode b = .ok (.ok acc) →
      EpochAccumulator.encode acc [] = .ok b) :=
  ⟨fun _ _ => blockHeader_reencode hdr hhc, fun _ _ => headerWithProof_reencode hdr hhc,
    fun _ _ => blockBody_reencode hdr tx htc hhc, fun _ _ => receipts_reencode rc hrc,
    fun b acc h => by
      simp [EpochAccumulator.encode, Codec.encode, epochAccumulator_decode_eq_ok.mp h]⟩

end Impls

theorem decode_reencode_u8 :
    Rlp.Codec.u8.Canonical ∧
    ((∀ b h, BlockHeader.decode Rlp.Codec.u8 b = .ok (.ok h) →
      Rlp.Codec.u8.encode h <+: b ∧ BlockHeader.encode Rlp.Codec.u8 h [] = .ok (Rlp.Codec.u8.encode h)) ∧
    (∀ b v, HeaderWithProof.decode Rlp.Codec.u8 b = .ok (.ok v) →
      ∃ H P, b = layout2 H P ∧ Rlp.Codec.u8.encode v.header <+: H ∧
        (option sszHeaderProof).append (v.proof.map fun p => FixedVector.from p.toList) <+: P ∧
        (v.proof.isSome →
          (option sszHeaderProof).append (v.proof.map fun p => FixedVector.from p.toList) = P) ∧
        HeaderWithProof.encode Rlp.Codec.u8 v [] = .ok (layout2 (Rlp.Codec.u8.encode v.header)
          ((option sszHeaderProof).append (v.proof.map fun p => FixedVector.from p.toList)))) ∧
    (∀ b v, BlockBody.decode Rlp.Codec.u8 Rlp.Codec.u8 b = .ok (.ok v) →
      ∃ bodies U, b = layout2 (layoutList bodies) U ∧
        List.Forall₂ (fun e body => e <+: body) (v.transactions.map Rlp.Codec.u8.encode) bodies ∧
        Rlp.Codec.u8.list.encode v.uncles <+: U ∧
        BlockBody.encode Rlp.Codec.u8 Rlp.Codec.u8 v [] =
          .ok (layout2 (layoutList (v.transactions.map Rlp.Codec.u8.encode)) (Rlp.Codec.u8.list.encode v.uncles))) ∧
    (∀ b rs, Receipts.decode Rlp.Codec.u8 b = .ok (.ok rs) →
      ∃ bodies, b = layoutList bodies ∧
        List.Forall₂ (fun e body => e <+: body) (rs.map Rlp.Codec.u8.encode) bodies ∧
        Receipts.sszEncoding Rlp.Codec.u8 rs = layoutList (rs.map Rlp.Codec.u8.encode)) ∧
    (∀ b acc, EpochAccumulator.decode b = .ok (.ok acc) →
      EpochAccumulator.encode acc [] = .ok b)) :=
  ⟨Rlp.Codec.u8_canonical, decode_reencode Rlp.Codec.u8 Rlp.Codec.u8 Rlp.Codec.u8
    Rlp.Codec.u8_canonical Rlp.Codec.u8_canonical Rlp.Codec.u8_canonical⟩

/-- A header followed by one more byte is accepted, and re-encoded without that byte. -/
theorem blockHeader_trailing_byte :
    Rlp.Codec.u8.Canonical ∧ BlockHeader.decode Rlp.Codec.u8 [1, 0] = .ok (.ok 1) ∧
      BlockHeader.encode Rlp.Codec.u8 1 [] = .ok [1] ∧ BlockHeader.encode Rlp.Codec.u8 1 [] ≠ .ok [1, 0] :=
  ⟨Rlp.Codec.u8_canonical, rfl, rfl, fun h => by cases h⟩

end Trin
