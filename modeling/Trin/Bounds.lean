import Trin.Truncation

/-! The SSZ offsets of `BlockBody::encode` and `Vec<Receipt>::encode`: read back below `2 ^ 32`
each points at its field, but `encode_length` keeps only the low four bytes of a position, and
the declared bounds let a list of transactions or receipts run past it. -/
namespace Trin
open Ssz

/-- Where each of `bodies`, laid end to end from `start` on, begins: the positions the offsets
of `offsetTable start bodies` stand for. -/
def bodyStarts : Nat → List Bytes → List Nat
  | _, [] => []
  | start, body :: bodies => start :: bodyStarts (start + body.length) bodies

theorem offsetTable_eq_flatMap (start : Nat) (bodies : List Bytes) :
    offsetTable start bodies = (bodyStarts start bodies).flatMap encodeLength := by
  induction bodies generalizing start with
  | nil => rfl
  | cons body bodies ih => rw [offsetTable, bodyStarts, List.flatMap_cons, ih]

theorem le_of_mem_bodyStarts {start p : Nat} {bodies : List Bytes}
    (h : p ∈ bodyStarts start bodies) : p ≤ start + bodies.flatten.length := by
  induction bodies generalizing start with
  | nil => cases h
  | cons body bodies ih =>
    rcases List.mem_cons.mp h with rfl | h
    · omega
    · have := ih h
      rw [List.flatten_cons, List.length_append]
      omega

/-- Each start is where its body begins: past it stand that body, the ones after it, and
whatever follows them. -/
theorem drop_bodyStarts {start i : Nat} {bodies : List Bytes} (hi : i < bodies.length)
    {pre : Bytes} (hpre : pre.length = start) (rest : Bytes) :
    (pre ++ bodies.flatten ++ rest).drop ((bodyStarts start bodies).getD i 0) =
      (bodies.drop i).flatten ++ rest := by
  induction bodies generalizing start i pre with
  | nil => cases hi
  | cons body bodies ih =>
    cases i with
    | zero => rw [List.append_assoc]; exact List.drop_left' hpre
    | succ i =>
      have := @ih (start + body.length) i (Nat.lt_of_succ_lt_succ hi) (pre ++ body)
        (by rw [List.length_append, hpre])
      simpa [bodyStarts] using this

/-- The offsets of a list's layout stand for true positions: past the `i`-th stand the
bodies from the `i`-th on. -/
theorem drop_layoutList_bodyStarts {i : Nat} {bodies : List Bytes} (hi : i < bodies.length)
    (rest : Bytes) :
    (layoutList bodies ++ rest).drop
        ((bodyStarts (bodies.length * bytesPerLengthOffset) bodies).getD i 0) =
      (bodies.drop i).flatten ++ rest :=
  drop_bodyStarts hi (length_offsetTable _ _) rest

/-- The last body starts latest: all starts are below a bound exactly when the last is. -/
theorem forall_bodyStarts_lt_iff {start bound : Nat} {bodies : List Bytes} (hne : bodies ≠ []) :
    (∀ p ∈ bodyStarts start bodies, p < bound) ↔
      start + bodies.dropLast.flatten.length < bound := by
  induction bodies generalizing start with
  | nil => exact absurd rfl hne
  | cons body bodies ih =>
    cases bodies with
    | nil => simp [bodyStarts]
    | cons next rest =>
      rw [bodyStarts, List.forall_mem_cons, ih (List.cons_ne_nil _ _), List.dropLast_cons₂,
        List.flatten_cons, List.length_append]
      omega

/-- An offset reads back as the position it was written for exactly below `2 ^ 32`. -/
theorem readOffset_encodeLength_eq_iff (p : Nat) :
    readOffset (encodeLength p) = .ok p ↔ p < 2 ^ 32 := by
  rw [← List.append_nil (encodeLength p), readOffset_encodeLength, Except.ok.injEq]
  exact Nat.mod_eq_iff_lt (by norm_num)

theorem length_flatMap_replicate {α β : Type} (k : Nat) (a : α) (f : α → List β) :
    ((List.replicate k a).flatMap f).length = k * (f a).length := by
  rw [List.flatMap_replicate, List.length_flatten, List.map_replicate, List.sum_replicate,
    smul_eq_mul]

/-- The RLP of `m` zero bytes: each a one-byte string, behind a header of at most nine
bytes. -/
theorem length_u8_list_replicate_zero (m : Nat) :
    m ≤ (Rlp.Codec.u8.list.encode (List.replicate m 0)).length ∧
      (Rlp.Codec.u8.list.encode (List.replicate m 0)).length ≤ m + 9 := by
  have hpay : ((List.replicate m (0 : UInt8)).flatMap Rlp.Codec.u8.encode).length = m := by
    rw [List.flatMap_replicate, show Rlp.Codec.u8.encode 0 = [0x80] from rfl,
      List.flatten_replicate_singleton, List.length_replicate]
  have hh := Rlp.Header.length_encode_le ⟨true, m⟩
  rw [Rlp.Codec.list_encode, List.length_append, hpay]
  omega

section Positions
variable {Header Tx Receipt : Type}
variable (hdr : Rlp.Codec Header) (tx : Rlp.Codec Tx) (rc : Rlp.Codec Receipt)

/-- The byte positions the offsets `BlockBody::encode` writes stand for, in order: the
container's two, then the transaction list's, counted from the list's first byte. -/
def BlockBody.offsetPositions (v : BlockBody Tx Header) : List Nat :=
  let bodies := v.transactions.map tx.encode
  8 :: (8 + (layoutList bodies).length) ::
    bodyStarts (bodies.length * bytesPerLengthOffset) bodies

/-- The byte positions the offsets of the receipt list `ssz_encode` writes stand for. -/
def Receipts.offsetPositions (receipts : List Receipt) : List Nat :=
  let bodies := receipts.map rc.encode
  bodyStarts (bodies.length * bytesPerLengthOffset) bodies

/-- Within the declared bounds `encode` writes each offset as `encode_length` of the position
it stands for, then the transactions' RLP and the uncles' RLP list. -/
theorem BlockBody.encode_offsets (v : BlockBody Tx Header)
    (hcount : v.transactions.length ≤ 16384)
    (htx : ∀ t ∈ v.transactions, (tx.encode t).length ≤ 2 ^ 24)
    (huncles : (hdr.list.encode v.uncles).length ≤ 131072) (buf : Bytes) :
    BlockBody.encode hdr tx v buf = .ok (buf ++ (BlockBody.offsetPositions tx v).flatMap
      encodeLength ++ v.transactions.flatMap tx.encode ++ hdr.list.encode v.uncles) := by
  rw [BlockBody.encode_of_bounds hdr tx v hcount (fun t ht => (htx t ht).trans (by norm_num))
    huncles]
  simp [BlockBody.offsetPositions, layout2, layoutList, offsetTable_eq_flatMap, List.flatMap_def]

/-- Within the declared bounds the receipt list's SSZ bytes are the layout of the receipts'
RLP. -/
theorem Receipts.sszEncoding_eq_layoutList {receipts : List Receipt}
    (hcount : receipts.length ≤ 16384) (hlen : ∀ r ∈ receipts, (rc.encode r).length ≤ 2 ^ 27) :
    Receipts.sszEncoding rc receipts = layoutList (receipts.map rc.encode) := by
  have hl : (byteLists (n := 134217728) rc receipts).length ≤ 16384 := by simpa [byteLists]
  rw [Receipts.sszEncoding, Codec.encode, VariableList.from_of_le hl]
  exact byteLists_list_append (fun r hr => (hlen r hr).trans (by norm_num)) hl

/-- Within the declared bounds the receipt list's SSZ bytes are its offsets, each
`encode_length` of the position it stands for, then the receipts' RLP. -/
theorem Receipts.sszEncoding_offsets {receipts : List Receipt}
    (hcount : receipts.length ≤ 16384) (hlen : ∀ r ∈ receipts, (rc.encode r).length ≤ 2 ^ 27) :
    Receipts.sszEncoding rc receipts =
      (Receipts.offsetPositions rc receipts).flatMap encodeLength ++
        receipts.flatMap rc.encode := by
  rw [Receipts.sszEncoding_eq_layoutList rc hcount hlen, layoutList, offsetTable_eq_flatMap]
  rfl

/-- The uncles' offset is the largest: all are exact when it is. -/
theorem BlockBody.forall_offsetPositions_lt_iff (v : BlockBody Tx Header) :
    (∀ p ∈ BlockBody.offsetPositions tx v, p < 2 ^ 32) ↔
      8 + 4 * v.transactions.length + (v.transactions.flatMap tx.encode).length < 2 ^ 32 := by
  have hlayout := layoutList_map_length (c := tx) v.transactions
  simp only [BlockBody.offsetPositions, List.forall_mem_cons]
  constructor
  · rintro ⟨-, h, -⟩
    omega
  · intro h
    refine ⟨by omega, by omega, fun p hp => ?_⟩
    have hp := (le_of_mem_bodyStarts hp).trans_eq (length_layoutList _).symm
    omega

/-- The last receipt's offset is the largest: all are exact when it is. -/
theorem Receipts.forall_offsetPositions_lt_iff (receipts : List Receipt) :
    (∀ p ∈ Receipts.offsetPositions rc receipts, p < 2 ^ 32) ↔
      4 * receipts.length + (receipts.dropLast.flatMap rc.encode).length < 2 ^ 32 := by
  cases receipts with
  | nil => simp [Receipts.offsetPositions, bodyStarts]
  | cons r rs =>
    have hne : (r :: rs).map rc.encode ≠ [] := List.cons_ne_nil _ _
    rw [Receipts.offsetPositions, forall_bodyStarts_lt_iff hne,
      ← List.map_dropLast, ← List.flatMap_def, List.length_map, Nat.mul_comm]
    rfl

/-- Within the declared bounds both encoders write each offset as its position mod `2 ^ 32`.
The offsets are all exact exactly when the positions stay below `2 ^ 32`: for a block body,
when its transaction list with the container's two offsets does; for receipts, when the last
receipt starts there. -/
theorem encode_offsets_exact_iff :
    (∀ (v : BlockBody Tx Header) (buf : Bytes), v.transactions.length ≤ 16384 →
      (∀ t ∈ v.transactions, (tx.encode t).length ≤ 2 ^ 24) →
      (hdr.list.encode v.uncles).length ≤ 131072 →
      BlockBody.encode hdr tx v buf = .ok (buf ++ (BlockBody.offsetPositions tx v).flatMap
        encodeLength ++ v.transactions.flatMap tx.encode ++ hdr.list.encode v.uncles) ∧
      ((∀ p ∈ BlockBody.offsetPositions tx v, readOffset (encodeLength p) = .ok p) ↔
        8 + 4 * v.transactions.length + (v.transactions.flatMap tx.encode).length < 2 ^ 32)) ∧
    (∀ receipts : List Receipt, receipts.length ≤ 16384 →
      (∀ r ∈ receipts, (rc.encode r).length ≤ 2 ^ 27) →
      Receipts.sszEncoding rc receipts =
        (Receipts.offsetPositions rc receipts).flatMap encodeLength ++
          receipts.flatMap rc.encode ∧
      ((∀ p ∈ Receipts.offsetPositions rc receipts, readOffset (encodeLength p) = .ok p) ↔
        4 * receipts.length + (receipts.dropLast.flatMap rc.encode).length < 2 ^ 32)) := by
  refine ⟨fun v buf hcount htx huncles =>
      ⟨BlockBody.encode_offsets hdr tx v hcount htx huncles buf, ?_⟩,
    fun receipts hcount hlen => ⟨Receipts.sszEncoding_offsets rc hcount hlen, ?_⟩⟩
  · simp only [readOffset_encodeLength_eq_iff]
    exact BlockBody.forall_offsetPositions_lt_iff tx v
  · simp only [readOffset_encodeLength_eq_iff]
    exact Receipts.forall_offsetPositions_lt_iff rc receipts

end Positions

/-- 16384 transactions, each the RLP of `2 ^ 24 - 9` zero bytes, are within the bounds, but
their list runs past `2 ^ 32` bytes: the uncles' offset wraps. -/
theorem blockBody_offset_wraps :
    let v : BlockBody (List UInt8) UInt8 :=
      ⟨List.replicate 16384 (List.replicate (2 ^ 24 - 9) 0), []⟩
    v.transactions.length ≤ 16384 ∧
    (∀ t ∈ v.transactions, (Rlp.Codec.u8.list.encode t).length ≤ 2 ^ 24) ∧
    (Rlp.Codec.u8.list.encode v.uncles).length ≤ 131072 ∧
    ∃ p ∈ BlockBody.offsetPositions Rlp.Codec.u8.list v, readOffset (encodeLength p) ≠ .ok p := by
  intro v
  obtain ⟨hlo, hhi⟩ := length_u8_list_replicate_zero (2 ^ 24 - 9)
  refine ⟨(List.length_replicate _ _).le, fun t ht => ?_, by decide,
    8 + (layoutList (v.transactions.map Rlp.Codec.u8.list.encode)).length,
    List.mem_cons_of_mem _ (List.mem_cons_self _ _), ?_⟩
  · rw [(List.mem_replicate.mp ht).2]
    omega
  · rw [Ne, readOffset_encodeLength_eq_iff, not_lt, layoutList_map_length,
      show v.transactions = List.replicate 16384 _ from rfl, length_flatMap_replicate,
      List.length_replicate]
    omega

section Reading
variable {Header Tx Receipt : Type}
variable (hdr : Rlp.Codec Header) (tx : Rlp.Codec Tx) (rc : Rlp.Codec Receipt)

theorem length_bodyStarts (start : Nat) (bodies : List Bytes) :
    (bodyStarts start bodies).length = bodies.length := by
  induction bodies generalizing start with
  | nil => rfl
  | cons body bodies ih => simp [bodyStarts, ih]

theorem getD_mem_bodyStarts {start i : Nat} {bodies : List Bytes} (hi : i < bodies.length) :
    (bodyStarts start bodies).getD i 0 ∈ bodyStarts start bodies := by
  rw [List.getD_eq_getElem _ _ (by rwa [length_bodyStarts])]
  exact List.getElem_mem _

theorem drop_flatMap_encodeLength (ps : List Nat) (i : Nat) :
    (ps.flatMap encodeLength).drop (4 * i) = (ps.drop i).flatMap encodeLength := by
  induction ps generalizing i with
  | nil => simp
  | cons p ps ih =>
    cases i with
    | zero => rfl
    | succ i =>
      rw [List.flatMap_cons, Nat.mul_succ, Nat.add_comm (4 * i) 4, ← List.drop_drop,
        List.drop_left' (length_encodeLength p), ih, List.drop_succ_cons]

/-- The `i`-th offset of a list's layout reads back as the position of the `i`-th body, mod
`2 ^ 32`. -/
theorem readOffset_layoutList {bodies : List Bytes} {i : Nat} (hi : i < bodies.length)
    (rest : Bytes) :
    readOffset ((layoutList bodies ++ rest).drop (4 * i)) =
      .ok ((bodyStarts (bodies.length * bytesPerLengthOffset) bodies).getD i 0 % 2 ^ 32) := by
  have hs : i < (bodyStarts (bodies.length * bytesPerLengthOffset) bodies).length := by
    rwa [length_bodyStarts]
  rw [layoutList, List.append_assoc,
    List.drop_append_of_le_length (by rw [length_offsetTable]; omega), offsetTable_eq_flatMap,
    drop_flatMap_encodeLength, List.drop_eq_getElem_cons hs, List.flatMap_cons, List.append_assoc,
    readOffset_encodeLength, List.getD_eq_getElem _ _ hs]

/-- Read below `2 ^ 32`, the `i`-th offset of a list's layout points at the `i`-th body. -/
theorem readOffset_layoutList_points {bodies : List Bytes} {i : Nat} (hi : i < bodies.length)
    (hlt : ∀ p ∈ bodyStarts (bodies.length * bytesPerLengthOffset) bodies, p < 2 ^ 32)
    (rest : Bytes) :
    ∃ p, readOffset ((layoutList bodies ++ rest).drop (4 * i)) = .ok p ∧
      (layoutList bodies ++ rest).drop p = (bodies.drop i).flatten ++ rest :=
  ⟨_, by rw [readOffset_layoutList hi, Nat.mod_eq_of_lt (hlt _ (getD_mem_bodyStarts hi))],
    drop_layoutList_bodyStarts hi rest⟩

theorem drop_layout2_eight (A B : Bytes) : (layout2 A B).drop 8 = A ++ B := by
  rw [layout2, List.append_assoc]
  exact List.drop_left' (by simp)

/-- Below `2 ^ 32` each offset `encode` writes, read back, points at its field: the
container's first at the transaction list, its second at the uncles' RLP list, and the `i`-th
of the transaction list, counted from where that list starts, at the `i`-th transaction's
RLP. -/
theorem BlockBody.encode_offsets_read (v : BlockBody Tx Header)
    (hcount : v.transactions.length ≤ 16384)
    (htx : ∀ t ∈ v.transactions, (tx.encode t).length ≤ 2 ^ 24)
    (huncles : (hdr.list.encode v.uncles).length ≤ 131072)
    (hlt : 8 + 4 * v.transactions.length + (v.transactions.flatMap tx.encode).length < 2 ^ 32) :
    ∃ bytes, BlockBody.encode hdr tx v [] = .ok bytes ∧
      (∃ p, readOffset bytes = .ok p ∧
        bytes.drop p = layoutList (v.transactions.map tx.encode) ++ hdr.list.encode v.uncles) ∧
      (∃ p, readOffset (bytes.drop 4) = .ok p ∧ bytes.drop p = hdr.list.encode v.uncles) ∧
      ∀ i < v.transactions.length, ∃ p, readOffset ((bytes.drop 8).drop (4 * i)) = .ok p ∧
        (bytes.drop 8).drop p =
          (v.transactions.drop i).flatMap tx.encode ++ hdr.list.encode v.uncles := by
  have hA := layoutList_map_length (c := tx) v.transactions
  refine ⟨_, BlockBody.encode_of_bounds hdr tx v hcount
    (fun t ht => (htx t ht).trans (by norm_num)) huncles [], ⟨8, ?_, drop_layout2_eight _ _⟩,
    ⟨8 + (layoutList (v.transactions.map tx.encode)).length, ?_, ?_⟩, fun i hi => ?_⟩
  · rw [List.nil_append, layout2, List.append_assoc, List.append_assoc, readOffset_encodeLength]
    rfl
  · rw [List.nil_append, layout2_drop_four, readOffset_encodeLength, Nat.mod_eq_of_lt (by omega)]
  · rw [List.nil_append, ← List.drop_drop, drop_layout2_eight]
    exact List.drop_left _ _
  · have hi' : i < (v.transactions.map tx.encode).length := by rwa [List.length_map]
    obtain ⟨p, hp, hdrop⟩ := readOffset_layoutList_points hi' (fun p hp => by
      have := (le_of_mem_bodyStarts hp).trans_eq (length_layoutList _).symm
      omega) (hdr.list.encode v.uncles)
    rw [List.nil_append, drop_layout2_eight]
    exact ⟨p, hp, by rw [hdrop, ← List.map_drop, ← List.flatMap_def]⟩

/-- Below `2 ^ 32` the `i`-th offset of the receipt list, read back, points at the `i`-th
receipt's RLP. -/
theorem Receipts.sszEncoding_offsets_read {receipts : List Receipt}
    (hcount : receipts.length ≤ 16384) (hlen : ∀ r ∈ receipts, (rc.encode r).length ≤ 2 ^ 27)
    (hlt : 4 * receipts.length + (receipts.dropLast.flatMap rc.encode).length < 2 ^ 32)
    {i : Nat} (hi : i < receipts.length) :
    ∃ p, readOffset ((Receipts.sszEncoding rc receipts).drop (4 * i)) = .ok p ∧
      (Receipts.sszEncoding rc receipts).drop p = (receipts.drop i).flatMap rc.encode := by
  have hi' : i < (receipts.map rc.encode).length := by rwa [List.length_map]
  obtain ⟨p, hp, hdrop⟩ := readOffset_layoutList_points hi'
    ((Receipts.forall_offsetPositions_lt_iff rc receipts).mpr hlt) []
  rw [List.append_nil, ← Receipts.sszEncoding_eq_layoutList rc hcount hlen] at hp hdrop
  exact ⟨p, hp, by rw [hdrop, List.append_nil, ← List.map_drop, ← List.flatMap_def]⟩

/-- Within the declared bounds, while the positions stay below `2 ^ 32`, each offset both
encoders write, read back, points at its field: for a block body, the container's two at the
transaction list and the uncles' RLP and the transaction list's own at each transaction's RLP;
for receipts, each at its receipt's RLP. -/
theorem encode_offsets_point :
    (∀ v : BlockBody Tx Header, v.transactions.length ≤ 16384 →
      (∀ t ∈ v.transactions, (tx.encode t).length ≤ 2 ^ 24) →
      (hdr.list.encode v.uncles).length ≤ 131072 →
      8 + 4 * v.transactions.length + (v.transactions.flatMap tx.encode).length < 2 ^ 32 →
      ∃ bytes, BlockBody.encode hdr tx v [] = .ok bytes ∧
        (∃ p, readOffset bytes = .ok p ∧
          bytes.drop p = layoutList (v.transactions.map tx.encode) ++ hdr.list.encode v.uncles) ∧
        (∃ p, readOffset (bytes.drop 4) = .ok p ∧ bytes.drop p = hdr.list.encode v.uncles) ∧
        ∀ i < v.transactions.length, ∃ p, readOffset ((bytes.drop 8).drop (4 * i)) = .ok p ∧
          (bytes.drop 8).drop p =
            (v.transactions.drop i).flatMap tx.encode ++ hdr.list.encode v.uncles) ∧
    ∀ receipts : List Receipt, receipts.length ≤ 16384 →
      (∀ r ∈ receipts, (rc.encode r).length ≤ 2 ^ 27) →
      4 * receipts.length + (receipts.dropLast.flatMap rc.encode).length < 2 ^ 32 →
      ∀ i < receipts.length, ∃ p,
        readOffset ((Receipts.sszEncoding rc receipts).drop (4 * i)) = .ok p ∧
          (Receipts.sszEncoding rc receipts).drop p = (receipts.drop i).flatMap rc.encode :=
  ⟨fun v hcount htx huncles hlt => BlockBody.encode_offsets_read hdr tx v hcount htx huncles hlt,
    fun _ hcount hlen hlt _ hi => Receipts.sszEncoding_offsets_read rc hcount hlen hlt hi⟩

end Reading

theorem encode_offsets_point_u8 :
    let v : BlockBody UInt8 UInt8 := ⟨[1, 2], [3]⟩
    let receipts : List UInt8 := [4, 5]
    (v.transactions.length ≤ 16384 ∧
      (∀ t ∈ v.transactions, (Rlp.Codec.u8.encode t).length ≤ 2 ^ 24) ∧
      (Rlp.Codec.u8.list.encode v.uncles).length ≤ 131072 ∧
      8 + 4 * v.transactions.length + (v.transactions.flatMap Rlp.Codec.u8.encode).length <
        2 ^ 32 ∧
      ∃ bytes, BlockBody.encode Rlp.Codec.u8 Rlp.Codec.u8 v [] = .ok bytes ∧
        (∃ p, readOffset bytes = .ok p ∧ bytes.drop p =
          layoutList (v.transactions.map Rlp.Codec.u8.encode) ++
            Rlp.Codec.u8.list.encode v.uncles) ∧
        (∃ p, readOffset (bytes.drop 4) = .ok p ∧
          bytes.drop p = Rlp.Codec.u8.list.encode v.uncles) ∧
        ∀ i < v.transactions.length, ∃ p, readOffset ((bytes.drop 8).drop (4 * i)) = .ok p ∧
          (bytes.drop 8).drop p = (v.transactions.drop i).flatMap Rlp.Codec.u8.encode ++
            Rlp.Codec.u8.list.encode v.uncles) ∧
    (receipts.length ≤ 16384 ∧ (∀ r ∈ receipts, (Rlp.Codec.u8.encode r).length ≤ 2 ^ 27) ∧
      4 * receipts.length + (receipts.dropLast.flatMap Rlp.Codec.u8.encode).length < 2 ^ 32 ∧
      1 < receipts.length ∧ ∃ p,
        readOffset ((Receipts.sszEncoding Rlp.Codec.u8 receipts).drop (4 * 1)) = .ok p ∧
          (Receipts.sszEncoding Rlp.Codec.u8 receipts).drop p =
            (receipts.drop 1).flatMap Rlp.Codec.u8.encode) :=
  ⟨⟨by decide, by decide, by decide, by decide,
      (encode_offsets_point Rlp.Codec.u8 Rlp.Codec.u8 Rlp.Codec.u8).1 _ (by decide) (by decide)
        (by decide) (by decide)⟩,
    ⟨by decide, by decide, by decide, by decide,
      (encode_offsets_point Rlp.Codec.u8 Rlp.Codec.u8 Rlp.Codec.u8).2 _ (by decide) (by decide)
        (by decide) 1 (by decide)⟩⟩

end Trin
