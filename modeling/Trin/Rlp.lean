import Trin.Basic

/-! RLP as `reth_rlp` reads and writes it: the header every item starts with, the
`Encodable`/`Decodable` pair of one type, and the two impls the content items use
themselves, `Vec<E>` (the uncle list of a block body) and `u8`. -/
namespace Trin.Rlp

/-- `reth_rlp::DecodeError` -/
inductive DecodeError where
  | overflow
  | leadingZero
  | inputTooShort
  | nonCanonicalSingleByte
  | nonCanonicalSize
  | unexpectedLength
  | unexpectedString
  | unexpectedList
  | listLengthMismatch (expected got : Nat)
  | custom (msg : String)
  deriving DecidableEq, Repr

def emptyStringCode : UInt8 := 0x80
def emptyListCode : UInt8 := 0xC0

/-- `reth_rlp::Header` -/
structure Header where
  list : Bool
  payloadLength : Nat
  deriving DecidableEq, Repr

/-- `zeroless_view(&n.to_be_bytes())` for a `usize` `n`. -/
def zerolessBe (n : Nat) : Bytes := (leBytes 8 n).reverse.dropWhile (· == 0)

/-- `Header::encode` -/
def Header.encode (h : Header) : Bytes :=
  if h.payloadLength < 56 then
    [(if h.list then emptyListCode else emptyStringCode) + UInt8.ofNat h.payloadLength]
  else
    let lenBe := zerolessBe h.payloadLength
    ((if h.list then 0xF7 else 0xB7) + UInt8.ofNat lenBe.length) :: lenBe

theorem leValue_reverse_dropWhile_zero (l : Bytes) :
    leValue (l.dropWhile (· == 0)).reverse = leValue l.reverse := by
  induction l with
  | nil => rfl
  | cons b l ih =>
    rw [List.dropWhile_cons]
    split
    · rename_i hb
      rw [ih, List.reverse_cons, leValue_append, beq_iff_eq.mp hb]
      simp [leValue]
    · rfl

theorem dropWhile_zero_replicate (k : Nat) (l : Bytes) :
    (List.replicate k 0 ++ l).dropWhile (· == 0) = l.dropWhile (· == 0) :=
  List.dropWhile_append_of_pos (by simp [List.mem_replicate])

theorem length_zerolessBe_le (n : Nat) : (zerolessBe n).length ≤ 8 := by
  simpa using (List.dropWhile_suffix (· == (0 : UInt8)) (l := (leBytes 8 n).reverse)).length_le

/-- A header takes at most nine bytes: a prefix byte and up to eight length bytes. -/
theorem Header.length_encode_le (h : Header) : h.encode.length ≤ 9 := by
  unfold Header.encode
  split
  · simp
  · simpa using length_zerolessBe_le h.payloadLength

/-- The length bytes `Header::encode` writes: at most eight, none of them a leading zero,
and read back big-endian they are the length. -/
theorem zerolessBe_spec {n : Nat} (hn : n < 256 ^ 8) :
    leValue (zerolessBe n).reverse = n ∧ (zerolessBe n).length ≤ 8 ∧
      ∀ b ∈ (zerolessBe n).head?, b ≠ 0 := by
  refine ⟨?_, ?_, ?_⟩
  · rw [zerolessBe, leValue_reverse_dropWhile_zero, List.reverse_reverse,
      leValue_leBytes_of_lt hn]
  · exact length_zerolessBe_le n
  · intro b hb
    have := List.head?_dropWhile_not (· == (0 : UInt8)) (leBytes 8 n).reverse
    rw [show List.dropWhile _ _ = zerolessBe n from rfl, hb] at this
    simpa using this

/-- Length bytes without a leading zero are the ones `Header::encode` writes for their value. -/
theorem zerolessBe_leValue {b : UInt8} {data : Bytes} (hb : b ≠ 0)
    (hlen : (b :: data).length ≤ 8) :
    zerolessBe (leValue (b :: data).reverse) = b :: data := by
  have hpad := leBytes_leValue_add (b :: data).reverse (8 - (b :: data).length)
  rw [List.length_reverse, Nat.add_sub_cancel' hlen] at hpad
  rw [zerolessBe, hpad, List.reverse_append, List.reverse_reverse, List.reverse_replicate,
    dropWhile_zero_replicate, List.dropWhile_cons, if_neg (by simpa using hb)]

/-- `static_left_pad::<len>` read big-endian: `none` for more than `len` bytes or a
leading zero. -/
def staticLeftPad (len : Nat) (data : Bytes) : Option Nat :=
  if len < data.length then none
  else match data with
    | [] => some 0
    | b :: _ => if b = 0 then none else some (leValue data.reverse)

/-- The last check of `Header::decode`: the whole payload must follow the header. -/
def Header.checkPayload (h : Header) (buf : Bytes) : Except DecodeError (Header × Bytes) :=
  if buf.length < h.payloadLength then .error .inputTooShort else .ok (h, buf)

/-- The long forms of `Header::decode`, past the first byte: `lenOfLen` bytes of length. -/
def Header.decodeLong (list : Bool) (lenOfLen : Nat) (buf : Bytes) :
    Except DecodeError (Header × Bytes) :=
  if buf.length < lenOfLen then .error .inputTooShort
  else match staticLeftPad 8 (buf.take lenOfLen) with
    | none => .error .leadingZero
    | some payloadLength =>
      if payloadLength < 56 then .error .nonCanonicalSize
      else Header.checkPayload ⟨list, payloadLength⟩ (buf.drop lenOfLen)

/-- `Header::decode`: the header and the bytes after it. A byte below `0x80` is its own
payload, so for it nothing is consumed. -/
def Header.decode : Bytes → Except DecodeError (Header × Bytes)
  | [] => .error .inputTooShort
  | b :: rest =>
    if b < 0x80 then Header.checkPayload ⟨false, 1⟩ (b :: rest)
    else if b < 0xB8 then
      if b.toNat - 0x80 = 1 then
        match rest with
        | [] => .error .inputTooShort
        | c :: _ =>
          if c < 0x80 then .error .nonCanonicalSingleByte
          else Header.checkPayload ⟨false, 1⟩ rest
      else Header.checkPayload ⟨false, b.toNat - 0x80⟩ rest
    else if b < 0xC0 then Header.decodeLong false (b.toNat - 0xB7) rest
    else if b < 0xF8 then Header.checkPayload ⟨true, b.toNat - 0xC0⟩ rest
    else Header.decodeLong true (b.toNat - 0xF7) rest

theorem Header.decode_cons (b : UInt8) (rest : Bytes) :
    Header.decode (b :: rest) =
      if b < 0x80 then Header.checkPayload ⟨false, 1⟩ (b :: rest)
      else if b < 0xB8 then
        if b.toNat - 0x80 = 1 then
          match rest with
          | [] => .error .inputTooShort
          | c :: _ =>
            if c < 0x80 then .error .nonCanonicalSingleByte
            else Header.checkPayload ⟨false, 1⟩ rest
        else Header.checkPayload ⟨false, b.toNat - 0x80⟩ rest
      else if b < 0xC0 then Header.decodeLong false (b.toNat - 0xB7) rest
      else if b < 0xF8 then Header.checkPayload ⟨true, b.toNat - 0xC0⟩ rest
      else Header.decodeLong true (b.toNat - 0xF7) rest := rfl

section DecodeBranches
variable {b : UInt8} (rest : Bytes)

theorem Header.decode_single (h : b.toNat < 0x80) :
    Header.decode (b :: rest) = Header.checkPayload ⟨false, 1⟩ (b :: rest) := by
  rw [decode_cons, if_pos (by simp [byte_lt_iff]; omega)]

theorem Header.decode_string (h1 : 0x80 ≤ b.toNat) (h2 : b.toNat < 0xB8) (h3 : b.toNat ≠ 0x81) :
    Header.decode (b :: rest) = Header.checkPayload ⟨false, b.toNat - 0x80⟩ rest := by
  rw [decode_cons, if_neg (by simp [byte_lt_iff]; omega), if_pos (by simp [byte_lt_iff]; omega),
    if_neg (by omega)]

theorem Header.decode_string_one {c : UInt8} (h : b.toNat = 0x81) :
    Header.decode (b :: c :: rest) = if c < 0x80 then .error .nonCanonicalSingleByte
      else Header.checkPayload ⟨false, 1⟩ (c :: rest) := by
  rw [decode_cons, if_neg (by simp [byte_lt_iff]; omega), if_pos (by simp [byte_lt_iff]; omega),
    if_pos (by omega)]

theorem Header.decode_string_long (h1 : 0xB8 ≤ b.toNat) (h2 : b.toNat < 0xC0) :
    Header.decode (b :: rest) = Header.decodeLong false (b.toNat - 0xB7) rest := by
  rw [decode_cons, if_neg (by simp [byte_lt_iff]; omega), if_neg (by simp [byte_lt_iff]; omega),
    if_pos (by simp [byte_lt_iff]; omega)]

theorem Header.decode_list (h1 : 0xC0 ≤ b.toNat) (h2 : b.toNat < 0xF8) :
    Header.decode (b :: rest) = Header.checkPayload ⟨true, b.toNat - 0xC0⟩ rest := by
  rw [decode_cons, if_neg (by simp [byte_lt_iff]; omega), if_neg (by simp [byte_lt_iff]; omega),
    if_neg (by simp [byte_lt_iff]; omega), if_pos (by simp [byte_lt_iff]; omega)]

theorem Header.decode_list_long (h : 0xF8 ≤ b.toNat) :
    Header.decode (b :: rest) = Header.decodeLong true (b.toNat - 0xF7) rest := by
  rw [decode_cons, if_neg (by simp [byte_lt_iff]; omega), if_neg (by simp [byte_lt_iff]; omega),
    if_neg (by simp [byte_lt_iff]; omega), if_neg (by simp [byte_lt_iff]; omega)]

end DecodeBranches

/-- A list header reads back from its encoding, whatever follows the payload. -/
theorem Header.decode_encode_list {n : Nat} {rest : Bytes} (hn : n < 256 ^ 8)
    (hr : n ≤ rest.length) :
    Header.decode ((Header.mk true n).encode ++ rest) = .ok (⟨true, n⟩, rest) := by
  by_cases hs : n < 56
  · have hb : (emptyListCode + UInt8.ofNat n).toNat = 192 + n := by
      rw [UInt8.toNat_add, toNat_ofNat_byte]; show (192 + n % 256) % 256 = _; omega
    have he : (Header.mk true n).encode = [emptyListCode + UInt8.ofNat n] := by
      simp [Header.encode, hs]
    rw [he, List.singleton_append, Header.decode_list _ (by omega) (by omega), hb,
      Nat.add_sub_cancel_left, Header.checkPayload, if_neg (Nat.not_lt.mpr hr)]
  · obtain ⟨hv, hl, hh⟩ := zerolessBe_spec hn
    obtain ⟨b, data, hz⟩ : ∃ b data, zerolessBe n = b :: data := by
      cases h : zerolessBe n with
      | nil => rw [h] at hv; simp [leValue] at hv; omega
      | cons b data => exact ⟨b, data, rfl⟩
    rw [hz] at hv hl hh
    have hb : ((0xF7 : UInt8) + UInt8.ofNat (b :: data).length).toNat =
        247 + (b :: data).length := by
      rw [UInt8.toNat_add, toNat_ofNat_byte]; show (247 + _ % 256) % 256 = _; omega
    have he : (Header.mk true n).encode =
        ((0xF7 : UInt8) + UInt8.ofNat (b :: data).length) :: b :: data := by
      simp [Header.encode, hs, hz]
    have hpad : staticLeftPad 8 (b :: data) = some n := by
      rw [staticLeftPad, if_neg (by omega)]
      show (if b = 0 then none else some (leValue (b :: data).reverse)) = some n
      rw [if_neg (hh b rfl), hv]
    rw [he, List.cons_append, Header.decode_list_long _ (by rw [hb, List.length_cons]; omega), hb,
      Nat.add_sub_cancel_left, Header.decodeLong, if_neg (by simp), List.take_left' rfl, hpad]
    simp only [if_neg hs, Header.checkPayload, List.drop_left' rfl, if_neg (Nat.not_lt.mpr hr)]

theorem staticLeftPad_eq_some {len p : Nat} {data : Bytes} (h : staticLeftPad len data = some p) :
    (data = [] ∧ p = 0) ∨
      ∃ c d, data = c :: d ∧ c ≠ 0 ∧ data.length ≤ len ∧ p = leValue data.reverse := by
  unfold staticLeftPad at h
  split at h
  · cases h
  · split at h
    · exact .inl ⟨rfl, (Option.some.inj h).symm⟩
    · split at h
      · cases h
      · exact .inr ⟨_, _, rfl, ‹_›, by omega, (Option.some.inj h).symm⟩

theorem Header.checkPayload_eq_ok {h h' : Header} {buf rest : Bytes}
    (hc : h.checkPayload buf = .ok (h', rest)) :
    h' = h ∧ rest = buf ∧ h.payloadLength ≤ buf.length := by
  unfold checkPayload at hc
  split at hc
  · cases hc
  · cases hc; exact ⟨rfl, rfl, by omega⟩

/-- A long-form header is accepted only with its length written as `Header::encode` writes
it: one to eight bytes, no leading zero, and a value of at least 56. -/
theorem Header.decodeLong_ok {list : Bool} {lenOfLen : Nat} {buf rest : Bytes} {h : Header}
    (hd : Header.decodeLong list lenOfLen buf = .ok (h, rest)) :
    h.list = list ∧ 56 ≤ h.payloadLength ∧ h.payloadLength ≤ rest.length ∧
      lenOfLen ≤ buf.length ∧ rest = buf.drop lenOfLen ∧
      zerolessBe h.payloadLength = buf.take lenOfLen := by
  unfold decodeLong at hd
  split at hd
  · cases hd
  · split at hd
    · cases hd
    · rename_i p hp'
      split at hd
      · cases hd
      · obtain ⟨rfl, rfl, hp⟩ := checkPayload_eq_ok hd
        dsimp only at hp ⊢
        refine ⟨rfl, by omega, hp, by omega, rfl, ?_⟩
        rcases staticLeftPad_eq_some hp' with ⟨-, rfl⟩ | ⟨c, d, hcd, hc, hlen, rfl⟩
        · omega
        · rw [hcd]; exact zerolessBe_leValue hc (hcd ▸ hlen)

/-- A list header is accepted only in the form `Header::encode` writes. -/
theorem Header.decode_list_canonical {buf rest : Bytes} {h : Header}
    (hd : Header.decode buf = .ok (h, rest)) (hl : h.list = true) : buf = h.encode ++ rest := by
  match buf, hd with
  | b :: tl, hd =>
    have hb := toNat_lt_byte b
    by_cases h1 : b.toNat < 0xC0
    · exfalso
      by_cases h2 : b.toNat < 0x80
      · rw [decode_single _ h2] at hd; cases (checkPayload_eq_ok hd).1; cases hl
      by_cases h3 : b.toNat < 0xB8
      · by_cases h4 : b.toNat = 0x81
        · cases tl with
          | nil => simp [decode_cons, byte_lt_iff, h4] at hd
          | cons c tl =>
            rw [decode_string_one _ h4] at hd
            split at hd
            · cases hd
            · cases (checkPayload_eq_ok hd).1; cases hl
        · rw [decode_string _ (by omega) h3 h4] at hd; cases (checkPayload_eq_ok hd).1; cases hl
      · rw [decode_string_long _ (by omega) h1] at hd
        rw [(decodeLong_ok hd).1] at hl; cases hl
    by_cases h5 : b.toNat < 0xF8
    · rw [decode_list _ (by omega) h5] at hd
      obtain ⟨rfl, rfl, -⟩ := checkPayload_eq_ok hd
      have he : Header.encode ⟨true, b.toNat - 0xC0⟩ =
          [emptyListCode + UInt8.ofNat (b.toNat - 0xC0)] := by
        rw [Header.encode, if_pos (show b.toNat - 0xC0 < 56 by omega)]; rfl
      rw [he, List.singleton_append, List.cons.injEq, UInt8.ext_iff, UInt8.toNat_add,
        toNat_ofNat_byte]
      exact ⟨by show _ = (192 + _) % 256; omega, rfl⟩
    · rw [decode_list_long _ (by omega)] at hd
      obtain ⟨-, h56, -, hL, hrest, hz⟩ := decodeLong_ok hd
      rw [hrest]
      have hlen : (zerolessBe h.payloadLength).length = b.toNat - 0xF7 := by
        rw [hz, List.length_take]; omega
      have hb' : (0xF7 : UInt8) + UInt8.ofNat (b.toNat - 0xF7) = b := by
        rw [UInt8.ext_iff, UInt8.toNat_add, toNat_ofNat_byte]; show (247 + _) % 256 = _; omega
      rw [Header.encode, if_neg (by omega), hl, if_pos rfl]
      dsimp only
      rw [hlen, hb', hz, List.cons_append, List.take_append_drop]

/-- The `Encodable`/`Decodable` impls of one type. `decode` reads one item off the front of
the slice and returns the bytes after it. An RLP item is never empty, so a decode that
succeeds has consumed input: this is what ends the item loop of `Vec<E>::decode`. -/
structure Codec (α : Type) where
  encode : α → Bytes
  decode : Bytes → Except DecodeError (α × Bytes)
  decode_consumes : ∀ {buf a rest}, decode buf = .ok (a, rest) → rest.length < buf.length

variable {α : Type}

/-- The codec reads back the value it wrote, and leaves what followed the item unread. -/
def Codec.RoundTrips (c : Codec α) (a : α) : Prop :=
  ∀ rest, c.decode (c.encode a ++ rest) = .ok (a, rest)

/-- Every item the codec accepts is the encoding of the value it returns. -/
def Codec.Canonical (c : Codec α) : Prop :=
  ∀ {buf a rest}, c.decode buf = .ok (a, rest) → buf = c.encode a ++ rest

/-- `while !payload_view.is_empty() { to.push(E::decode(payload_view)?) }` in
`Vec<E>::decode`. -/
def Codec.decodeItems (c : Codec α) (payload : Bytes) : Except DecodeError (List α) :=
  if payload.isEmpty then .ok []
  else
    match h : c.decode payload with
    | .error e => .error e
    | .ok (a, rest) =>
      have : rest.length < payload.length := c.decode_consumes h
      (a :: ·) <$> c.decodeItems rest
termination_by payload.length

theorem Codec.decodeItems_nil (c : Codec α) : c.decodeItems [] = .ok [] := by
  rw [decodeItems]; rfl

theorem Codec.decodeItems_of_ok {c : Codec α} {p rest : Bytes} {a : α} (hp : p ≠ [])
    (h : c.decode p = .ok (a, rest)) : c.decodeItems p = (a :: ·) <$> c.decodeItems rest := by
  rw [decodeItems, if_neg (by simpa using hp)]
  split <;> simp_all

/-- No item is read from no bytes. -/
theorem Codec.decode_nil (c : Codec α) : ∃ e, c.decode [] = .error e := by
  cases h : c.decode [] with
  | error e => exact ⟨e, rfl⟩
  | ok p => exact absurd (c.decode_consumes h) (Nat.not_lt_zero _)

theorem Codec.RoundTrips.encode_ne_nil {c : Codec α} {a : α} (h : c.RoundTrips a) :
    c.encode a ≠ [] := by
  intro he
  have := c.decode_consumes (h [])
  simp [he] at this

/-- Items that each round-trip are read back from their encodings laid end to end. -/
theorem Codec.decodeItems_flatMap {c : Codec α} {xs : List α} (h : ∀ x ∈ xs, c.RoundTrips x) :
    c.decodeItems (xs.flatMap c.encode) = .ok xs := by
  induction xs with
  | nil => exact c.decodeItems_nil
  | cons x xs ih =>
    have hx := h x (List.mem_cons_self x xs)
    rw [List.flatMap_cons, decodeItems_of_ok (by simp [hx.encode_ne_nil]) (hx _),
      ih fun y hy => h y (List.mem_cons_of_mem x hy)]
    rfl

/-- With a canonical item codec, a payload is read only if it is the items' encodings laid
end to end. -/
theorem Codec.decodeItems_canonical {c : Codec α} (hc : c.Canonical) {p : Bytes} {xs : List α}
    (h : c.decodeItems p = .ok xs) : p = xs.flatMap c.encode := by
  induction p using Codec.decodeItems.induct c generalizing xs with
  | case1 p hp =>
    rw [decodeItems, if_pos hp] at h
    cases h
    simpa using hp
  | case2 p hp e he =>
    rw [decodeItems, if_neg hp] at h
    split at h <;> simp_all
  | case3 p hp a rest hd _ ih =>
    rw [decodeItems_of_ok (by simpa using hp) hd] at h
    obtain ⟨ys, hys, rfl⟩ : ∃ ys, c.decodeItems rest = .ok ys ∧ xs = a :: ys := by
      cases hr : c.decodeItems rest <;> simp_all
    rw [hc hd, ih hys, List.flatMap_cons]

theorem Header.decode_ok {buf rest : Bytes} {h : Header}
    (hd : Header.decode buf = .ok (h, rest)) :
    h.payloadLength ≤ rest.length ∧
      (rest.length < buf.length ∨ (h = ⟨false, 1⟩ ∧ rest = buf)) := by
  match buf, hd with
  | b :: tl, hd =>
    simp only [Header.decode] at hd
    split at hd
    · obtain ⟨rfl, rfl, hp⟩ := checkPayload_eq_ok hd
      exact ⟨hp, .inr ⟨rfl, rfl⟩⟩
    split at hd
    · split at hd
      · split at hd
        · cases hd
        · split at hd
          · cases hd
          · obtain ⟨rfl, rfl, hp⟩ := checkPayload_eq_ok hd
            exact ⟨hp, .inl (by simp)⟩
      · obtain ⟨rfl, rfl, hp⟩ := checkPayload_eq_ok hd
        exact ⟨hp, .inl (by simp)⟩
    split at hd
    · obtain ⟨-, -, hp, -, hr, -⟩ := decodeLong_ok hd
      exact ⟨hp, .inl (by rw [hr, List.length_drop, List.length_cons]; omega)⟩
    split at hd
    · obtain ⟨rfl, rfl, hp⟩ := checkPayload_eq_ok hd
      exact ⟨hp, .inl (by simp)⟩
    · obtain ⟨-, -, hp, -, hr, -⟩ := decodeLong_ok hd
      exact ⟨hp, .inl (by rw [hr, List.length_drop, List.length_cons]; omega)⟩

/-- `Vec<E>::decode` -/
def Codec.decodeList (c : Codec α) (buf : Bytes) : Except DecodeError (List α × Bytes) := do
  let (h, buf) ← Header.decode buf
  if !h.list then throw .unexpectedString
  let items ← c.decodeItems (buf.take h.payloadLength)
  return (items, buf.drop h.payloadLength)

theorem Codec.decodeList_eq_ok {c : Codec α} {buf rest : Bytes} {items : List α} :
    c.decodeList buf = .ok (items, rest) ↔ ∃ h buf', Header.decode buf = .ok (h, buf') ∧
      h.list = true ∧ c.decodeItems (buf'.take h.payloadLength) = .ok items ∧
      rest = buf'.drop h.payloadLength := by
  simp only [decodeList, Except.bind_eq_ok, Prod.exists]
  constructor
  · rintro ⟨h, buf', hh, hd⟩
    refine ⟨h, buf', hh, ?_⟩
    cases hl : h.list <;> simp [hl, Except.bind_eq_ok] at hd
    obtain ⟨items, hi, rfl, rfl⟩ := hd
    exact ⟨rfl, hi, rfl⟩
  · rintro ⟨h, buf', hh, hl, hi, rfl⟩
    exact ⟨h, buf', hh, by simp [hl, hi]⟩

/-- `Vec<E>`'s impls: `encode_list` writes a list header over the items' encodings
(`rlp_list_header` adds up `E::length()`, the length of each item's encoding). -/
def Codec.list (c : Codec α) : Codec (List α) where
  encode xs := (Header.mk true (xs.flatMap c.encode).length).encode ++ xs.flatMap c.encode
  decode := c.decodeList
  decode_consumes := by
    intro buf a rest hd
    obtain ⟨h, buf', hh, hl, -, rfl⟩ := decodeList_eq_ok.mp hd
    have : buf'.length < buf.length :=
      (Header.decode_ok hh).2.resolve_right (by rintro ⟨rfl, -⟩; cases hl)
    simp only [List.length_drop]
    omega

@[simp] theorem Codec.list_encode (c : Codec α) (xs : List α) :
    c.list.encode xs =
      (Header.mk true (xs.flatMap c.encode).length).encode ++ xs.flatMap c.encode := rfl

@[simp] theorem Codec.list_decode (c : Codec α) : c.list.decode = c.decodeList := rfl

/-- A list round-trips when its items do and its payload length fits a `usize`. -/
theorem Codec.list_roundTrips {c : Codec α} {xs : List α} (h : ∀ x ∈ xs, c.RoundTrips x)
    (hn : (xs.flatMap c.encode).length < 256 ^ 8) : c.list.RoundTrips xs := by
  intro rest
  rw [list_encode, list_decode, List.append_assoc, decodeList,
    Header.decode_encode_list hn (by simp)]
  simp [decodeItems_flatMap h]

/-- With a canonical item codec, only list encodings are read as lists. -/
theorem Codec.list_canonical {c : Codec α} (hc : c.Canonical) : c.list.Canonical := by
  intro buf xs rest hd
  obtain ⟨h, buf', hh, hl, hi, rfl⟩ := decodeList_eq_ok.mp hd
  have hp := (Header.decode_ok hh).1
  have hitems := decodeItems_canonical hc hi
  have hn : (xs.flatMap c.encode).length = h.payloadLength := by
    rw [← hitems, List.length_take, Nat.min_eq_left hp]
  calc buf = h.encode ++ (buf'.take h.payloadLength ++ buf'.drop h.payloadLength) := by
        rw [List.take_append_drop]; exact Header.decode_list_canonical hh hl
    _ = c.list.encode xs ++ buf'.drop h.payloadLength := by
        rw [hitems, list_encode, hn, List.append_assoc, ← hl]

/-- A header read as a list header was read from a first byte of at least `0xC0`. -/
theorem Header.decode_list_head {buf rest : Bytes} {h : Header}
    (hd : Header.decode buf = .ok (h, rest)) (hl : h.list = true) :
    ∃ b ∈ buf.head?, 0xC0 ≤ b.toNat := by
  match buf, hd with
  | b :: tl, hd =>
    refine ⟨b, rfl, Nat.not_lt.mp fun hb => ?_⟩
    rw [Header.decode_cons] at hd
    split at hd
    · simp [(checkPayload_eq_ok hd).1] at hl
    split at hd
    · split at hd
      · split at hd
        · cases hd
        · split at hd
          · cases hd
          · simp [(checkPayload_eq_ok hd).1] at hl
      · simp [(checkPayload_eq_ok hd).1] at hl
    rw [if_pos (show b < 0xC0 from byte_lt_iff.mpr hb)] at hd
    simp [(decodeLong_ok hd).1] at hl

/-- The value's RLP is a list: its decoder reads only input that starts with a list header,
as the decoders of `Vec<E>` and of `Header` do (`if !rlp_head.list`). -/
def Codec.DecodesLists (c : Codec α) : Prop :=
  ∀ buf a rest, c.decode buf = .ok (a, rest) → ∃ b ∈ buf.head?, 0xC0 ≤ b.toNat

theorem Codec.list_decodesLists (c : Codec α) : c.list.DecodesLists := fun _ _ _ hd =>
  let ⟨_, _, hh, hl, _⟩ := decodeList_eq_ok.mp hd
  Header.decode_list_head hh hl

/-- A value whose decoder reads only lists is written with a list header first. -/
theorem Codec.DecodesLists.head_encode {c : Codec α} (hc : c.DecodesLists) {a : α}
    (h : c.RoundTrips a) : ∃ b ∈ (c.encode a).head?, 0xC0 ≤ b.toNat := by
  simpa using hc _ _ _ (h [])

/-- `u8`'s impls (`encodable_uint!`, `decode_integer!`): zero is the empty string, a byte
below `0x80` is its own encoding, any other is a one-byte string. -/
def Codec.u8 : Codec UInt8 where
  encode b :=
    if b = 0 then [emptyStringCode]
    else if b < emptyStringCode then [b]
    else [emptyStringCode + 1, b]
  decode buf := do
    let (h, buf) ← Header.decode buf
    if h.list then throw .unexpectedList
    else if 1 < h.payloadLength then throw .overflow
    else if buf.length < h.payloadLength then throw .inputTooShort
    else match staticLeftPad 1 (buf.take h.payloadLength) with
      | none => throw .leadingZero
      | some v => return (UInt8.ofNat v, buf.drop h.payloadLength)
  decode_consumes := by
    intro buf a rest hd
    obtain ⟨⟨h, buf'⟩, hh, hd⟩ := Except.bind_eq_ok.mp hd
    obtain ⟨hp, hl⟩ := Header.decode_ok hh
    cases hlist : h.list <;> simp only [hlist, Bool.false_eq_true, ite_false, ite_true] at hd
    · split at hd
      · cases hd
      · split at hd
        · cases hd
        · split at hd
          · cases hd
          · cases hd
            rcases hl with hl | ⟨rfl, rfl⟩
            · simp only [List.length_drop]; omega
            · dsimp only at hp; simp only [List.length_drop]; omega
    · cases hd

/-- What `u8`'s decode makes of a string header and the bytes after it. -/
theorem Codec.u8_decode_of_header {buf rest : Bytes} {n : Nat}
    (hh : Header.decode buf = .ok (⟨false, n⟩, rest)) :
    Codec.u8.decode buf =
      if 1 < n then .error .overflow
      else if rest.length < n then .error .inputTooShort
      else match staticLeftPad 1 (rest.take n) with
        | none => .error .leadingZero
        | some v => .ok (UInt8.ofNat v, rest.drop n) := by
  simp only [u8, hh, Except.ok_bind, Bool.false_eq_true, if_false]
  rfl

/-- Every byte round-trips: `u8`'s three encodings each read back to the byte. -/
theorem Codec.u8_roundTrips (b : UInt8) : Codec.u8.RoundTrips b := by
  intro rest
  have hpad : b ≠ 0 → staticLeftPad 1 [b] = some b.toNat := fun h0 => by
    simp [staticLeftPad, h0, leValue]
  by_cases h0 : b = 0
  · subst h0
    have hh : Header.decode (emptyStringCode :: rest) = .ok (⟨false, 0⟩, rest) := by
      rw [Header.decode_string _ (by decide) (by decide) (by decide)]; rfl
    show u8.decode ([emptyStringCode] ++ rest) = _
    rw [List.singleton_append, u8_decode_of_header hh]
    simp [staticLeftPad]
  by_cases hs : b.toNat < 0x80
  · have hh : Header.decode (b :: rest) = .ok (⟨false, 1⟩, b :: rest) := by
      rw [Header.decode_single _ hs]; simp [Header.checkPayload]
    have he : u8.encode b = [b] := by simp [u8, h0, byte_lt_iff, emptyStringCode, hs]
    rw [he, List.singleton_append, u8_decode_of_header hh]
    simp [hpad h0]
  · have hh : Header.decode ((emptyStringCode + 1) :: b :: rest) =
        .ok (⟨false, 1⟩, b :: rest) := by
      rw [Header.decode_string_one _ (by rfl), if_neg (by simpa [byte_lt_iff] using hs)]
      simp [Header.checkPayload]
    have he : u8.encode b = [emptyStringCode + 1, b] := by
      simp [u8, h0, byte_lt_iff, emptyStringCode, hs]
    rw [he, List.cons_append, List.singleton_append, u8_decode_of_header hh]
    simp [hpad h0]

theorem Codec.u8_decode_eq_ok {buf rest : Bytes} {a : UInt8}
    (hd : Codec.u8.decode buf = .ok (a, rest)) :
    ∃ n buf', Header.decode buf = .ok (⟨false, n⟩, buf') ∧ n ≤ 1 ∧
      staticLeftPad 1 (buf'.take n) = some a.toNat ∧ rest = buf'.drop n := by
  obtain ⟨⟨⟨list, n⟩, buf'⟩, hh, hd'⟩ := Except.bind_eq_ok.mp hd
  cases list
  · rw [u8_decode_of_header hh] at hd
    refine ⟨n, buf', hh, ?_⟩
    split at hd
    · cases hd
    split at hd
    · cases hd
    split at hd
    · cases hd
    · rename_i v hv
      cases hd
      obtain ⟨-, rfl⟩ | ⟨c, d, hcd, -, hlen, rfl⟩ := staticLeftPad_eq_some hv
      · exact ⟨by omega, by simpa using hv, rfl⟩
      · have hv' : leValue (c :: d).reverse < 256 := by
          have := leValue_lt (c :: d).reverse; simp only [List.length_reverse] at this
          simpa using lt_of_lt_of_le this
            (Nat.pow_le_pow_right (show 0 < 256 by decide) (hcd ▸ hlen))
        refine ⟨by omega, ?_, rfl⟩
        rw [hcd] at hv ⊢; rw [toNat_ofNat_byte, Nat.mod_eq_of_lt hv']; exact hv
  · simp [u8, hh] at hd'

/-- `u8`'s decode accepts only the three encodings its encode writes. -/
theorem Codec.u8_canonical : Codec.u8.Canonical := by
  intro buf a rest hd
  obtain ⟨n, buf', hh, hn, hpad, rfl⟩ := u8_decode_eq_ok hd
  /- A one-byte payload is the byte itself, and `static_left_pad` refuses it when zero. -/
  have single : ∀ {c : UInt8} {tl : Bytes}, staticLeftPad 1 ((c :: tl).take 1) = some a.toNat →
      c = a ∧ c ≠ 0 := by
    intro c tl hc
    by_cases h0 : c = 0
    · simp [staticLeftPad, h0] at hc
    · simp only [staticLeftPad, List.take, List.length_singleton, lt_self_iff_false, if_false,
        h0, List.reverse_singleton, leValue, Option.some.injEq] at hc
      exact ⟨UInt8.ext_iff.mpr (by omega), h0⟩
  match buf, hh with
  | b :: tl, hh =>
    have hb := toNat_lt_byte b
    by_cases h1 : b.toNat < 0x80
    · rw [Header.decode_single _ h1] at hh
      obtain ⟨h', rfl, -⟩ := Header.checkPayload_eq_ok hh
      cases h'
      obtain ⟨rfl, h0⟩ := single hpad
      simp [u8, h0, byte_lt_iff, emptyStringCode, h1]
    by_cases h2 : b.toNat < 0xB8
    · by_cases h3 : b.toNat = 0x81
      · cases tl with
        | nil => simp [Header.decode_cons, byte_lt_iff, h3] at hh
        | cons c tl =>
          rw [Header.decode_string_one _ h3] at hh
          split at hh
          · cases hh
          · rename_i hc
            obtain ⟨h', rfl, -⟩ := Header.checkPayload_eq_ok hh
            cases h'
            obtain ⟨rfl, h0⟩ := single hpad
            have hb' : b = emptyStringCode + 1 := UInt8.ext_iff.mpr (by rw [h3]; rfl)
            simp [u8, h0, hc, emptyStringCode, hb']
      · rw [Header.decode_string _ (by omega) h2 h3] at hh
        obtain ⟨h', rfl, -⟩ := Header.checkPayload_eq_ok hh
        have hn' := (Header.mk.inj h').2
        have hn0 : n = 0 := by omega
        subst hn0
        have ha : a = 0 := UInt8.ext_iff.mpr (by simpa [staticLeftPad] using hpad.symm)
        have hb' : b = emptyStringCode := UInt8.ext_iff.mpr (by show _ = 128; omega)
        simp [u8, ha, hb']
    · exfalso
      by_cases h4 : b.toNat < 0xC0
      · rw [Header.decode_string_long _ (by omega) h4] at hh
        have := (Header.decodeLong_ok hh).2.1
        dsimp only at this
        omega
      · have hl := (Header.decode_ok hh)
        by_cases h5 : b.toNat < 0xF8
        · rw [Header.decode_list _ (by omega) h5] at hh
          cases (Header.checkPayload_eq_ok hh).1
        · rw [Header.decode_list_long _ (by omega)] at hh
          cases (Header.decodeLong_ok hh).1

end Trin.Rlp
