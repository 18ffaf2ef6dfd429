import Trin.Truncation

/-! The string a `HistoryContentItem` travels as, read back: `0x` and the hex of its encoding,
then the five decoders in turn, of which `BlockBody::decode` ends every call it reaches. -/
namespace Trin
open Ssz

section Hex

theorem byte_le_iff {a b : UInt8} : a ≤ b ↔ a.toNat ≤ b.toNat :=
  UInt8.le_def.trans BitVec.le_def

/-- A byte is its high half shifted back into place, or-ed with its low half. -/
theorem byte_halves_or (b : UInt8) : (b >>> 4) <<< 4 ||| (b &&& 0xf) = b := by
  apply UInt8.eq_of_toBitVec_eq
  show (b.toBitVec >>> (4 : BitVec 8)) <<< (4 : BitVec 8) ||| b.toBitVec &&& 15 = b.toBitVec
  ext i
  simp only [BitVec.getLsbD_or, BitVec.getLsbD_and, BitVec.getLsbD_shiftLeft,
    BitVec.getLsbD_ushiftRight, BitVec.shiftLeft_eq', BitVec.ushiftRight_eq']
  have hi := i.isLt
  generalize i.val = k at hi ⊢
  interval_cases k <;> simp

theorem toNat_shiftRight_four_lt (b : UInt8) : (b >>> 4).toNat < 16 := by
  show (b.toBitVec >>> (4 : BitVec 8)).toNat < 16
  rw [BitVec.ushiftRight_eq', BitVec.toNat_ushiftRight, Nat.shiftRight_eq_div_pow,
    show (4 : BitVec 8).toNat = 4 from rfl]
  have := b.toBitVec.isLt
  omega

theorem toNat_and_fifteen_lt (b : UInt8) : (b &&& 0xf).toNat < 16 := by
  show (b.toBitVec &&& 15).toNat < 16
  rw [BitVec.toNat_and]
  exact Nat.lt_of_le_of_lt Nat.and_le_right (by decide)

set_option maxRecDepth 8000 in
theorem nibbles_or_halves : ∀ a b : Fin 16,
    (UInt8.ofNat a <<< 4 ||| UInt8.ofNat b) >>> 4 = UInt8.ofNat a ∧
      (UInt8.ofNat a <<< 4 ||| UInt8.ofNat b) &&& 0xf = UInt8.ofNat b := by
  decide

/-- Two halves below `16` are the halves of the byte they make. -/
theorem nibbles_of_lt {h l : UInt8} (hh : h.toNat < 16) (hl : l.toNat < 16) :
    (h <<< 4 ||| l) >>> 4 = h ∧ (h <<< 4 ||| l) &&& 0xf = l := by
  simpa using nibbles_or_halves ⟨h.toNat, hh⟩ ⟨l.toNat, hl⟩

/-- ASCII lower case: `A` to `Z` become `a` to `z`, every other byte is kept. -/
def asciiLower (c : UInt8) : UInt8 := if 65 ≤ c.toNat ∧ c.toNat ≤ 90 then c + 32 else c

/-- The code of the lower-case hex digit of value `n`. -/
def hexDigitCode (n : Nat) : Nat := if n < 10 then n + 48 else n + 87

/-- A hex digit in either case: in lower case it is one of the sixteen digits. -/
def IsHexDigit (c : UInt8) : Prop := ∃ n < 16, (asciiLower c).toNat = hexDigitCode n

theorem toNat_asciiLower (c : UInt8) : (asciiLower c).toNat =
    if 65 ≤ c.toNat ∧ c.toNat ≤ 90 then c.toNat + 32 else c.toNat := by
  unfold asciiLower
  split_ifs
  · simp only [UInt8.toNat_add, UInt8.toNat_ofNat, size_byte, Nat.reduceMod]; omega
  · rfl

/-- `val` on the byte's code: `A` to `F`, `a` to `f` and `0` to `9` are digits, any other
byte is an invalid character at the index given. -/
theorem val_eq (c : UInt8) (i : Nat) : val c i =
    if 65 ≤ c.toNat ∧ c.toNat ≤ 70 then .ok (UInt8.ofNat (c.toNat - 55))
    else if 97 ≤ c.toNat ∧ c.toNat ≤ 102 then .ok (UInt8.ofNat (c.toNat - 87))
    else if 48 ≤ c.toNat ∧ c.toNat ≤ 57 then .ok (UInt8.ofNat (c.toNat - 48))
    else .error (.invalidHexCharacter (Char.ofNat c.toNat) i) := by
  have hc := toNat_lt_byte c
  simp only [val, byte_le_iff, UInt8.toNat_ofNat, size_byte, Nat.reduceMod]
  split_ifs <;>
    simp (disch := (simp only [byte_le_iff, UInt8.toNat_ofNat, size_byte, Nat.reduceMod]; omega))
      only [Except.ok.injEq, UInt8.ext_iff, toNat_ofNat_byte, UInt8.toNat_add,
        UInt8.toNat_sub_of_le, UInt8.toNat_ofNat, size_byte, Nat.reduceMod] <;> omega

theorem val_eq_ok_iff (c : UInt8) (i : Nat) (x : UInt8) :
    val c i = .ok x ↔ x.toNat < 16 ∧ (asciiLower c).toNat = hexDigitCode x.toNat := by
  have hc := toNat_lt_byte c
  have hx := toNat_lt_byte x
  rw [val_eq, toNat_asciiLower, hexDigitCode]
  split_ifs <;> simp only [Except.ok.injEq, UInt8.ext_iff, toNat_ofNat_byte, reduceCtorEq,
    false_iff] <;> omega

theorem isHexDigit_iff (c : UInt8) (i : Nat) : IsHexDigit c ↔ ∃ x, val c i = .ok x := by
  constructor
  · rintro ⟨n, hn, h⟩
    refine ⟨UInt8.ofNat n, (val_eq_ok_iff c i _).mpr ?_⟩
    rw [toNat_ofNat_byte, Nat.mod_eq_of_lt (by omega)]
    exact ⟨hn, h⟩
  · rintro ⟨x, hx⟩
    exact ⟨x.toNat, (val_eq_ok_iff c i x).mp hx⟩

theorem val_eq_error_iff (c : UInt8) (i : Nat) (e : FromHexError) :
    val c i = .error e ↔ ¬IsHexDigit c ∧ e = .invalidHexCharacter (Char.ofNat c.toNat) i := by
  rw [isHexDigit_iff c i, val_eq]
  split_ifs <;> simp [eq_comm]

theorem eq_ofNat_hexDigitCode_iff {a : UInt8} {n : Nat} (hn : n < 16) :
    a = UInt8.ofNat (hexDigitCode n) ↔ a.toNat = hexDigitCode n := by
  rw [UInt8.ext_iff, toNat_ofNat_byte,
    Nat.mod_eq_of_lt (by unfold hexDigitCode; split_ifs <;> omega)]

/-- Two bytes read as one by `val`: exactly the lower-case digits of its halves, in either
case. -/
theorem val_pair_iff (c₁ c₂ x : UInt8) (i j : Nat) :
    (∃ h l, val c₁ i = .ok h ∧ val c₂ j = .ok l ∧ h <<< 4 ||| l = x) ↔
      asciiLower c₁ = UInt8.ofNat (hexDigitCode (x >>> 4).toNat) ∧
      asciiLower c₂ = UInt8.ofNat (hexDigitCode (x &&& 0xf).toNat) := by
  rw [eq_ofNat_hexDigitCode_iff (toNat_shiftRight_four_lt x),
    eq_ofNat_hexDigitCode_iff (toNat_and_fifteen_lt x)]
  constructor
  · rintro ⟨h, l, hh, hl, rfl⟩
    obtain ⟨hh16, hh'⟩ := (val_eq_ok_iff c₁ i h).mp hh
    obtain ⟨hl16, hl'⟩ := (val_eq_ok_iff c₂ j l).mp hl
    obtain ⟨e₁, e₂⟩ := nibbles_of_lt hh16 hl16
    rw [e₁, e₂]
    exact ⟨hh', hl'⟩
  · rintro ⟨h₁, h₂⟩
    exact ⟨_, _, (val_eq_ok_iff c₁ i _).mpr ⟨toNat_shiftRight_four_lt x, h₁⟩,
      (val_eq_ok_iff c₂ j _).mpr ⟨toNat_and_fifteen_lt x, h₂⟩, byte_halves_or x⟩

/-- Each of the sixteen digits `hex::encode` writes is the one ASCII byte of its code. -/
theorem utf8EncodeChar_hexCharsLower {n : Nat} (hn : n < 16) :
    String.utf8EncodeChar (hexCharsLower.getD n '0') = [UInt8.ofNat (hexDigitCode n)] := by
  interval_cases n <;> rfl

/-- The bytes of `hex::encode`'s string: the digits of each byte's two halves. -/
theorem asBytes_hexEncode_cons (b : UInt8) (data : Bytes) :
    asBytes (hexEncode (b :: data)) = UInt8.ofNat (hexDigitCode (b >>> 4).toNat) ::
      UInt8.ofNat (hexDigitCode (b &&& 0xf).toNat) :: asBytes (hexEncode data) := by
  simp only [asBytes, hexEncode, List.flatMap_cons, List.cons_append, List.nil_append,
    utf8EncodeChar_hexCharsLower (toNat_shiftRight_four_lt b),
    utf8EncodeChar_hexCharsLower (toNat_and_fifteen_lt b), List.singleton_append]

theorem length_asBytes_hexEncode (data : Bytes) :
    (asBytes (hexEncode data)).length = 2 * data.length := by
  induction data with
  | nil => rfl
  | cons b data ih =>
    rw [asBytes_hexEncode_cons, List.length_cons, List.length_cons, ih, List.length_cons]
    omega

theorem asciiLower_hexDigitCode {n : Nat} (hn : n < 16) :
    asciiLower (UInt8.ofNat (hexDigitCode n)) = UInt8.ofNat (hexDigitCode n) := by
  rw [eq_ofNat_hexDigitCode_iff hn, toNat_asciiLower, toNat_ofNat_byte,
    Nat.mod_eq_of_lt (by unfold hexDigitCode; split_ifs <;> omega)]
  unfold hexDigitCode
  split_ifs <;> omega

/-- `hex::encode` writes lower case only. -/
theorem map_asciiLower_hexEncode (data : Bytes) :
    (asBytes (hexEncode data)).map asciiLower = asBytes (hexEncode data) := by
  induction data with
  | nil => rfl
  | cons b data ih =>
    rw [asBytes_hexEncode_cons, List.map_cons, List.map_cons, ih,
      asciiLower_hexDigitCode (toNat_shiftRight_four_lt b),
      asciiLower_hexDigitCode (toNat_and_fifteen_lt b)]

theorem hexDecodePairs_cons_eq_ok_iff (k : Nat) (c₁ c₂ : UInt8) (rest : Bytes) (x : UInt8)
    (b : Bytes) : hexDecodePairs k (c₁ :: c₂ :: rest) = .ok (x :: b) ↔
      (∃ h l, val c₁ (2 * k) = .ok h ∧ val c₂ (2 * k + 1) = .ok l ∧ h <<< 4 ||| l = x) ∧
        hexDecodePairs (k + 1) rest = .ok b := by
  simp only [hexDecodePairs, Except.bind_eq_ok, Except.pure_eq_ok, Except.ok.injEq,
    List.cons.injEq]
  constructor
  · rintro ⟨h, hh, l, hl, bytes, hb, rfl, rfl⟩
    exact ⟨⟨h, l, hh, hl, rfl⟩, hb⟩
  · rintro ⟨⟨h, l, hh, hl, rfl⟩, hb⟩
    exact ⟨h, hh, l, hl, b, hb, rfl, rfl⟩

/-- The pairs of an even number of bytes read exactly when they are, in lower case, the hex
of the bytes returned. -/
theorem hexDecodePairs_eq_ok_iff {s : Bytes} (hs : s.length % 2 = 0) (k : Nat) (b : Bytes) :
    hexDecodePairs k s = .ok b ↔ s.map asciiLower = asBytes (hexEncode b) := by
  induction b generalizing s k with
  | nil =>
    match s, hs with
    | [], _ => exact iff_of_true rfl rfl
    | [_], h => simp at h
    | c₁ :: c₂ :: rest, _ =>
      refine iff_of_false (fun h => ?_) (by simp [asBytes, hexEncode])
      obtain ⟨_, -, _, -, _, -, h⟩ := by simpa only [hexDecodePairs, Except.bind_eq_ok] using h
      cases h
  | cons x b ih =>
    match s, hs with
    | [], _ => exact iff_of_false (by simp [hexDecodePairs]) (by simp [asBytes_hexEncode_cons])
    | [_], h => simp at h
    | c₁ :: c₂ :: rest, h =>
      have hr : rest.length % 2 = 0 := by simp at h; omega
      rw [hexDecodePairs_cons_eq_ok_iff, val_pair_iff, ih hr, asBytes_hexEncode_cons,
        List.map_cons, List.map_cons, List.cons.injEq, List.cons.injEq, and_assoc]

/-- An error from the pairs of an even number of bytes names the first byte that is no hex
digit, with its index counted from pair `k`. -/
theorem hexDecodePairs_eq_error {s : Bytes} (hs : s.length % 2 = 0) {k : Nat}
    {e : FromHexError} (h : hexDecodePairs k s = .error e) :
    ∃ pre c post, s = pre ++ c :: post ∧ (∀ d ∈ pre, IsHexDigit d) ∧ ¬IsHexDigit c ∧
      e = .invalidHexCharacter (Char.ofNat c.toNat) (2 * k + pre.length) := by
  induction k, s using hexDecodePairs.induct with
  | case1 k c₁ c₂ rest ih =>
    have hr : rest.length % 2 = 0 := by simp at hs; omega
    simp only [hexDecodePairs, Except.bind_eq_error, Except.pure_eq_ok, reduceCtorEq, and_false,
      exists_false, or_false] at h
    rcases h with h₁ | ⟨_, h₁, h₂ | ⟨_, h₂, h₃⟩⟩
    · obtain ⟨hn, rfl⟩ := (val_eq_error_iff _ _ _).mp h₁
      exact ⟨[], c₁, c₂ :: rest, rfl, by simp, hn, rfl⟩
    · obtain ⟨hn, rfl⟩ := (val_eq_error_iff _ _ _).mp h₂
      exact ⟨[c₁], c₂, rest, rfl, by simpa using (isHexDigit_iff c₁ _).mpr ⟨_, h₁⟩, hn, rfl⟩
    · obtain ⟨pre, c, post, rfl, hpre, hc, rfl⟩ := ih hr h₃
      refine ⟨c₁ :: c₂ :: pre, c, post, rfl, ?_, hc, ?_⟩
      · simpa [(isHexDigit_iff c₁ _).mpr ⟨_, h₁⟩, (isHexDigit_iff c₂ _).mpr ⟨_, h₂⟩] using hpre
      · simp only [List.length_cons]; congr 1; omega
  | case2 s k hnot =>
    match s, hs, hnot with
    | [], _, _ => cases h
    | [_], hs, _ => simp at hs
    | _ :: _ :: _, _, hnot => exact absurd rfl (hnot _ _ _)

/-- `hex::decode` reads back the bytes `hex::encode` wrote. -/
theorem hexDecode_hexEncode (data : Bytes) : hexDecode (asBytes (hexEncode data)) = .ok data := by
  have heven : (asBytes (hexEncode data)).length % 2 = 0 := by
    rw [length_asBytes_hexEncode]; omega
  rw [hexDecode, if_neg (by omega), hexDecodePairs_eq_ok_iff heven,
    map_asciiLower_hexEncode]

/-- What `hex::decode` reads and what it reports. It reads a string exactly when the string,
in lower case, is the hex of the bytes it returns. Otherwise the error is `OddLength` for an
odd length, and else names the first byte that is no hex digit in either case, with its
index. -/
theorem hexDecode_spec (s : Bytes) :
    (∀ b, hexDecode s = .ok b ↔ s.map asciiLower = asBytes (hexEncode b)) ∧
    ∀ e, hexDecode s = .error e →
      (s.length % 2 = 1 ∧ e = .oddLength) ∨
      (s.length % 2 = 0 ∧ ∃ pre c post, s = pre ++ c :: post ∧ (∀ d ∈ pre, IsHexDigit d) ∧
        ¬IsHexDigit c ∧ e = .invalidHexCharacter (Char.ofNat c.toNat) pre.length) := by
  unfold hexDecode
  split_ifs with hodd
  · refine ⟨fun b => iff_of_false (by simp) fun h => ?_,
      fun e he => .inl ⟨by omega, by cases he; rfl⟩⟩
    have := congrArg List.length h
    rw [List.length_map, length_asBytes_hexEncode] at this
    omega
  · have heven : s.length % 2 = 0 := by omega
    refine ⟨hexDecodePairs_eq_ok_iff heven 0, fun e he => .inr ⟨heven, ?_⟩⟩
    simpa using hexDecodePairs_eq_error heven he

theorem hexCharsLower_getD_ne_x (n : Nat) : hexCharsLower.getD n '0' ≠ 'x' := by
  rcases Nat.lt_or_ge n 16 with hn | hn
  · interval_cases n <;> decide
  · rw [List.getD_eq_default _ _ hn]
    decide

/-- No hex string starts with `0x`: its second character is a digit. -/
theorem stripPrefix_hexEncode (data : Bytes) :
    stripPrefix (hexEncode data).data "0x".data = none := by
  cases data with
  | nil => rfl
  | cons b data =>
    show stripPrefix (_ :: _ :: _) ['0', 'x'] = none
    simp only [stripPrefix, hexCharsLower_getD_ne_x, ↓reduceIte, ite_self]

theorem stripPrefix_zeroX (s : String) : stripPrefix ("0x" ++ s).data "0x".data = some s.data := by
  simp [stripPrefix]

end Hex

section Dispatch
variable {Header Tx Receipt : Type}
variable (hdr : Rlp.Codec Header) (tx : Rlp.Codec Tx) (rc : Rlp.Codec Receipt)

/-- The five `if let Ok(item) = V::decode(&content_bytes)` of `deserialize`, on the bytes the
string decoded to. -/
def HistoryContentItem.fromContentBytes (contentBytes : Bytes) :
    Rust (Except String (HistoryContentItem Header Tx Receipt)) :=
  tryDecode (HeaderWithProof.decode hdr contentBytes) .blockHeaderWithProof <|
  tryDecode (BlockHeader.decode hdr contentBytes) .blockHeader <|
  tryDecode (BlockBody.decode hdr tx contentBytes) .blockBody <|
  tryDecode (Receipts.decode rc contentBytes) .receipts <|
  tryDecode (EpochAccumulator.decode contentBytes) .epochAccumulator <|
  .ok (.error "unable to deserialize to any history content item")

theorem HistoryContentItem.deserialize_eq (s : String) :
    HistoryContentItem.deserialize hdr tx rc s =
      match hexDecode (asBytes ⟨(stripPrefix s.data "0x".data).getD s.data⟩) with
      | .error err => .ok (.error err.toString)
      | .ok contentBytes => HistoryContentItem.fromContentBytes hdr tx rc contentBytes := rfl

/-- The string `serialize` writes for bytes `b`, and the same string without its `0x`, both
reach the decoders with exactly `b`. -/
theorem deserialize_hexEncode (b : Bytes) :
    HistoryContentItem.deserialize hdr tx rc ("0x" ++ hexEncode b) =
        HistoryContentItem.fromContentBytes hdr tx rc b ∧
      HistoryContentItem.deserialize hdr tx rc (hexEncode b) =
        HistoryContentItem.fromContentBytes hdr tx rc b := by
  constructor
  · rw [HistoryContentItem.deserialize_eq, stripPrefix_zeroX, Option.getD_some,
      hexDecode_hexEncode]
  · rw [HistoryContentItem.deserialize_eq, stripPrefix_hexEncode, Option.getD_none,
      hexDecode_hexEncode]

@[simp] theorem tryDecode_ok {α β : Type} (x : α) (wrap : α → β) (next : Rust (Except String β)) :
    tryDecode (.ok (.ok x)) wrap next = .ok (.ok (wrap x)) := rfl

@[simp] theorem tryDecode_error {α β : Type} (e : ContentItemDecodeError) (wrap : α → β)
    (next : Rust (Except String β)) : tryDecode (.ok (.error e)) wrap next = next := rfl

@[simp] theorem tryDecode_panic {α β : Type} (p : Panic) (wrap : α → β)
    (next : Rust (Except String β)) : tryDecode (.error p) wrap next = .error p := rfl

/-- One `if let` of `deserialize`: the decoder's item, its panic, or on its error the next
`if let`. -/
theorem tryDecode_cases {α β : Type} (d : Rust (Except ContentItemDecodeError α)) (wrap : α → β)
    (next : Rust (Except String β)) :
    (∃ x, d = .ok (.ok x) ∧ tryDecode d wrap next = .ok (.ok (wrap x))) ∨
    (∃ p, d = .error p ∧ tryDecode d wrap next = .error p) ∨
    (∃ e, d = .ok (.error e) ∧ tryDecode d wrap next = next) := by
  rcases d with p | e | x
  · exact .inr (.inl ⟨p, rfl, rfl⟩)
  · exact .inr (.inr ⟨e, rfl, rfl⟩)
  · exact .inl ⟨x, rfl, rfl⟩

/-- Past the hex step, `deserialize` panics or returns one of the first three variants:
`BlockBody::decode` never returns the error that would move on. -/
theorem fromContentBytes_cases (b : Bytes) :
    (∃ p, HistoryContentItem.fromContentBytes hdr tx rc b = .error p) ∨
    (∃ x, HistoryContentItem.fromContentBytes hdr tx rc b = .ok (.ok (.blockHeaderWithProof x))) ∨
    (∃ x, HistoryContentItem.fromContentBytes hdr tx rc b = .ok (.ok (.blockHeader x))) ∨
    ∃ x, HistoryContentItem.fromContentBytes hdr tx rc b = .ok (.ok (.blockBody x)) := by
  unfold HistoryContentItem.fromContentBytes
  rcases tryDecode_cases (HeaderWithProof.decode hdr b)
    (@HistoryContentItem.blockHeaderWithProof Header Tx Receipt) _ with
    ⟨x, -, h⟩ | ⟨p, -, h⟩ | ⟨-, -, h⟩ <;> rw [h]
  · exact .inr (.inl ⟨x, rfl⟩)
  · exact .inl ⟨p, rfl⟩
  rcases tryDecode_cases (BlockHeader.decode hdr b)
    (@HistoryContentItem.blockHeader Header Tx Receipt) _ with
    ⟨x, -, h⟩ | ⟨p, -, h⟩ | ⟨-, -, h⟩ <;> rw [h]
  · exact .inr (.inr (.inl ⟨x, rfl⟩))
  · exact .inl ⟨p, rfl⟩
  rcases tryDecode_cases (BlockBody.decode hdr tx b)
    (@HistoryContentItem.blockBody Header Tx Receipt) _ with
    ⟨x, -, h⟩ | ⟨p, -, h⟩ | ⟨e, he, -⟩
  · exact .inr (.inr (.inr ⟨x, h⟩))
  · exact .inl ⟨p, h⟩
  · exact absurd he (blockBody_decode_ne_error hdr tx b e)

/-- `deserialize` never returns a receipt list or an epoch accumulator, whatever the string,
and every error it returns is the message of a `hex::decode` error: its last two `if let`s
and its final error are never reached. -/
theorem deserialize_outcomes (s : String) :
    (∀ receipts, HistoryContentItem.deserialize hdr tx rc s ≠ .ok (.ok (.receipts receipts))) ∧
    (∀ acc, HistoryContentItem.deserialize hdr tx rc s ≠ .ok (.ok (.epochAccumulator acc))) ∧
    ∀ m, HistoryContentItem.deserialize hdr tx rc s = .ok (.error m) →
      ∃ e, hexDecode (asBytes ⟨(stripPrefix s.data "0x".data).getD s.data⟩) = .error e ∧
        m = e.toString := by
  rw [HistoryContentItem.deserialize_eq]
  cases hexDecode (asBytes ⟨(stripPrefix s.data "0x".data).getD s.data⟩) with
  | error e =>
    refine ⟨fun _ h => ?_, fun _ h => ?_, fun m h => ⟨e, rfl, ?_⟩⟩ <;> simp at h
    exact h.symm
  | ok b =>
    simp only
    refine ⟨fun _ h => ?_, fun _ h => ?_, fun _ h => ?_⟩ <;>
    rcases fromContentBytes_cases hdr tx rc b with ⟨_, h'⟩ | ⟨_, h'⟩ | ⟨_, h'⟩ | ⟨_, h'⟩ <;>
    rw [h'] at h <;> cases h

/-- An `unwrap` followed by more code panics in the `unwrap`, on its error, or later. -/
theorem unwrap_bind_eq_error {α β : Type} {r : Except ContentItemDecodeError α}
    {f : α → Rust β} {p : Panic} (h : (unwrap r >>= f) = .error p) :
    (∃ e, r = .error e ∧ p = .unwrap e) ∨ ∃ a, r = .ok a ∧ f a = .error p := by
  cases r with
  | error e => exact .inl ⟨e, rfl, (Except.error.inj h).symm⟩
  | ok a => exact .inr ⟨a, rfl, h⟩

/-- `BlockBody::decode` panics only in one of its `unwrap`s. -/
theorem BlockBody.decode_panic_unwrap {b : Bytes} {p : Panic}
    (h : BlockBody.decode hdr tx b = .error p) : ∃ e, p = .unwrap e := by
  unfold BlockBody.decode at h
  rcases unwrap_bind_eq_error h with ⟨e, -, rfl⟩ | ⟨⟨ts, us⟩, -, h⟩
  · exact ⟨e, rfl⟩
  dsimp only at h
  rw [mapM_unwrap] at h
  rcases unwrap_bind_eq_error h with ⟨e, -, rfl⟩ | ⟨_, -, h⟩
  · exact ⟨e, rfl⟩
  rcases unwrap_bind_eq_error h with ⟨e, -, rfl⟩ | ⟨_, -, h⟩
  · exact ⟨e, rfl⟩
  cases h

/-- Past the hex step, the decoders panic exactly where `BlockBody::decode` does on bytes
both header decoders refused. -/
theorem fromContentBytes_eq_error (b : Bytes) (p : Panic) :
    HistoryContentItem.fromContentBytes hdr tx rc b = .error p ↔
      (∃ e, HeaderWithProof.decode hdr b = .ok (.error e)) ∧
      (∃ e, BlockHeader.decode hdr b = .ok (.error e)) ∧ BlockBody.decode hdr tx b = .error p := by
  obtain ⟨r₁, h₁⟩ := headerWithProof_decode_returns hdr b
  obtain ⟨r₂, h₂⟩ : ∃ r, BlockHeader.decode hdr b = .ok r := ⟨_, rfl⟩
  obtain ⟨r₃, h₃⟩ : ∃ r, BlockBody.decode hdr tx b = r := ⟨_, rfl⟩
  unfold HistoryContentItem.fromContentBytes
  rw [h₁, h₂, h₃]
  rcases r₃ with _ | e | _
  · rcases r₁ with _ | _ <;> rcases r₂ with _ | _ <;> simp
  · exact absurd h₃ (blockBody_decode_ne_error hdr tx b e)
  · rcases r₁ with _ | _ <;> rcases r₂ with _ | _ <;> simp

/-- `deserialize` panics exactly where `BlockBody::decode` panics on bytes both header
decoders refused, and then in an `unwrap`: the proof copy of `HeaderWithProof::decode` never
panics, and the decoders after `BlockBody::decode` are never reached. -/
theorem deserialize_panics (s : String) (p : Panic) :
    HistoryContentItem.deserialize hdr tx rc s = .error p ↔
      ∃ b, hexDecode (asBytes ⟨(stripPrefix s.data "0x".data).getD s.data⟩) = .ok b ∧
        (∃ e, HeaderWithProof.decode hdr b = .ok (.error e)) ∧
        (∃ e, BlockHeader.decode hdr b = .ok (.error e)) ∧
        BlockBody.decode hdr tx b = .error p ∧ ∃ e, p = .unwrap e := by
  rw [HistoryContentItem.deserialize_eq]
  cases hexDecode (asBytes ⟨(stripPrefix s.data "0x".data).getD s.data⟩) with
  | error e => simp
  | ok b =>
    simp only [Except.ok.injEq, exists_eq_left']
    exact (fromContentBytes_eq_error hdr tx rc b p).trans
      ⟨fun ⟨h₁, h₂, h₃⟩ => ⟨h₁, h₂, h₃, BlockBody.decode_panic_unwrap hdr tx h₃⟩,
        fun ⟨h₁, h₂, h₃, _⟩ => ⟨h₁, h₂, h₃⟩⟩

end Dispatch

section RoundTrip
variable {Header Tx Receipt : Type}
variable (hdr : Rlp.Codec Header) (tx : Rlp.Codec Tx) (rc : Rlp.Codec Receipt)

theorem head_layout2 (A B : Bytes) : (layout2 A B).head? = some 8 := rfl

/-- `HeaderWithProof::decode` refuses bytes that do not start with its container's first
offset, `8`. -/
theorem HeaderWithProof.decode_of_head_ne {b : Bytes} (hb : b.head? ≠ some 8) :
    ∃ e, HeaderWithProof.decode hdr b = .ok (.error e) := by
  unfold HeaderWithProof.decode
  cases hc : headerWithProofSszContainer.fromBytes b with
  | error e => exact ⟨.ssz e, by simp [sszDecode, hc]⟩
  | ok y =>
    rcases y with ⟨x, y⟩
    obtain ⟨A, B, rfl, -⟩ := (container2_fromBytes_eq_ok rfl rfl).mp hc
    exact absurd (head_layout2 A B) hb

/-- It also refuses a container whose second field starts with no union selector `0` or
`1`. -/
theorem HeaderWithProof.decode_layout2_of_selector {A B : Bytes} (hA : 8 + A.length < 2 ^ 32)
    (hB : ∀ s ∈ B.head?, 2 ≤ s.toNat) :
    ∃ e, HeaderWithProof.decode hdr (layout2 A B) = .ok (.error e) := by
  unfold HeaderWithProof.decode
  cases hc : headerWithProofSszContainer.fromBytes (layout2 A B) with
  | error e => exact ⟨.ssz e, by simp [sszDecode, hc]⟩
  | ok y =>
    rcases y with ⟨x, y⟩
    obtain ⟨A', B', heq, hA', -, hy⟩ := (container2_fromBytes_eq_ok rfl rfl).mp hc
    obtain ⟨-, rfl⟩ := layout2_inj heq hA' (.inl hA)
    rcases option_fromBytes_eq_ok.mp hy with ⟨-, rest, rfl⟩ | ⟨-, e, -, rfl, -⟩ <;> simp at hB

/-- A header decoder that reads only lists refuses bytes whose first byte is below `0xC0`. -/
theorem BlockHeader.decode_of_head_lt (hl : hdr.DecodesLists) {b : Bytes}
    (hb : ∀ s ∈ b.head?, s.toNat < 0xC0) : ∃ e, BlockHeader.decode hdr b = .ok (.error e) := by
  cases hd : hdr.decode b with
  | error e => exact ⟨.rlp e, by simp [BlockHeader.decode, rlpDecode, hd]⟩
  | ok r =>
    obtain ⟨s, hs, hc⟩ := hl b r.1 r.2 hd
    exact absurd (hb s hs) (by omega)

theorem serialize_bind_deserialize {x : HistoryContentItem Header Tx Receipt} {b : Bytes}
    (h : HistoryContentItem.serialize hdr tx rc x = .ok ("0x" ++ hexEncode b)) :
    (HistoryContentItem.serialize hdr tx rc x >>= HistoryContentItem.deserialize hdr tx rc) =
      HistoryContentItem.fromContentBytes hdr tx rc b := by
  rw [h, Except.ok_bind, HistoryContentItem.deserialize_eq, stripPrefix_zeroX, Option.getD_some,
    hexDecode_hexEncode]

/-- The string of a header with its proof is read back first, as the same item. -/
theorem deserialize_serialize_headerWithProof (v : HeaderWithProof Header)
    (hlen : (hdr.encode v.header).length ≤ 2048) (hrt : hdr.RoundTrips v.header) :
    (HistoryContentItem.serialize hdr tx rc (.blockHeaderWithProof v) >>=
      HistoryContentItem.deserialize hdr tx rc) = .ok (.ok (.blockHeaderWithProof v)) := by
  rw [serialize_bind_deserialize hdr tx rc (x := .blockHeaderWithProof v) rfl,
    HistoryContentItem.fromContentBytes, List.nil_append,
    HeaderWithProof.decode_container hdr hlen hrt,
    tryDecode_ok]

/-- A header's RLP is a list, so it never starts with the offset `8` and
`HeaderWithProof::decode` passes it on. -/
theorem deserialize_serialize_blockHeader (hl : hdr.DecodesLists) (h : Header)
    (hrt : hdr.RoundTrips h) :
    (HistoryContentItem.serialize hdr tx rc (.blockHeader h) >>=
      HistoryContentItem.deserialize hdr tx rc) = .ok (.ok (.blockHeader h)) := by
  obtain ⟨s, hs, hc⟩ := hl.head_encode hrt
  have hb : (hdr.encode h).head? ≠ some 8 := by
    rw [Option.mem_def] at hs
    rw [hs]
    rintro ⟨⟩
    exact absurd hc (by decide)
  obtain ⟨e, he⟩ := HeaderWithProof.decode_of_head_ne hdr hb
  rw [serialize_bind_deserialize hdr tx rc (x := .blockHeader h) (b := hdr.encode h) rfl,
    HistoryContentItem.fromContentBytes, he,
    tryDecode_error, BlockHeader.decode, rlpDecode_encode hrt, tryDecode_ok]

/-- A block body's container starts with the offset `8`, a one-byte string to the header
decoder, which reads only lists; its uncles' field starts with a list header, which is no
union selector. Both decoders tried before `BlockBody::decode` pass it on. -/
theorem deserialize_serialize_blockBody (hl : hdr.DecodesLists) (v : BlockBody Tx Header)
    (hcount : v.transactions.length ≤ 16384)
    (htx : ∀ t ∈ v.transactions, (tx.encode t).length ≤ 16777216)
    (huncles : (hdr.list.encode v.uncles).length ≤ 131072)
    (hlt : 8 + 4 * v.transactions.length + (v.transactions.flatMap tx.encode).length < 2 ^ 32)
    (htxrt : ∀ t ∈ v.transactions, tx.RoundTrips t) (hrt : ∀ h ∈ v.uncles, hdr.RoundTrips h) :
    (HistoryContentItem.serialize hdr tx rc (.blockBody v) >>=
      HistoryContentItem.deserialize hdr tx rc) = .ok (.ok (.blockBody v)) := by
  set A := layoutList (v.transactions.map tx.encode)
  set B := hdr.list.encode v.uncles with hB
  have henc : BlockBody.encode hdr tx v [] = .ok (layout2 A B) :=
    BlockBody.encode_of_bounds hdr tx v hcount htx huncles []
  have hA : 8 + A.length < 2 ^ 32 := by
    rw [layoutList_map_length]; omega
  have hpay : (v.uncles.flatMap hdr.encode).length < 256 ^ 8 := by
    have : (v.uncles.flatMap hdr.encode).length ≤ B.length := by
      rw [hB, Rlp.Codec.list_encode, List.length_append]; omega
    exact lt_of_le_of_lt (this.trans huncles) (by norm_num)
  obtain ⟨s, hs, hc⟩ :=
    (Rlp.Codec.list_decodesLists hdr).head_encode (Rlp.Codec.list_roundTrips hrt hpay)
  obtain ⟨e₁, h₁⟩ := HeaderWithProof.decode_layout2_of_selector hdr hA
    fun s' hs' => by rw [Option.mem_unique hs' hs]; omega
  obtain ⟨e₂, h₂⟩ := BlockHeader.decode_of_head_lt hdr hl (b := layout2 A B) fun s hs => by
    rw [head_layout2, Option.mem_def, Option.some_inj] at hs
    subst hs
    decide
  have hbody : BlockBody.decode hdr tx (layout2 A B) = .ok (.ok v) := by
    have htake : v.transactions.take 16384 = v.transactions := List.take_of_length_le hcount
    have h := blockBody_decode_encode hdr tx v (by rwa [htake]) huncles (by rwa [htake])
      (by rwa [htake]) hrt
    rwa [htake, henc, Except.ok_bind] at h
  have hser : HistoryContentItem.serialize hdr tx rc (.blockBody v) =
      .ok ("0x" ++ hexEncode (layout2 A B)) := by
    simp only [HistoryContentItem.serialize, henc, Except.ok_bind, Except.pure_eq_ok]
  rw [serialize_bind_deserialize hdr tx rc hser, HistoryContentItem.fromContentBytes, h₁,
    tryDecode_error, h₂, tryDecode_error, hbody, tryDecode_ok]

/-- `deserialize` reads the string `serialize` writes back as the same item, for a header
with its proof, a header and a block body within their bounds. Each is refused by the
decoders tried before its own: the header codec reads only lists, as `Header`'s does. -/
theorem deserialize_serialize :
    (∀ v : HeaderWithProof Header, (hdr.encode v.header).length ≤ 2048 →
      hdr.RoundTrips v.header →
      (HistoryContentItem.serialize hdr tx rc (.blockHeaderWithProof v) >>=
        HistoryContentItem.deserialize hdr tx rc) = .ok (.ok (.blockHeaderWithProof v))) ∧
    (∀ h : Header, hdr.DecodesLists → hdr.RoundTrips h →
      (HistoryContentItem.serialize hdr tx rc (.blockHeader h) >>=
        HistoryContentItem.deserialize hdr tx rc) = .ok (.ok (.blockHeader h))) ∧
    (∀ v : BlockBody Tx Header, hdr.DecodesLists → v.transactions.length ≤ 16384 →
      (∀ t ∈ v.transactions, (tx.encode t).length ≤ 16777216) →
      (hdr.list.encode v.uncles).length ≤ 131072 →
      8 + 4 * v.transactions.length + (v.transactions.flatMap tx.encode).length < 2 ^ 32 →
      (∀ t ∈ v.transactions, tx.RoundTrips t) → (∀ h ∈ v.uncles, hdr.RoundTrips h) →
      (HistoryContentItem.serialize hdr tx rc (.blockBody v) >>=
        HistoryContentItem.deserialize hdr tx rc) = .ok (.ok (.blockBody v))) :=
  ⟨deserialize_serialize_headerWithProof hdr tx rc,
    fun h hl => deserialize_serialize_blockHeader hdr tx rc hl h,
    fun v hl => deserialize_serialize_blockBody hdr tx rc hl v⟩

end RoundTrip

/-- Headers as RLP lists of bytes, which the list codec reads only as lists: a header, and a
block body with one uncle, each read back from its string. -/
theorem deserialize_serialize_bytes :
    Rlp.Codec.u8.list.DecodesLists ∧ Rlp.Codec.u8.list.RoundTrips [5] ∧
    (HistoryContentItem.serialize Rlp.Codec.u8.list Rlp.Codec.u8 Rlp.Codec.u8 (.blockHeader [5]) >>=
      HistoryContentItem.deserialize Rlp.Codec.u8.list Rlp.Codec.u8 Rlp.Codec.u8) =
        .ok (.ok (.blockHeader [5])) ∧
    (HistoryContentItem.serialize Rlp.Codec.u8.list Rlp.Codec.u8 Rlp.Codec.u8
        (.blockBody ⟨[1, 2], [[5]]⟩) >>=
      HistoryContentItem.deserialize Rlp.Codec.u8.list Rlp.Codec.u8 Rlp.Codec.u8) =
        .ok (.ok (.blockBody ⟨[1, 2], [[5]]⟩)) := by
  have hl := Rlp.Codec.list_decodesLists Rlp.Codec.u8
  have hrt : Rlp.Codec.u8.list.RoundTrips [5] :=
    Rlp.Codec.list_roundTrips (fun b _ => Rlp.Codec.u8_roundTrips b) (by decide)
  have h := deserialize_serialize Rlp.Codec.u8.list Rlp.Codec.u8 Rlp.Codec.u8
  exact ⟨hl, hrt, h.2.1 [5] hl hrt,
    h.2.2 ⟨[1, 2], [[5]]⟩ hl (by decide) (by decide) (by decide) (by decide)
      (fun t _ => Rlp.Codec.u8_roundTrips t) (by simpa using hrt)⟩

end Trin
