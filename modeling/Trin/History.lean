import Trin.ContentItem

/-! `HistoryContentItem` and its serde impls: a content item travels as `0x` and the hex of
its encoding, and is read back by trying the five decoders in turn. -/
namespace Trin
open Ssz

/-- `s.as_bytes()`: the UTF-8 encoding, as `String.toUTF8` lays it out. -/
def asBytes (s : String) : Bytes := s.data.flatMap String.utf8EncodeChar

/-- `str::strip_prefix` -/
def stripPrefix : (s pre : List Char) → Option (List Char)
  | s, [] => some s
  | [], _ :: _ => none
  | c :: s, p :: pre => if c = p then stripPrefix s pre else none

/-- `hex::FromHexError` -/
inductive FromHexError where
  | invalidHexCharacter (c : Char) (index : Nat)
  | oddLength
  | invalidStringLength
  deriving DecidableEq, Repr

/-- The `\u{..}` escape of `char::escape_debug`: the code point in lower-case hex, without
leading zeros. -/
def unicodeEscape (n : Nat) : String := "\\u\x7b" ++ String.mk (Nat.toDigits 16 n) ++ "\x7d"

/-- `char::escape_debug` as `char`'s `Debug` calls it, on the code points `u8 as char` gives
(U+0000 to U+00FF), the only ones `hex` reports: backslash escapes for NUL, tab, LF, CR, the
backslash and the single quote (not the double quote), and `\u{..}` for the characters
`is_printable` rejects there, the C0 and C1 controls, DEL, the no-break space and the soft
hyphen. -/
def escapeDebug (c : Char) : String :=
  if c.toNat = 0 then "\\0"
  else if c.toNat = 9 then "\\t"
  else if c.toNat = 10 then "\\n"
  else if c.toNat = 13 then "\\r"
  else if c.toNat = 92 then "\\\\"
  else if c.toNat = 39 then "\\\x27"
  else if c.toNat < 32 ∨ (127 ≤ c.toNat ∧ c.toNat ≤ 160) ∨ c.toNat = 173 then
    unicodeEscape c.toNat
  else c.toString

/-- `<char as Debug>::fmt`: the escaped character between single quotes. -/
def charDebug (c : Char) : String := "\x27" ++ escapeDebug c ++ "\x27"

/-- `FromHexError`'s `Display`, which `serde::de::Error::custom` takes as its message. -/
def FromHexError.toString : FromHexError → String
  | .invalidHexCharacter c index => "Invalid character " ++ charDebug c ++ " at position " ++
      Nat.repr index
  | .oddLength => "Odd number of digits"
  | .invalidStringLength => "Invalid string length"

example : (FromHexError.invalidHexCharacter (Char.ofNat 127) 0).toString =
    "Invalid character \x27\\u\x7b7f\x7d\x27 at position 0" := by decide

example : (FromHexError.invalidHexCharacter (Char.ofNat 34) 1).toString =
    "Invalid character \x27\"\x27 at position 1" := by decide

/-- `HEX_CHARS_LOWER` -/
def hexCharsLower : List Char := "0123456789abcdef".data

/-- `hex::encode`: each byte as its high and low nibble, in lower case. -/
def hexEncode (data : Bytes) : String :=
  ⟨data.flatMap fun byte =>
    [hexCharsLower.getD (byte >>> 4).toNat '0', hexCharsLower.getD (byte &&& 0xf).toNat '0']⟩

/-- `val` of the `hex` crate: the value of one hex digit, in either case. -/
def val (c : UInt8) (idx : Nat) : Except FromHexError UInt8 :=
  if 65 ≤ c ∧ c ≤ 70 then .ok (c - 65 + 10)
  else if 97 ≤ c ∧ c ≤ 102 then .ok (c - 97 + 10)
  else if 48 ≤ c ∧ c ≤ 57 then .ok (c - 48)
  else .error (.invalidHexCharacter (Char.ofNat c.toNat) idx)

/-- The pairs of `hex.chunks(2).enumerate()`, from pair `i` on. -/
def hexDecodePairs (i : Nat) : Bytes → Except FromHexError Bytes
  | hi :: lo :: rest => do
    let hi ← val hi (2 * i)
    let lo ← val lo (2 * i + 1)
    let bytes ← hexDecodePairs (i + 1) rest
    return (hi <<< 4 ||| lo) :: bytes
  | _ => .ok []

/-- `hex::decode` -/
def hexDecode (hex : Bytes) : Except FromHexError Bytes :=
  if hex.length % 2 ≠ 0 then .error .oddLength else hexDecodePairs 0 hex

/-- `HistoryContentItem` -/
inductive HistoryContentItem (Header Tx Receipt : Type) where
  | blockHeaderWithProof (item : HeaderWithProof Header)
  | blockHeader (item : Header)
  | blockBody (item : BlockBody Tx Header)
  | receipts (item : List Receipt)
  | epochAccumulator (item : EpochAccumulator)
  deriving DecidableEq

/-- One `if let Ok(item) = V::decode(&content_bytes) { return Ok(..) }` of `deserialize`: a
decoder's error moves on to `next`, its panic ends the call. -/
def tryDecode {α β : Type} (decode : Rust (Except ContentItemDecodeError α)) (wrap : α → β)
    (next : Rust (Except String β)) : Rust (Except String β) := do
  match ← decode with
  | .ok item => return .ok (wrap item)
  | .error _ => next

section Serde
variable {Header Tx Receipt : Type}
variable (hdr : Rlp.Codec Header) (tx : Rlp.Codec Tx) (rc : Rlp.Codec Receipt)

/-- `<HistoryContentItem as Serialize>::serialize`: the string it hands to `serialize_str`. -/
def HistoryContentItem.serialize (v : HistoryContentItem Header Tx Receipt) : Rust String := do
  let encoded ← match v with
    | .blockHeaderWithProof item => HeaderWithProof.encode hdr item []
    | .blockHeader item => BlockHeader.encode hdr item []
    | .blockBody item => BlockBody.encode hdr tx item []
    | .receipts item => Receipts.encode rc item []
    | .epochAccumulator item => EpochAccumulator.encode item []
  return "0x" ++ hexEncode encoded

/-- `<HistoryContentItem as Deserialize>::deserialize`, from the string read; an error is the
message of the `serde` error. -/
def HistoryContentItem.deserialize (s : String) :
    Rust (Except String (HistoryContentItem Header Tx Receipt)) :=
  match hexDecode (asBytes ⟨(stripPrefix s.data "0x".data).getD s.data⟩) with
  | .error err => .ok (.error err.toString)
  | .ok contentBytes =>
    tryDecode (HeaderWithProof.decode hdr contentBytes) .blockHeaderWithProof <|
    tryDecode (BlockHeader.decode hdr contentBytes) .blockHeader <|
    tryDecode (BlockBody.decode hdr tx contentBytes) .blockBody <|
    tryDecode (Receipts.decode rc contentBytes) .receipts <|
    tryDecode (EpochAccumulator.decode contentBytes) .epochAccumulator <|
    .ok (.error "unable to deserialize to any history content item")

end Serde

end Trin
