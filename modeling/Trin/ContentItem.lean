import Trin.Rlp
import Trin.Ssz.Union

/-! The `ContentItem` impls of `content_item.rs`: RLP payloads wrapped in SSZ containers, with
the panics of `unwrap` and `copy_from_slice` made explicit in the `Rust` monad. -/
namespace Trin
open Ssz

variable {α β : Type}

/-- `ContentItemDecodeError` -/
inductive ContentItemDecodeError where
  | rlp (err : Rlp.DecodeError)
  | ssz (err : Ssz.DecodeError)
  deriving DecidableEq, Repr

/-- How a call can panic here: `unwrap` on an error, or `copy_from_slice` between slices of
different lengths. -/
inductive Panic where
  | unwrap (err : ContentItemDecodeError)
  | copyFromSlice (srcLen dstLen : Nat)
  deriving DecidableEq, Repr

/-- A Rust call: it returns, or it panics. -/
abbrev Rust := Except Panic

/-- `Result::unwrap` -/
def unwrap (r : Except ContentItemDecodeError α) : Rust α :=
  match r with
  | .ok a => .ok a
  | .error e => .error (.unwrap e)

/-- `<[T]>::copy_from_slice`: the destination takes the source's elements, and keeps its
length; a source of another length panics. -/
def copyFromSlice (dst src : List α) : Rust {l : List α // l.length = dst.length} :=
  if h : src.length = dst.length then .ok ⟨src, h⟩
  else .error (.copyFromSlice src.length dst.length)

/-- `[T; N]` -/
structure FixedArray (α : Type) (n : Nat) where
  toList : List α
  length_toList : toList.length = n
  deriving DecidableEq

/-- `[x; N]` -/
def FixedArray.replicate (n : Nat) (x : α) : FixedArray α n :=
  ⟨List.replicate n x, List.length_replicate n x⟩

/-- `arr.copy_from_slice(src)` on an array. -/
def FixedArray.copyFromSlice {n : Nat} (arr : FixedArray α n) (src : List α) :
    Rust (FixedArray α n) :=
  (fun l => ⟨l.val, l.property.trans arr.length_toList⟩) <$> Trin.copyFromSlice arr.toList src

theorem FixedArray.copyFromSlice_of_length {n : Nat} (arr : FixedArray α n) {src : List α}
    (h : src.length = n) : arr.copyFromSlice src = .ok ⟨src, h⟩ := by
  simp [FixedArray.copyFromSlice, Trin.copyFromSlice, h, arr.length_toList]

theorem FixedArray.copyFromSlice_of_ne {n : Nat} (arr : FixedArray α n) {src : List α}
    (h : src.length ≠ n) : arr.copyFromSlice src = .error (.copyFromSlice src.length n) := by
  simp [FixedArray.copyFromSlice, Trin.copyFromSlice, h, arr.length_toList]

/-- The `ContentItem` trait: `encode` writes after what the buffer holds, `decode` reads a
whole buffer. -/
structure ContentItem (α : Type) where
  encode : α → Bytes → Rust Bytes
  decode : Bytes → Rust (Except ContentItemDecodeError α)

/-- What the trait documents of `encode`: it returns normally, keeps what the buffer held and
appends bytes that depend on the item alone. -/
def ContentItem.Appends (c : ContentItem α) : Prop :=
  ∃ e : α → Bytes, ∀ x buf, c.encode x buf = .ok (buf ++ e x)

/-- `Decodable::decode(&mut &*buf)` with `?`: the value of the first RLP item, whatever
follows it. -/
def rlpDecode (c : Rlp.Codec α) (buf : Bytes) : Except ContentItemDecodeError α :=
  match c.decode buf with
  | .ok (a, _) => .ok a
  | .error e => .error (.rlp e)

/-- `T::from_ssz_bytes(buf)` with `?` -/
def sszDecode (t : Ssz.Codec α) (buf : Bytes) : Except ContentItemDecodeError α :=
  (t.fromBytes buf).mapError .ssz

section Impls
variable {Header Tx Receipt : Type}
variable (hdr : Rlp.Codec Header) (tx : Rlp.Codec Tx) (rc : Rlp.Codec Receipt)

/-- `SszReceipt` -/
def sszReceipt : Ssz.Codec (VariableList UInt8 134217728) := variableList u8 134217728

/-- `SszReceiptList` -/
def sszReceiptList : Ssz.Codec (VariableList (VariableList UInt8 134217728) 16384) :=
  variableList sszReceipt 16384

/-- `<Vec<Receipt> as ContentItem>::encode`: the encoding is copied over the buffer, not
appended to it. -/
def Receipts.encode (receipts : List Receipt) (buf : Bytes) : Rust Bytes :=
  let receipts : List (VariableList UInt8 134217728) :=
    receipts.map fun receipt => VariableList.from (rc.encode receipt)
  let ssz : VariableList (VariableList UInt8 134217728) 16384 := VariableList.from receipts
  Subtype.val <$> copyFromSlice buf (sszReceiptList.encode ssz)

/-- `<Vec<Receipt> as ContentItem>::decode` -/
def Receipts.decode (buf : Bytes) : Rust (Except ContentItemDecodeError (List Receipt)) :=
  .ok do
    let ssz ← sszDecode sszReceiptList buf
    ssz.vec.mapM fun ssz => rlpDecode rc ssz.vec

/-- `<Header as ContentItem>::encode` -/
def BlockHeader.encode (header : Header) (buf : Bytes) : Rust Bytes := .ok (buf ++ hdr.encode header)

/-- `<Header as ContentItem>::decode` -/
def BlockHeader.decode (buf : Bytes) : Rust (Except ContentItemDecodeError Header) :=
  .ok (rlpDecode hdr buf)

/-- `EPOCH_ACC_PROOF_LEN` -/
def epochAccProofLen : Nat := 15

/-- `HeaderWithProof` -/
structure HeaderWithProof (Header : Type) where
  header : Header
  proof : Option (FixedArray H256 epochAccProofLen)
  deriving DecidableEq

/-- `SszEncodedHeader` -/
def sszEncodedHeader : Ssz.Codec (VariableList UInt8 2048) := variableList u8 2048

/-- `SszHeaderProof` -/
def sszHeaderProof : Ssz.Codec (FixedVector H256 15) := fixedVector h256 15

/-- `HeaderWithProofSszContainer`, fields `header` and `proof`. -/
def headerWithProofSszContainer :
    Ssz.Codec (VariableList UInt8 2048 × Option (FixedVector H256 15)) :=
  container2 sszEncodedHeader (option sszHeaderProof)

/-- `<HeaderWithProof as ContentItem>::encode` -/
def HeaderWithProof.encode (v : HeaderWithProof Header) (buf : Bytes) : Rust Bytes :=
  let header : VariableList UInt8 2048 := VariableList.from (hdr.encode v.header)
  let proof : Option (FixedVector H256 15) := v.proof.map fun proof => FixedVector.from proof.toList
  .ok (buf ++ headerWithProofSszContainer.encode (header, proof))

/-- `<HeaderWithProof as ContentItem>::decode` -/
def HeaderWithProof.decode (buf : Bytes) :
    Rust (Except ContentItemDecodeError (HeaderWithProof Header)) :=
  match sszDecode headerWithProofSszContainer buf with
  | .error e => .ok (.error e)
  | .ok (header, proof) =>
    match rlpDecode hdr header.vec with
    | .error e => .ok (.error e)
    | .ok header => do
      let proof ← match proof with
        | some proof => some <$>
            (FixedArray.replicate epochAccProofLen H256.zero).copyFromSlice proof.vec
        | none => pure none
      return .ok ⟨header, proof⟩

/-- `BlockBody` -/
structure BlockBody (Tx Header : Type) where
  transactions : List Tx
  uncles : List Header
  deriving DecidableEq

/-- `SszTransaction` -/
def sszTransaction : Ssz.Codec (VariableList UInt8 16777216) := variableList u8 16777216

/-- `SszTransactionList` -/
def sszTransactionList : Ssz.Codec (VariableList (VariableList UInt8 16777216) 16384) :=
  variableList sszTransaction 16384

/-- `SszUncles` -/
def sszUncles : Ssz.Codec (VariableList UInt8 131072) := variableList u8 131072

/-- `BlockBodySszContainer`, fields `transactions` and `uncles`. -/
def blockBodySszContainer :
    Ssz.Codec (VariableList (VariableList UInt8 16777216) 16384 × VariableList UInt8 131072) :=
  container2 sszTransactionList sszUncles

/-- `<BlockBody as ContentItem>::encode`: each transaction is its own RLP item, the uncles are
one RLP list. -/
def BlockBody.encode (v : BlockBody Tx Header) (buf : Bytes) : Rust Bytes :=
  let transactions : List (VariableList UInt8 16777216) :=
    v.transactions.map fun transaction => VariableList.from (tx.encode transaction)
  let transactions : VariableList (VariableList UInt8 16777216) 16384 :=
    VariableList.from transactions
  let uncles : VariableList UInt8 131072 := VariableList.from (hdr.list.encode v.uncles)
  .ok (buf ++ blockBodySszContainer.encode (transactions, uncles))

/-- `<BlockBody as ContentItem>::decode`: every failure is `unwrap`ped. -/
def BlockBody.decode (buf : Bytes) : Rust (Except ContentItemDecodeError (BlockBody Tx Header)) := do
  let (transactions, uncles) ← unwrap (sszDecode blockBodySszContainer buf)
  let transactions ← transactions.vec.mapM fun tx' => unwrap (rlpDecode tx tx'.vec)
  let uncles ← unwrap (rlpDecode hdr.list uncles.vec)
  return .ok ⟨transactions, uncles⟩

/-- `HeaderRecord` -/
structure HeaderRecord where
  hash : H256
  totalDifficulty : U256
  deriving DecidableEq

/-- `HeaderRecord`'s derived SSZ: the two fields, fixed length. -/
def headerRecord : Ssz.Codec HeaderRecord :=
  (container2 h256 u256).map (fun p => ⟨p.1, p.2⟩) fun r => (r.hash, r.totalDifficulty)

/-- `EpochAccumulator` -/
abbrev EpochAccumulator := VariableList HeaderRecord 8192

/-- `EpochAccumulator`'s SSZ. -/
def epochAccumulator : Ssz.Codec EpochAccumulator := variableList headerRecord 8192

/-- `<EpochAccumulator as ContentItem>::encode` -/
def EpochAccumulator.encode (acc : EpochAccumulator) (buf : Bytes) : Rust Bytes :=
  .ok (buf ++ epochAccumulator.encode acc)

/-- `<EpochAccumulator as ContentItem>::decode` -/
def EpochAccumulator.decode (buf : Bytes) : Rust (Except ContentItemDecodeError EpochAccumulator) :=
  .ok (sszDecode epochAccumulator buf)

/-- The five impls as `ContentItem`s. -/
def Receipts.contentItem : ContentItem (List Receipt) := ⟨Receipts.encode rc, Receipts.decode rc⟩

def BlockHeader.contentItem : ContentItem Header := ⟨BlockHeader.encode hdr, BlockHeader.decode hdr⟩

def HeaderWithProof.contentItem : ContentItem (HeaderWithProof Header) :=
  ⟨HeaderWithProof.encode hdr, HeaderWithProof.decode hdr⟩

def BlockBody.contentItem : ContentItem (BlockBody Tx Header) :=
  ⟨BlockBody.encode hdr tx, BlockBody.decode hdr tx⟩

def EpochAccumulator.contentItem : ContentItem EpochAccumulator :=
  ⟨EpochAccumulator.encode, EpochAccumulator.decode⟩

end Impls

end Trin
