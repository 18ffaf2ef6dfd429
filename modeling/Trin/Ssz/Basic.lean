import Trin.Basic

/-! SSZ as the `ssz` and `ssz_types` crates write and read it: length offsets, the
`Encode`/`Decode` methods of one type, and the impls the content items are built from. -/
namespace Trin

/-- `ethereum_types::H256` -/
structure H256 where
  bytes : Bytes
  length_bytes : bytes.length = 32
  deriving DecidableEq

/-- `H256::zero()`, also `H256::default()`. -/
def H256.zero : H256 := ⟨List.replicate 32 0, List.length_replicate 32 0⟩

instance : Inhabited H256 := ⟨H256.zero⟩

/-- `ethereum_types::U256` -/
abbrev U256 := Fin (2 ^ 256)

namespace Ssz

/-- `ssz::DecodeError` -/
inductive DecodeError where
  | invalidLengthPrefix (len expected : Nat)
  | invalidByteLength (len expected : Nat)
  | zeroLengthItem
  | outOfBoundsByte (i : Nat)
  | offsetIntoFixedPortion (i : Nat)
  | offsetSkipsVariableBytes (i : Nat)
  | offsetsAreDecreasing (i : Nat)
  | offsetOutOfBounds (i : Nat)
  | invalidListFixedBytesLen (len : Nat)
  | bytesInvalid (msg : String)
  | unionSelectorInvalid (selector : UInt8)
  deriving DecidableEq, Repr

/-- `BYTES_PER_LENGTH_OFFSET` -/
def bytesPerLengthOffset : Nat := 4

/-- `MAX_UNION_SELECTOR` -/
def maxUnionSelector : UInt8 := 127

/-- `encode_length`: the low four bytes of the length, little-endian. A longer length is cut
to its residue mod 2^32: the crate only `debug_assert!`s that it fits. -/
def encodeLength (len : Nat) : Bytes := leBytes bytesPerLengthOffset len

/-- `read_offset`, with `decode_offset`: the first four bytes, little-endian. -/
def readOffset (bytes : Bytes) : Except DecodeError Nat :=
  if bytes.length < bytesPerLengthOffset then
    .error (.invalidLengthPrefix bytes.length bytesPerLengthOffset)
  else .ok (leValue (bytes.take bytesPerLengthOffset))

/-- `sanitize_offset` -/
def sanitizeOffset (offset : Nat) (previousOffset : Option Nat) (numBytes : Nat)
    (numFixedBytes : Option Nat) : Except DecodeError Nat :=
  if numFixedBytes.any (offset < ·) then .error (.offsetIntoFixedPortion offset)
  else if previousOffset.isNone && numFixedBytes.any (offset ≠ ·) then
    .error (.offsetSkipsVariableBytes offset)
  else if numBytes < offset then .error (.offsetOutOfBounds offset)
  else if previousOffset.any (offset < ·) then .error (.offsetsAreDecreasing offset)
  else .ok offset

/-- `&bytes[start..stop]` -/
def slice (bytes : Bytes) (start stop : Nat) : Bytes := (bytes.drop start).take (stop - start)

/-- `bytes.get(start..stop)` -/
def getRange (bytes : Bytes) (start stop : Nat) : Option Bytes :=
  if start ≤ stop ∧ stop ≤ bytes.length then some (slice bytes start stop) else none

/-- `<[u8]>::chunks(size)`: pieces of `size` bytes, the last one possibly shorter. -/
def chunks (size : Nat) (bytes : Bytes) : List Bytes :=
  if h : size = 0 ∨ bytes = [] then []
  else
    have : (bytes.drop size).length < bytes.length := by
      have := List.length_pos.mpr (not_or.mp h).2
      simp only [List.length_drop]; omega
    bytes.take size :: chunks size (bytes.drop size)
termination_by bytes.length

/-- The `ssz::Encode` and `ssz::Decode` methods of one type: whether its encoding has a fixed
length, and which (`BYTES_PER_LENGTH_OFFSET` for a variable one), the bytes `ssz_append`
puts after a buffer, and `from_ssz_bytes`. -/
structure Codec (α : Type) where
  isFixedLen : Bool
  fixedLen : Nat
  append : α → Bytes
  fromBytes : Bytes → Except DecodeError α

variable {α β : Type}

/-- `ssz_encode` -/
def Codec.encode (t : Codec α) (a : α) : Bytes := t.append a

/-- Every byte string the codec accepts is the encoding of what it read. -/
def Codec.Canonical (t : Codec α) : Prop :=
  ∀ {bytes : Bytes} {a : α}, t.fromBytes bytes = .ok a → t.append a = bytes

/-- The codec reads back what it wrote for `a`. -/
def Codec.RoundTrips (t : Codec α) (a : α) : Prop := t.fromBytes (t.append a) = .ok a

/-- A codec for `β` that writes and reads it as an `α`. -/
def Codec.map (t : Codec α) (f : α → β) (g : β → α) : Codec β where
  isFixedLen := t.isFixedLen
  fixedLen := t.fixedLen
  append b := t.append (g b)
  fromBytes bytes := f <$> t.fromBytes bytes

/-- `SszEncoder`: the fixed parts and offsets go to `buf`, the variable parts wait in
`variableBytes` until `finalize`. -/
structure SszEncoder where
  offset : Nat
  buf : Bytes
  variableBytes : Bytes

/-- `SszEncoder::container` -/
def SszEncoder.container (buf : Bytes) (numFixedBytes : Nat) : SszEncoder :=
  ⟨numFixedBytes, buf, []⟩

/-- `SszEncoder::append_parameterized`, given the bytes the item's `ssz_append` writes. -/
def SszEncoder.appendParameterized (e : SszEncoder) (isSszFixedLen : Bool) (item : Bytes) :
    SszEncoder :=
  if isSszFixedLen then { e with buf := e.buf ++ item }
  else { e with buf := e.buf ++ encodeLength (e.offset + e.variableBytes.length),
                variableBytes := e.variableBytes ++ item }

/-- `SszEncoder::finalize` -/
def SszEncoder.finalize (e : SszEncoder) : Bytes := e.buf ++ e.variableBytes

/-- `<Vec<T> as Encode>::ssz_append`, which `VariableList` and `FixedVector` also use. -/
def appendList (t : Codec α) (items : List α) : Bytes :=
  if t.isFixedLen then items.flatMap t.append
  else (items.foldl (fun e item => e.appendParameterized t.isFixedLen (t.append item))
    (SszEncoder.container [] (items.length * bytesPerLengthOffset))).finalize

/-- The loop of `decode_list_of_variable_length_items` from item `i` of `numItems` on, for
`remaining` more items; `offset` is where item `i` starts. -/
def decodeVariableItems (t : Codec α) (bytes : Bytes) (firstOffset numItems : Nat) :
    (remaining i offset : Nat) → Except DecodeError (List α)
  | 0, _, _ => .ok []
  | remaining + 1, i, offset =>
    if i = numItems then
      match getRange bytes offset bytes.length with
      | none => .error (.outOfBoundsByte offset)
      | some slice => do
        let item ← t.fromBytes slice
        return [item]
    else do
      let nextOffset ← readOffset (bytes.drop (i * bytesPerLengthOffset))
      let offset' ← sanitizeOffset nextOffset (some offset) bytes.length (some firstOffset)
      match getRange bytes offset offset' with
      | none => .error (.outOfBoundsByte offset')
      | some slice => do
        let item ← t.fromBytes slice
        let items ← decodeVariableItems t bytes firstOffset numItems remaining (i + 1) offset'
        return item :: items

/-- `decode_list_of_variable_length_items` -/
def decodeListOfVariableLengthItems (t : Codec α) (bytes : Bytes) (maxLen : Option Nat) :
    Except DecodeError (List α) :=
  if bytes.isEmpty then .ok []
  else do
    let firstOffset ← readOffset bytes
    let _ ← sanitizeOffset firstOffset none bytes.length (some firstOffset)
    if firstOffset % bytesPerLengthOffset ≠ 0 ∨ firstOffset < bytesPerLengthOffset then
      .error (.invalidListFixedBytesLen firstOffset)
    else
      let numItems := firstOffset / bytesPerLengthOffset
      match maxLen with
      | some max =>
        if max < numItems then
          .error (.bytesInvalid
            s!"Variable length list of {numItems} items exceeds maximum of Some({max})")
        else decodeVariableItems t bytes firstOffset numItems numItems 1 firstOffset
      | none => decodeVariableItems t bytes firstOffset numItems numItems 1 firstOffset

/-- `u8`: one byte. -/
def u8 : Codec UInt8 where
  isFixedLen := true
  fixedLen := 1
  append b := [b]
  fromBytes
    | [b] => .ok b
    | bytes => .error (.invalidByteLength bytes.length 1)

/-- `H256`: its 32 bytes. -/
def h256 : Codec H256 where
  isFixedLen := true
  fixedLen := 32
  append h := h.bytes
  fromBytes bytes :=
    if h : bytes.length = 32 then .ok ⟨bytes, h⟩
    else .error (.invalidByteLength bytes.length 32)

/-- `U256`: 32 bytes, little-endian. -/
def u256 : Codec U256 where
  isFixedLen := true
  fixedLen := 32
  append n := leBytes 32 n.val
  fromBytes bytes :=
    if h : bytes.length = 32 then
      .ok ⟨leValue bytes, by simpa [h] using leValue_lt bytes⟩
    else .error (.invalidByteLength bytes.length 32)

/-- `ssz_types::VariableList<T, N>`: at most `n` items. -/
structure VariableList (α : Type) (n : Nat) where
  vec : List α
  length_le : vec.length ≤ n
  deriving DecidableEq

/-- `VariableList::from`: a longer vector is cut to its first `n` items. -/
def VariableList.from {n : Nat} (vec : List α) : VariableList α n :=
  ⟨vec.take n, List.length_take_le n vec⟩

/-- `ssz_types::FixedVector<T, N>`: exactly `n` items. -/
structure FixedVector (α : Type) (n : Nat) where
  vec : List α
  length_eq : vec.length = n
  deriving DecidableEq

/-- `FixedVector::from`: `vec.resize_with(n, Default::default)`. -/
def FixedVector.from [Inhabited α] {n : Nat} (vec : List α) : FixedVector α n :=
  ⟨vec.take n ++ List.replicate (n - vec.length) default, by simp; omega⟩

/-- `<VariableList<T, N> as Decode>::from_ssz_bytes`, before the result is turned into a
`VariableList`. -/
def decodeVariableList (t : Codec α) (n : Nat) (bytes : Bytes) : Except DecodeError (List α) :=
  if bytes.isEmpty then .ok []
  else if t.isFixedLen then
    if t.fixedLen = 0 then .error .zeroLengthItem
    else
      let numItems := bytes.length / t.fixedLen
      if n < numItems then
        .error (.bytesInvalid s!"VariableList of {numItems} items exceeds maximum of {n}")
      else (chunks t.fixedLen bytes).mapM t.fromBytes
  else decodeListOfVariableLengthItems t bytes (some n)

/-- `VariableList<T, N>` -/
def variableList (t : Codec α) (n : Nat) : Codec (VariableList α n) where
  isFixedLen := false
  fixedLen := bytesPerLengthOffset
  append l := appendList t l.vec
  fromBytes bytes := VariableList.from <$> decodeVariableList t n bytes

/-- `FixedVector<T, N>`, for an item type of fixed length (the only kind used here:
`H256`). -/
def fixedVector [Inhabited α] (t : Codec α) (n : Nat) : Codec (FixedVector α n) where
  isFixedLen := t.isFixedLen
  fixedLen := t.fixedLen * n
  append v := appendList t v.vec
  fromBytes bytes :=
    if bytes.isEmpty then .error (.invalidByteLength 0 1)
    else if t.fixedLen = 0 then .error .zeroLengthItem
    else
      let numItems := bytes.length / t.fixedLen
      if numItems ≠ n then
        .error (.bytesInvalid s!"FixedVector of {numItems} items has {n} items")
      else FixedVector.from <$> (chunks t.fixedLen bytes).mapM t.fromBytes

/-- `split_union_bytes`: the selector, at most `MAX_UNION_SELECTOR`, and the body after it. -/
def splitUnionBytes : Bytes → Except DecodeError (UInt8 × Bytes)
  | [] => .error (.outOfBoundsByte 0)
  | selector :: body =>
    if maxUnionSelector < selector then .error (.unionSelectorInvalid selector)
    else .ok (selector, body)

/-- `SszOption<T>`: the union `{None, Some(T)}`, selector 0 for none and 1 for some. -/
def option (t : Codec α) : Codec (Option α) where
  isFixedLen := false
  fixedLen := bytesPerLengthOffset
  append
    | none => [0]
    | some inner => 1 :: t.append inner
  fromBytes bytes := do
    let (selector, body) ← splitUnionBytes bytes
    if selector = 0 then return none
    else if selector = 1 then some <$> t.fromBytes body
    else throw (.unionSelectorInvalid selector)

/-- `SszDecoderBuilder`: the bytes, the slices of the fields registered so far (empty for a
variable field until `build`), the variable fields' positions and offsets, and where the
fixed part read so far ends. -/
structure SszDecoderBuilder where
  bytes : Bytes
  items : List Bytes
  offsets : List (Nat × Nat)
  itemsIndex : Nat

/-- `SszDecoderBuilder::new` -/
def SszDecoderBuilder.new (bytes : Bytes) : SszDecoderBuilder := ⟨bytes, [], [], 0⟩

/-- `SszDecoderBuilder::register_type::<T>` -/
def SszDecoderBuilder.registerType (b : SszDecoderBuilder) (t : Codec α) :
    Except DecodeError SszDecoderBuilder :=
  if t.isFixedLen then
    let itemsIndex := b.itemsIndex + t.fixedLen
    match getRange b.bytes b.itemsIndex itemsIndex with
    | none => .error (.invalidByteLength b.bytes.length itemsIndex)
    | some slice => .ok { b with items := b.items ++ [slice], itemsIndex }
  else do
    let offset ← readOffset (b.bytes.drop b.itemsIndex)
    let offset ← sanitizeOffset offset (b.offsets.getLast?.map Prod.snd) b.bytes.length none
    return { b with offsets := b.offsets ++ [(b.items.length, offset)], items := b.items ++ [[]],
                    itemsIndex := b.itemsIndex + bytesPerLengthOffset }

/-- The loop of `SszDecoderBuilder::finalize`: a variable field's slice runs from its offset
to the next one, the last one's to the end. -/
def fillOffsets (bytes : Bytes) (items : List Bytes) : List (Nat × Nat) → List Bytes
  | [] => items
  | [(position, offset)] => items.set position (bytes.drop offset)
  | (position, offset) :: (position', offset') :: rest =>
    fillOffsets bytes (items.set position (slice bytes offset offset')) ((position', offset') :: rest)

/-- `SszDecoderBuilder::build`, with `finalize`: the slices of all the fields. -/
def SszDecoderBuilder.build (b : SszDecoderBuilder) : Except DecodeError (List Bytes) :=
  match b.offsets.head? with
  | some (_, firstOffset) =>
    if firstOffset < b.itemsIndex then .error (.offsetIntoFixedPortion firstOffset)
    else if b.itemsIndex < firstOffset then .error (.offsetSkipsVariableBytes firstOffset)
    else .ok (fillOffsets b.bytes b.items b.offsets)
  | none =>
    if b.itemsIndex ≠ b.bytes.length then .error (.invalidByteLength b.bytes.length b.itemsIndex)
    else .ok b.items

/-- The bytes a field takes in the fixed part of a container: its own, or an offset. -/
def Codec.fieldLen (t : Codec α) : Nat := if t.isFixedLen then t.fixedLen else bytesPerLengthOffset

/-- A struct of two fields with `#[derive(Encode, Decode)]`. -/
def container2 (a : Codec α) (b : Codec β) : Codec (α × β) where
  isFixedLen := a.isFixedLen && b.isFixedLen
  fixedLen := if a.isFixedLen && b.isFixedLen then a.fixedLen + b.fixedLen else bytesPerLengthOffset
  append x :=
    (((SszEncoder.container [] (a.fieldLen + b.fieldLen)).appendParameterized a.isFixedLen
      (a.append x.1)).appendParameterized b.isFixedLen (b.append x.2)).finalize
  fromBytes bytes :=
    if a.isFixedLen && b.isFixedLen then
      if bytes.length ≠ a.fixedLen + b.fixedLen then
        .error (.invalidByteLength bytes.length (a.fixedLen + b.fixedLen))
      else do
        let x ← a.fromBytes (slice bytes 0 a.fixedLen)
        let y ← b.fromBytes (slice bytes a.fixedLen (a.fixedLen + b.fixedLen))
        return (x, y)
    else do
      let builder ← (SszDecoderBuilder.new bytes).registerType a
      let builder ← builder.registerType b
      let items ← builder.build
      let x ← a.fromBytes (items.getD 0 [])
      let y ← b.fromBytes (items.getD 1 [])
      return (x, y)

end Ssz
end Trin
