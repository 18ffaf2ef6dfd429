import Trin.Ssz.Fixed

/-! Variable-length SSZ items: the offset table the encoder writes before their bodies, and
the two readers of it, `decode_list_of_variable_length_items` for lists and
`SszDecoderBuilder` for containers. -/
namespace Trin.Ssz

variable {α β : Type}

/-- The offsets of `bodies` laid end to end from position `start` on, as `SszEncoder` writes
them. -/
def offsetTable : Nat → List Bytes → Bytes
  | _, [] => []
  | start, body :: bodies => encodeLength start ++ offsetTable (start + body.length) bodies

/-- A list of variable-length items: one offset per item, then the bodies. -/
def layoutList (bodies : List Bytes) : Bytes :=
  offsetTable (bodies.length * bytesPerLengthOffset) bodies ++ bodies.flatten

/-- A container of two variable-length fields: their two offsets, then the bodies. -/
def layout2 (first second : Bytes) : Bytes :=
  encodeLength 8 ++ encodeLength (8 + first.length) ++ first ++ second

@[simp] theorem bytesPerLengthOffset_eq : bytesPerLengthOffset = 4 := rfl

@[simp] theorem length_encodeLength (n : Nat) : (encodeLength n).length = 4 := length_leBytes _ _

@[simp] theorem length_offsetTable (start : Nat) (bodies : List Bytes) :
    (offsetTable start bodies).length = bodies.length * 4 := by
  induction bodies generalizing start with
  | nil => rfl
  | cons body bodies ih => simp [offsetTable, ih, Nat.succ_mul, Nat.add_comm]

theorem length_layoutList (bodies : List Bytes) :
    (layoutList bodies).length = bodies.length * 4 + bodies.flatten.length := by
  simp [layoutList]

theorem readOffset_encodeLength (n : Nat) (rest : Bytes) :
    readOffset (encodeLength n ++ rest) = .ok (n % 2 ^ 32) := by
  have h4 : (encodeLength n ++ rest).take 4 = encodeLength n := List.take_left' (by simp)
  simp only [readOffset, bytesPerLengthOffset, h4, List.length_append, length_encodeLength]
  rw [if_neg (by omega), encodeLength, leValue_leBytes]
  rfl

/-- Dropping the first `i` offsets leaves the table of the remaining bodies, which starts
where the first `i` bodies end. -/
theorem drop_offsetTable {i : Nat} {bodies : List Bytes} (hi : i ≤ bodies.length) (start : Nat) :
    (offsetTable start bodies).drop (i * 4) =
      offsetTable (start + (bodies.take i).flatten.length) (bodies.drop i) := by
  induction i generalizing start bodies with
  | zero => simp
  | succ i ih =>
    obtain _ | ⟨body, bodies⟩ := bodies
    · simp at hi
    rw [offsetTable, Nat.succ_mul, Nat.add_comm, ← List.drop_drop, List.drop_left' (by simp),
      ih (by simpa using hi)]
    simp [Nat.add_assoc]

section Encoder

@[simp] theorem SszEncoder.appendParameterized_variable (e : SszEncoder) (item : Bytes) :
    e.appendParameterized false item =
      ⟨e.offset, e.buf ++ encodeLength (e.offset + e.variableBytes.length),
        e.variableBytes ++ item⟩ := rfl

theorem foldl_appendParameterized (bodies : List Bytes) (e : SszEncoder) :
    bodies.foldl (fun e body => e.appendParameterized false body) e =
      ⟨e.offset, e.buf ++ offsetTable (e.offset + e.variableBytes.length) bodies,
        e.variableBytes ++ bodies.flatten⟩ := by
  induction bodies generalizing e with
  | nil => simp [offsetTable]
  | cons body bodies ih =>
    rw [List.foldl_cons, ih]
    simp [offsetTable, Nat.add_assoc]

/-- A list of variable-length items is encoded as the offset table of their encodings, then
the encodings. -/
theorem appendList_variable {t : Codec α} (ht : t.isFixedLen = false) (items : List α) :
    appendList t items = layoutList (items.map t.append) := by
  have hfold : ∀ e : SszEncoder,
      items.foldl (fun e item => e.appendParameterized t.isFixedLen (t.append item)) e =
        (items.map t.append).foldl (fun e body => e.appendParameterized false body) e := by
    intro e; rw [List.foldl_map, ht]
  rw [appendList, if_neg (by simp [ht]), hfold, foldl_appendParameterized]
  simp [SszEncoder.finalize, SszEncoder.container, layoutList, bytesPerLengthOffset]

/-- A container of two variable-length fields is encoded as `layout2`. -/
theorem container2_append {a : Codec α} {b : Codec β} (ha : a.isFixedLen = false)
    (hb : b.isFixedLen = false) (x : α × β) :
    (container2 a b).append x = layout2 (a.append x.1) (b.append x.2) := by
  simp [container2, Codec.fieldLen, ha, hb, SszEncoder.container, SszEncoder.finalize, layout2,
    bytesPerLengthOffset]

theorem layout2_drop_four (A B : Bytes) :
    (layout2 A B).drop 4 = encodeLength (8 + A.length) ++ (A ++ B) := by
  simp [layout2, List.drop_left']

end Encoder

theorem getRange_of_le {bytes : Bytes} {start stop : Nat} (h1 : start ≤ stop)
    (h2 : stop ≤ bytes.length) : getRange bytes start stop = some (slice bytes start stop) :=
  if_pos ⟨h1, h2⟩

@[simp] theorem slice_append (p c s : Bytes) :
    slice (p ++ c ++ s) p.length (p.length + c.length) = c := by
  simp [slice, List.drop_left']

theorem sanitizeOffset_of_le {offset prev n first : Nat} (h1 : first ≤ offset)
    (h2 : prev ≤ offset) (h3 : offset ≤ n) :
    sanitizeOffset offset (some prev) n (some first) = .ok offset := by
  simp [sanitizeOffset, Nat.not_lt.mpr h1, Nat.not_lt.mpr h2, Nat.not_lt.mpr h3]

theorem readOffset_eq_ok {bytes : Bytes} {v : Nat} (h : readOffset bytes = .ok v) :
    bytes = encodeLength v ++ bytes.drop 4 := by
  unfold readOffset at h
  split at h
  · cases h
  · cases h
    have hl : (bytes.take 4).length = 4 := by simp [bytesPerLengthOffset] at *; omega
    conv_lhs => rw [← List.take_append_drop 4 bytes, ← leBytes_leValue (bytes.take 4), hl]
    rfl

theorem readOffset_lt {bytes : Bytes} {v : Nat} (h : readOffset bytes = .ok v) : v < 2 ^ 32 := by
  unfold readOffset at h
  split at h
  · cases h
  · cases h
    calc leValue (bytes.take bytesPerLengthOffset)
        < 256 ^ (bytes.take bytesPerLengthOffset).length := leValue_lt _
      _ ≤ 256 ^ 4 := Nat.pow_le_pow_right (by decide) (by simp)
      _ = 2 ^ 32 := by norm_num

theorem sanitizeOffset_eq_ok {offset n o : Nat} {prev fixed : Option Nat}
    (h : sanitizeOffset offset prev n fixed = .ok o) :
    o = offset ∧ offset ≤ n ∧ (∀ p ∈ prev, p ≤ offset) ∧ (∀ f ∈ fixed, f ≤ offset) := by
  unfold sanitizeOffset at h
  split_ifs at h with h1 h2 h3 h4
  cases h
  refine ⟨rfl, Nat.not_lt.mp h3, fun p hp => ?_, fun f hf => ?_⟩
  · cases hp; simpa using h4
  · cases hf; simpa using h1

theorem drop_eq_slice_append {bytes : Bytes} {a b : Nat} (h : a ≤ b) :
    bytes.drop a = slice bytes a b ++ bytes.drop b := by
  rw [slice, drop_eq_drop_drop h, List.take_append_drop]

section ListReader
variable (t : Codec α)

/-- The loop of `decode_list_of_variable_length_items` over a table it did not wrap reads
back every body: from item `pre.length` on, it decodes the bodies that are left. -/
theorem decodeVariableItems_layoutList {bodies pre post : List Bytes} {cur : Bytes}
    (hb : bodies = pre ++ cur :: post) (hlt : (layoutList bodies).length < 2 ^ 32) :
    decodeVariableItems t (layoutList bodies) (bodies.length * 4) bodies.length
      (post.length + 1) (pre.length + 1) (bodies.length * 4 + pre.flatten.length) =
        (cur :: post).mapM t.fromBytes := by
  induction post generalizing pre cur with
  | nil =>
    have hN : bodies.length = pre.length + 1 := by simp [hb]
    obtain ⟨P, hP, hsplit⟩ : ∃ P : Bytes, P.length = bodies.length * 4 + pre.flatten.length ∧
        layoutList bodies = P ++ cur ++ [] :=
      ⟨offsetTable (bodies.length * 4) bodies ++ pre.flatten, by simp, by simp [layoutList, hb]⟩
    have hend : (P ++ cur ++ []).length = P.length + cur.length := by simp
    rw [decodeVariableItems, if_pos hN.symm, hsplit, ← hP, hend,
      getRange_of_le (by omega) (by simp), slice_append]
    simp only [List.mapM_cons, List.mapM_nil]
    cases t.fromBytes cur <;> rfl
  | cons next post ih =>
    have hN : bodies.length = pre.length + post.length + 2 := by simp [hb]; omega
    obtain ⟨P, hP, hsplit⟩ : ∃ P : Bytes, P.length = bodies.length * 4 + pre.flatten.length ∧
        layoutList bodies = P ++ cur ++ (next :: post).flatten :=
      ⟨offsetTable (bodies.length * 4) bodies ++ pre.flatten, by simp, by simp [layoutList, hb]⟩
    have hstop : bodies.length * 4 + (pre ++ [cur]).flatten.length = P.length + cur.length := by
      simp [hP, Nat.add_assoc]
    have hle : P.length + cur.length ≤ (layoutList bodies).length := by simp [hsplit]
    have hread : readOffset ((layoutList bodies).drop ((pre.length + 1) * 4)) =
        .ok (P.length + cur.length) := by
      have hb' : bodies = (pre ++ [cur]) ++ next :: post := by simp [hb]
      have htake : bodies.take (pre.length + 1) = pre ++ [cur] := by
        rw [hb']; exact List.take_left' (by simp)
      have hdrop : bodies.drop (pre.length + 1) = next :: post := by
        rw [hb']; exact List.drop_left' (by simp)
      rw [layoutList, List.drop_append_of_le_length (by simp; omega), bytesPerLengthOffset_eq,
        drop_offsetTable (by omega), htake, hdrop, offsetTable, List.append_assoc,
        readOffset_encodeLength, hstop, Nat.mod_eq_of_lt (by omega)]
    have hslice : slice (layoutList bodies) (bodies.length * 4 + pre.flatten.length)
        (P.length + cur.length) = cur := by
      rw [hsplit, ← hP, slice_append]
    have ih' := ih (show bodies = (pre ++ [cur]) ++ next :: post by simp [hb])
    rw [List.length_append, List.length_singleton, hstop] at ih'
    rw [decodeVariableItems, if_neg (by omega), bytesPerLengthOffset_eq, hread, Except.ok_bind,
      sanitizeOffset_of_le (by omega) (by omega) hle, Except.ok_bind,
      getRange_of_le (by omega) hle, hslice]
    simp only [List.length_cons, ih', List.mapM_cons]

theorem sanitizeOffset_variable {offset n : Nat} {prev : Option Nat} (hn : offset ≤ n)
    (hp : ∀ p ∈ prev, p ≤ offset) : sanitizeOffset offset prev n none = .ok offset := by
  cases prev <;> simp_all [sanitizeOffset, Nat.not_lt.mpr hn]

theorem sanitizeOffset_first {offset n : Nat} (h : offset ≤ n) :
    sanitizeOffset offset none n (some offset) = .ok offset := by
  simp [sanitizeOffset, Nat.not_lt.mpr h]

/-- `decode_list_of_variable_length_items` reads a list it wrote without wrapping an offset
back into its bodies, each decoded by `t`. -/
theorem decodeListOfVariableLengthItems_layoutList {bodies : List Bytes} (hne : bodies ≠ [])
    (hlt : (layoutList bodies).length < 2 ^ 32) {n : Nat} (hn : bodies.length ≤ n) :
    decodeListOfVariableLengthItems t (layoutList bodies) (some n) = bodies.mapM t.fromBytes := by
  obtain ⟨cur, post, rfl⟩ := List.exists_cons_of_ne_nil hne
  have hlen := length_layoutList (cur :: post)
  have hloop := decodeVariableItems_layoutList t (show cur :: post = [] ++ cur :: post from rfl) hlt
  simp only [List.length_nil, List.flatten_nil, List.length_cons, Nat.add_zero, Nat.zero_add]
    at hloop hlen
  have hfirst : layoutList (cur :: post) =
      encodeLength ((post.length + 1) * 4) ++ (offsetTable ((post.length + 1) * 4 + cur.length) post
        ++ (cur :: post).flatten) := by
    simp [layoutList, offsetTable]
  rw [decodeListOfVariableLengthItems, if_neg (by simp [← List.length_pos, hlen]), hfirst,
    readOffset_encodeLength, ← hfirst, Nat.mod_eq_of_lt (by omega), Except.ok_bind,
    sanitizeOffset_first (by omega), Except.ok_bind, if_neg (by simp)]
  simp only [bytesPerLengthOffset_eq, Nat.mul_div_cancel _ (show 0 < 4 by decide),
    List.length_cons] at hn ⊢
  rw [if_neg (by omega), hloop]

/-- `VariableList<T, N>` of a variable-length `T` reads the list it wrote, when it did not wrap
an offset, by decoding each item's encoding. -/
theorem decodeVariableList_appendList (ht : t.isFixedLen = false) {n : Nat} {items : List α}
    (hn : items.length ≤ n) (hlt : (appendList t items).length < 2 ^ 32) :
    decodeVariableList t n (appendList t items) = (items.map t.append).mapM t.fromBytes := by
  rw [appendList_variable ht] at hlt ⊢
  cases items with
  | nil => rfl
  | cons item items =>
    rw [decodeVariableList, if_neg (by simp [← List.length_pos, length_layoutList]), ht,
      if_neg Bool.false_ne_true]
    exact decodeListOfVariableLengthItems_layoutList t (by simp) hlt (by simpa using hn)

theorem getRange_eq_some {bytes sl : Bytes} {start stop : Nat}
    (h : getRange bytes start stop = some sl) :
    start ≤ stop ∧ stop ≤ bytes.length ∧ sl = slice bytes start stop := by
  unfold getRange at h
  split at h
  · rename_i hr; cases h; exact ⟨hr.1, hr.2, rfl⟩
  · cases h

theorem length_slice {bytes : Bytes} {start stop : Nat} (h : stop ≤ bytes.length) :
    (slice bytes start stop).length = stop - start := by
  rw [slice, List.length_take, List.length_drop]; omega

/-- What the loop of `decode_list_of_variable_length_items` accepts from item `i` on, with
`k` items after it: the rest of the offset table is the one of the bodies it decoded, and
these bodies fill the bytes from `offset` to the end. -/
theorem decodeVariableItems_eq_ok {bytes : Bytes} {first N : Nat} (k : Nat) :
    ∀ {i offset : Nat} {xs : List α}, i + k = N →
      decodeVariableItems t bytes first N (k + 1) i offset = .ok xs →
      ∃ cur post, post.length = k ∧
        List.Forall₂ (fun c x => t.fromBytes c = .ok x) (cur :: post) xs ∧
        slice bytes (i * 4) (N * 4) = offsetTable (offset + cur.length) post ∧
        bytes.drop offset = cur ++ post.flatten := by
  induction k with
  | zero =>
    intro i offset xs hi h
    rw [decodeVariableItems, if_pos (by omega)] at h
    split at h
    · cases h
    rename_i sl hsl
    obtain ⟨item, hitem, h⟩ := Except.bind_eq_ok.mp h
    cases h
    obtain ⟨-, -, rfl⟩ := getRange_eq_some hsl
    refine ⟨_, [], rfl, .cons hitem .nil, by simp [slice, ← hi, offsetTable], ?_⟩
    simp [slice, List.take_of_length_le]
  | succ k ih =>
    intro i offset xs hi h
    rw [decodeVariableItems, if_neg (by omega)] at h
    obtain ⟨o, ho, h1⟩ := Except.bind_eq_ok.mp h
    obtain ⟨o', ho', h2⟩ := Except.bind_eq_ok.mp h1
    obtain ⟨rfl, hon, hprev, -⟩ := sanitizeOffset_eq_ok ho'
    split at h2
    · cases h2
    rename_i sl hsl
    obtain ⟨item, hitem, h3⟩ := Except.bind_eq_ok.mp h2
    obtain ⟨items, hitems, h4⟩ := Except.bind_eq_ok.mp h3
    cases h4
    obtain ⟨-, -, rfl⟩ := getRange_eq_some hsl
    have hoff : offset ≤ o' := hprev offset rfl
    obtain ⟨cur, post, hk, hall, htable, hdrop⟩ := ih (by omega) hitems
    refine ⟨_, cur :: post, by simp [hk], .cons hitem hall, ?_, ?_⟩
    · have hcell : slice bytes (i * 4) (i * 4 + 4) = encodeLength o' := by
        rw [bytesPerLengthOffset_eq] at ho
        rw [slice, readOffset_eq_ok ho, Nat.add_sub_cancel_left]
        exact List.take_left' (length_encodeLength o')
      rw [← slice_append_slice bytes (Nat.le_add_right _ 4) (by omega), hcell,
        show i * 4 + 4 = (i + 1) * 4 by omega, htable, offsetTable, length_slice hon,
        Nat.add_sub_cancel' hoff]
    · rw [drop_eq_slice_append hoff, hdrop, List.flatten_cons]

/-- Every byte string `decode_list_of_variable_length_items` accepts is the layout of the
bodies it decoded, at most `n` of them. -/
theorem decodeListOfVariableLengthItems_eq_ok {bytes : Bytes} {n : Nat} {xs : List α}
    (h : decodeListOfVariableLengthItems t bytes (some n) = .ok xs) :
    ∃ bodies, bytes = layoutList bodies ∧ bodies.length ≤ n ∧
      List.Forall₂ (fun c x => t.fromBytes c = .ok x) bodies xs := by
  unfold decodeListOfVariableLengthItems at h
  split at h
  · rename_i hb
    cases h
    exact ⟨[], by simpa [layoutList, offsetTable] using hb, by simp, .nil⟩
  obtain ⟨first, hfirst, h1⟩ := Except.bind_eq_ok.mp h
  obtain ⟨_, hsan, h2⟩ := Except.bind_eq_ok.mp h1
  obtain ⟨-, hle, -, -⟩ := sanitizeOffset_eq_ok hsan
  simp only [bytesPerLengthOffset_eq] at h2
  split at h2
  · cases h2
  rename_i hmod
  split at h2
  · cases h2
  rename_i hmax
  obtain ⟨k, hk⟩ : ∃ k, first / 4 = k + 1 := ⟨first / 4 - 1, by omega⟩
  rw [hk] at h2 hmax
  obtain ⟨cur, post, hlen, hall, htable, hdrop⟩ :=
    decodeVariableItems_eq_ok t k (i := 1) (by omega) h2
  have hfirst4 : first = (post.length + 1) * 4 := by omega
  refine ⟨cur :: post, ?_, by simp; omega, hall⟩
  rw [Nat.one_mul, show (k + 1) * 4 = first by omega] at htable
  rw [readOffset_eq_ok hfirst, drop_eq_slice_append (show 4 ≤ first by omega), htable, hdrop]
  simp [layoutList, offsetTable, hfirst4]

theorem decodeVariableList_variable_eq_ok (ht : t.isFixedLen = false) {n : Nat} {bytes : Bytes}
    {xs : List α} (h : decodeVariableList t n bytes = .ok xs) :
    ∃ bodies, bytes = layoutList bodies ∧ bodies.length ≤ n ∧
      List.Forall₂ (fun c x => t.fromBytes c = .ok x) bodies xs := by
  unfold decodeVariableList at h
  split at h
  · rename_i hb
    cases h
    exact ⟨[], by simpa [layoutList, offsetTable] using hb, by simp, .nil⟩
  · rw [ht, if_neg Bool.false_ne_true] at h
    exact decodeListOfVariableLengthItems_eq_ok t h

/-- `VariableList<T, N>` of a variable-length `T` reads back a list it wrote without wrapping
an offset. -/
theorem variableList_roundTrips (ht : t.isFixedLen = false) {n : Nat} {l : VariableList α n}
    (h : ∀ x ∈ l.vec, t.RoundTrips x) (hlt : ((variableList t n).append l).length < 2 ^ 32) :
    (variableList t n).RoundTrips l := by
  simp only [Codec.RoundTrips, variableList] at hlt ⊢
  rw [decodeVariableList_appendList t ht l.length_le hlt, mapM_map_of_forall h]
  exact congrArg _ (VariableList.from_vec l)

end ListReader

section ContainerReader
variable {a : Codec α} {b : Codec β}

/-- `register_type` of a variable-length field reads one offset and checks it. -/
theorem SszDecoderBuilder.registerType_eq_ok {t : Codec α} (ht : t.isFixedLen = false)
    {d d' : SszDecoderBuilder} :
    d.registerType t = .ok d' ↔ ∃ o, readOffset (d.bytes.drop d.itemsIndex) = .ok o ∧
      sanitizeOffset o (d.offsets.getLast?.map Prod.snd) d.bytes.length none = .ok o ∧
      d' = { d with offsets := d.offsets ++ [(d.items.length, o)], items := d.items ++ [[]],
                    itemsIndex := d.itemsIndex + bytesPerLengthOffset } := by
  rw [SszDecoderBuilder.registerType, ht, if_neg Bool.false_ne_true]
  constructor
  · intro h
    obtain ⟨o, ho, h⟩ := Except.bind_eq_ok.mp h
    obtain ⟨o', hs, h⟩ := Except.bind_eq_ok.mp h
    cases h
    obtain ⟨rfl, -⟩ := sanitizeOffset_eq_ok hs
    exact ⟨_, ho, hs, rfl⟩
  · rintro ⟨o, ho, hs, rfl⟩
    rw [ho, Except.ok_bind, hs]
    rfl

/-- A container of two variable-length fields accepts exactly the `layout2` of bodies its
fields accept, the first short enough for the second offset not to wrap. -/
theorem container2_fromBytes_eq_ok (ha : a.isFixedLen = false) (hb : b.isFixedLen = false)
    {bytes : Bytes} {x : α} {y : β} :
    (container2 a b).fromBytes bytes = .ok (x, y) ↔
      ∃ A B, bytes = layout2 A B ∧ 8 + A.length < 2 ^ 32 ∧ a.fromBytes A = .ok x ∧
        b.fromBytes B = .ok y := by
  have hab : (a.isFixedLen && b.isFixedLen) = false := by simp [ha]
  constructor
  · intro h
    simp only [container2, hab, Bool.false_eq_true, if_false] at h
    obtain ⟨bd1, h1, h⟩ := Except.bind_eq_ok.mp h
    obtain ⟨bd2, h2, h⟩ := Except.bind_eq_ok.mp h
    obtain ⟨items, h3, h⟩ := Except.bind_eq_ok.mp h
    obtain ⟨x', hx, h⟩ := Except.bind_eq_ok.mp h
    obtain ⟨y', hy, h⟩ := Except.bind_eq_ok.mp h
    cases h
    obtain ⟨o1, ho1, -, rfl⟩ := (SszDecoderBuilder.registerType_eq_ok ha).mp h1
    obtain ⟨o2, ho2, hs2, rfl⟩ := (SszDecoderBuilder.registerType_eq_ok hb).mp h2
    obtain ⟨-, hle2, hprev, -⟩ := sanitizeOffset_eq_ok hs2
    simp only [SszDecoderBuilder.new, List.drop_zero, bytesPerLengthOffset_eq, Nat.zero_add]
      at ho1 ho2 hle2 hprev h3
    simp [SszDecoderBuilder.build] at h3
    split_ifs at h3
    obtain rfl : o1 = 8 := by omega
    cases h3
    simp only [fillOffsets, List.set_cons_zero, List.set_cons_succ, List.getD_cons_zero,
      List.getD_cons_succ] at hx hy
    have hprev' : 8 ≤ o2 := hprev 8 (by simp)
    have hA : 8 + (slice bytes 8 o2).length = o2 := by rw [length_slice hle2]; omega
    refine ⟨slice bytes 8 o2, bytes.drop o2, ?_, by rw [hA]; exact readOffset_lt ho2, hx, hy⟩
    rw [layout2, hA]
    conv_lhs => rw [readOffset_eq_ok ho1, readOffset_eq_ok ho2, List.drop_drop,
      drop_eq_slice_append hprev']
    simp only [List.append_assoc]
  · rintro ⟨A, B, rfl, hlt, hx, hy⟩
    have hA : slice (layout2 A B) 8 (8 + A.length) = A := by
      simpa [layout2] using slice_append (encodeLength 8 ++ encodeLength (8 + A.length)) A B
    have hB : (layout2 A B).drop (8 + A.length) = B := by
      rw [layout2]; exact List.drop_left' (by simp; omega)
    have hlen : (layout2 A B).length = 8 + A.length + B.length := by simp [layout2]; omega
    have hr1 : readOffset (layout2 A B) = .ok 8 := by
      rw [layout2, List.append_assoc, List.append_assoc, readOffset_encodeLength]; rfl
    have hr2 : readOffset ((layout2 A B).drop 4) = .ok (8 + A.length) := by
      rw [layout2_drop_four, readOffset_encodeLength, Nat.mod_eq_of_lt hlt]
    have h1 : (SszDecoderBuilder.new (layout2 A B)).registerType a =
        .ok ⟨layout2 A B, [[]], [(0, 8)], 4⟩ :=
      (SszDecoderBuilder.registerType_eq_ok ha).mpr ⟨8, hr1,
        sanitizeOffset_variable (by simp [SszDecoderBuilder.new]; omega)
          (by simp [SszDecoderBuilder.new]), rfl⟩
    have h2 : SszDecoderBuilder.registerType ⟨layout2 A B, [[]], [(0, 8)], 4⟩ b =
        .ok ⟨layout2 A B, [[], []], [(0, 8), (1, 8 + A.length)], 8⟩ :=
      (SszDecoderBuilder.registerType_eq_ok hb).mpr
        ⟨8 + A.length, hr2, sanitizeOffset_variable (by simp; omega) (by simp), rfl⟩
    have h3 : SszDecoderBuilder.build ⟨layout2 A B, [[], []], [(0, 8), (1, 8 + A.length)], 8⟩ =
        .ok [A, B] := by
      simp [SszDecoderBuilder.build, fillOffsets, hA, hB]
    simp only [container2, hab, Bool.false_eq_true, if_false]
    rw [h1, Except.ok_bind, h2, Except.ok_bind, h3, Except.ok_bind]
    simp [hx, hy]

theorem container2_roundTrips (ha : a.isFixedLen = false) (hb : b.isFixedLen = false)
    {x : α × β} (hx : a.RoundTrips x.1) (hy : b.RoundTrips x.2)
    (hlt : 8 + (a.append x.1).length < 2 ^ 32) : (container2 a b).RoundTrips x :=
  (container2_fromBytes_eq_ok ha hb).mpr ⟨_, _, container2_append ha hb x, hlt, hx, hy⟩

end ContainerReader

end Trin.Ssz
