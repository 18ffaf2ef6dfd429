import Trin.Ssz.Basic

/-! Fixed-length SSZ types, and lists of them: such a list is its items' encodings laid end
to end, read back in chunks of the item length. -/
namespace Trin.Ssz

variable {α β : Type}

@[simp] theorem chunks_nil (size : Nat) : chunks size [] = [] := by
  rw [chunks]; simp

theorem chunks_append {size : Nat} {x : Bytes} (rest : Bytes) (hx : x.length = size)
    (hpos : 0 < size) : chunks size (x ++ rest) = x :: chunks size rest := by
  rw [chunks, dif_neg (by rintro (h | h) <;> simp_all [List.append_eq_nil])]
  simp [List.take_left' hx, List.drop_left' hx]

theorem chunks_flatMap {size : Nat} {f : α → Bytes} (hf : ∀ a, (f a).length = size)
    (hpos : 0 < size) (xs : List α) : chunks size (xs.flatMap f) = xs.map f := by
  induction xs with
  | nil => simp
  | cons x xs ih => rw [List.flatMap_cons, chunks_append _ (hf x) hpos, ih, List.map_cons]

theorem flatten_chunks {size : Nat} (hpos : 0 < size) (bytes : Bytes) :
    (chunks size bytes).flatten = bytes := by
  induction bytes using chunks.induct size with
  | case1 bytes h => rw [chunks, dif_pos h]; simpa [hpos.ne'] using h.symm
  | case2 bytes h _ ih => rw [chunks, dif_neg h, List.flatten_cons, ih, List.take_append_drop]

/-- When the length is a multiple of the chunk size, no chunk is short. -/
theorem length_of_mem_chunks {size : Nat} {bytes : Bytes}
    (hd : size ∣ bytes.length) : ∀ c ∈ chunks size bytes, c.length = size := by
  induction bytes using chunks.induct size with
  | case1 bytes h => rw [chunks, dif_pos h]; simp
  | case2 bytes h _ ih =>
    have hne : bytes ≠ [] := (not_or.mp h).2
    have hle : size ≤ bytes.length := Nat.le_of_dvd (List.length_pos.mpr hne) hd
    rw [chunks, dif_neg h]
    intro c hc
    rcases List.mem_cons.mp hc with rfl | hc
    · simp; omega
    · exact ih (by simpa [List.length_drop] using Nat.dvd_sub' hd (dvd_refl size)) c hc

/-- A fixed-length codec that is a bijection between its values and the byte strings of its
length. -/
structure Codec.FixedWidth (t : Codec α) : Prop where
  isFixedLen : t.isFixedLen = true
  fixedLen_pos : 0 < t.fixedLen
  length_append : ∀ a, (t.append a).length = t.fixedLen
  fromBytes_append : ∀ a, t.fromBytes (t.append a) = .ok a
  append_of_fromBytes : ∀ {bytes a}, t.fromBytes bytes = .ok a → t.append a = bytes
  fromBytes_of_length : ∀ {bytes}, bytes.length = t.fixedLen → ∃ a, t.fromBytes bytes = .ok a

theorem Codec.FixedWidth.canonical {t : Codec α} (ht : t.FixedWidth) : t.Canonical :=
  ht.append_of_fromBytes

theorem u8_fixedWidth : u8.FixedWidth where
  isFixedLen := rfl
  fixedLen_pos := by decide
  length_append _ := rfl
  fromBytes_append _ := rfl
  append_of_fromBytes := by
    intro bytes a h
    match bytes, h with
    | [b], h => cases h; rfl
    | [], h => cases h
    | _ :: _ :: _, h => cases h
  fromBytes_of_length := by
    intro bytes h
    match bytes, h with
    | [b], _ => exact ⟨b, rfl⟩

theorem h256_fixedWidth : h256.FixedWidth where
  isFixedLen := rfl
  fixedLen_pos := by decide
  length_append h := h.length_bytes
  fromBytes_append h := by simp [h256, h.length_bytes]
  append_of_fromBytes := by
    intro bytes a h
    simp only [h256] at h
    split at h
    · cases h; rfl
    · cases h
  fromBytes_of_length := by
    intro bytes h
    exact ⟨⟨bytes, h⟩, by simp [h256, h]⟩

theorem u256_fixedWidth : u256.FixedWidth where
  isFixedLen := rfl
  fixedLen_pos := by decide
  length_append _ := length_leBytes 32 _
  fromBytes_append n := by
    simp only [u256, length_leBytes, dite_true, Except.ok.injEq]
    exact Fin.ext (leValue_leBytes_of_lt (by simp [n.isLt]))
  append_of_fromBytes := by
    intro bytes a h
    simp only [u256] at h
    split at h
    · rename_i hl
      cases h
      show leBytes 32 (leValue bytes) = bytes
      rw [← hl, leBytes_leValue]
    · cases h
  fromBytes_of_length := by
    intro bytes h
    have h' : bytes.length = 32 := h
    simp only [u256, dif_pos h', Except.ok.injEq, exists_eq']

theorem drop_eq_drop_drop {bytes : Bytes} {a b : Nat} (h : a ≤ b) :
    bytes.drop b = (bytes.drop a).drop (b - a) := by
  rw [List.drop_drop, Nat.add_sub_cancel' h]

theorem slice_append_slice (bytes : Bytes) {a b c : Nat} (h1 : a ≤ b) (h2 : b ≤ c) :
    slice bytes a b ++ slice bytes b c = slice bytes a c := by
  rw [slice, slice, slice, drop_eq_drop_drop h1, ← List.take_add]
  congr 1; omega

section ContainerFixed
variable {a : Codec α} {b : Codec β}

theorem container2_append_fixed (ha : a.FixedWidth) (hb : b.FixedWidth) (x : α × β) :
    (container2 a b).append x = a.append x.1 ++ b.append x.2 := by
  simp [container2, Codec.fieldLen, SszEncoder.container, SszEncoder.appendParameterized,
    SszEncoder.finalize, ha.isFixedLen, hb.isFixedLen]

/-- The derive's fixed path: a length check, then each field from its own slice. -/
theorem container2_fromBytes_fixed (ha : a.FixedWidth) (hb : b.FixedWidth) (bytes : Bytes) :
    (container2 a b).fromBytes bytes =
      if bytes.length ≠ a.fixedLen + b.fixedLen then
        .error (.invalidByteLength bytes.length (a.fixedLen + b.fixedLen))
      else do
        let x ← a.fromBytes (slice bytes 0 a.fixedLen)
        let y ← b.fromBytes (slice bytes a.fixedLen (a.fixedLen + b.fixedLen))
        return (x, y) := by
  simp only [container2, ha.isFixedLen, hb.isFixedLen, Bool.and_self, if_true]

/-- Two fixed-width fields make a fixed-width container. -/
theorem container2_fixedWidth (ha : a.FixedWidth) (hb : b.FixedWidth) :
    (container2 a b).FixedWidth := by
  have hlen : (container2 a b).fixedLen = a.fixedLen + b.fixedLen := by
    simp only [container2, ha.isFixedLen, hb.isFixedLen, Bool.and_self, if_true]
  refine ⟨by simp [container2, ha.isFixedLen, hb.isFixedLen],
    by rw [hlen]; exact Nat.add_pos_left ha.fixedLen_pos _, fun x => ?_, fun x => ?_,
    fun {bytes x} h => ?_, fun {bytes} h => ?_⟩
  · rw [container2_append_fixed ha hb, hlen, List.length_append, ha.length_append,
      hb.length_append]
  · have h1 : slice (a.append x.1 ++ b.append x.2) 0 a.fixedLen = a.append x.1 := by
      simp [slice, List.take_left' (ha.length_append _)]
    have h2 : slice (a.append x.1 ++ b.append x.2) a.fixedLen (a.fixedLen + b.fixedLen) =
        b.append x.2 := by
      simp [slice, List.drop_left' (ha.length_append _), hb.length_append]
    rw [container2_append_fixed ha hb, container2_fromBytes_fixed ha hb,
      if_neg (by simp [ha.length_append, hb.length_append]), h1, h2, ha.fromBytes_append,
      hb.fromBytes_append]
    rfl
  · rw [container2_fromBytes_fixed ha hb] at h
    split at h
    · cases h
    · obtain ⟨y, hy, h⟩ := Except.bind_eq_ok.mp h
      obtain ⟨z, hz, h⟩ := Except.bind_eq_ok.mp h
      cases h
      rw [container2_append_fixed ha hb, ha.append_of_fromBytes hy, hb.append_of_fromBytes hz,
        slice_append_slice _ (Nat.zero_le _) (Nat.le_add_right _ _), slice, List.drop_zero,
        List.take_of_length_le (by omega)]
  · rw [hlen] at h
    obtain ⟨x, hx⟩ := ha.fromBytes_of_length
      (show (slice bytes 0 a.fixedLen).length = a.fixedLen by simp [slice]; omega)
    obtain ⟨y, hy⟩ := hb.fromBytes_of_length
      (show (slice bytes a.fixedLen (a.fixedLen + b.fixedLen)).length = b.fixedLen by
        simp [slice]; omega)
    exact ⟨(x, y), by rw [container2_fromBytes_fixed ha hb, if_neg (by omega), hx, hy]; rfl⟩

end ContainerFixed

theorem Codec.map_fixedWidth {t : Codec α} (ht : t.FixedWidth) {f : α → β} {g : β → α}
    (hfg : ∀ b, f (g b) = b) (hgf : ∀ a, g (f a) = a) : (t.map f g).FixedWidth where
  isFixedLen := ht.isFixedLen
  fixedLen_pos := ht.fixedLen_pos
  length_append _ := ht.length_append _
  fromBytes_append b := by simp [Codec.map, ht.fromBytes_append, hfg]
  append_of_fromBytes := by
    intro bytes b h
    obtain ⟨a, ha, rfl⟩ : ∃ a, t.fromBytes bytes = .ok a ∧ f a = b := by
      simp only [Codec.map] at h
      cases hb : t.fromBytes bytes <;> simp_all
    simpa [Codec.map, hgf] using ht.append_of_fromBytes ha
  fromBytes_of_length := by
    intro bytes h
    obtain ⟨a, ha⟩ := ht.fromBytes_of_length h
    exact ⟨f a, by simp [Codec.map, ha]⟩

theorem VariableList.ext_iff {n : Nat} {l l' : VariableList α n} : l = l' ↔ l.vec = l'.vec := by
  cases l; cases l'; simp

theorem VariableList.from_vec {n : Nat} (l : VariableList α n) : VariableList.from l.vec = l :=
  VariableList.ext_iff.mpr (List.take_of_length_le l.length_le)

theorem FixedVector.from_vec [Inhabited α] {n : Nat} (v : FixedVector α n) :
    FixedVector.from v.vec = v := by
  obtain ⟨vec, rfl⟩ := v
  simp [FixedVector.from]

theorem variableList_fromBytes_ok {t : Codec α} {n : Nat} {bytes : Bytes}
    {l : VariableList α n} : (variableList t n).fromBytes bytes = .ok l ↔
      ∃ xs, decodeVariableList t n bytes = .ok xs ∧ VariableList.from xs = l := by
  show VariableList.from <$> decodeVariableList t n bytes = _ ↔ _
  cases decodeVariableList t n bytes <;> simp

theorem variableList_append (t : Codec α) {n : Nat} (l : VariableList α n) :
    (variableList t n).append l = appendList t l.vec := rfl

section FixedWidth
variable {t : Codec α} (ht : t.FixedWidth) {n : Nat}
include ht

theorem appendList_fixed (xs : List α) : appendList t xs = xs.flatMap t.append := by
  simp [appendList, ht.isFixedLen]

theorem map_append_of_mapM {l : List Bytes} {xs : List α} (h : l.mapM t.fromBytes = .ok xs) :
    xs.map t.append = l := by
  have h2 := mapM_eq_ok_iff.mp h
  clear h
  induction h2 with
  | nil => rfl
  | cons hc _ ih => rw [List.map_cons, ih, ht.append_of_fromBytes hc]

theorem length_flatMap_fixed (xs : List α) :
    (xs.flatMap t.append).length = xs.length * t.fixedLen := by
  induction xs with
  | nil => simp
  | cons x xs ih => simp [ht.length_append, ih, Nat.succ_mul, Nat.add_comm]

/-- A list of fixed-width items is read exactly from its items' encodings laid end to end,
and only when it has at most `n` items. -/
theorem decodeVariableList_fixed_eq_ok {n : Nat} {bytes : Bytes} {xs : List α} :
    decodeVariableList t n bytes = .ok xs ↔ xs.length ≤ n ∧ bytes = xs.flatMap t.append := by
  have hk := ht.fixedLen_pos
  constructor
  · intro h
    by_cases hb : bytes = []
    · subst hb; simp [decodeVariableList] at h; subst h; simp
    simp only [decodeVariableList, List.isEmpty_iff, hb, if_false, ht.isFixedLen, if_true,
      Nat.pos_iff_ne_zero.mp hk] at h
    split at h
    · cases h
    rename_i hn
    have hbytes : bytes = xs.flatMap t.append := by
      rw [List.flatMap, map_append_of_mapM ht h, flatten_chunks hk]
    refine ⟨?_, hbytes⟩
    have := length_flatMap_fixed ht xs
    rw [← hbytes] at this
    rw [this, Nat.mul_div_cancel _ hk] at hn
    omega
  · rintro ⟨hn, rfl⟩
    cases xs with
    | nil => rfl
    | cons x xs =>
      have hne : (x :: xs).flatMap t.append ≠ [] := by
        simp [List.flatMap_cons, ← List.length_pos, ht.length_append, hk]
      simp only [decodeVariableList, List.isEmpty_iff, hne, if_false, ht.isFixedLen, if_true,
        Nat.pos_iff_ne_zero.mp hk, length_flatMap_fixed ht, Nat.mul_div_cancel _ hk,
        if_neg (Nat.not_lt.mpr hn), chunks_flatMap ht.length_append hk]
      exact mapM_map_of_forall fun y _ => ht.fromBytes_append y

/-- `VariableList<T, N>` of a fixed-width `T` is a bijection: bytes are read exactly when they
are the encoding of the list read. -/
theorem variableList_fromBytes_eq_ok {n : Nat} {bytes : Bytes} {l : VariableList α n} :
    (variableList t n).fromBytes bytes = .ok l ↔ bytes = (variableList t n).append l := by
  simp only [variableList, appendList_fixed ht]
  constructor
  · intro h
    obtain ⟨xs, hxs, rfl⟩ := variableList_fromBytes_ok.mp h
    obtain ⟨hn, rfl⟩ := (decodeVariableList_fixed_eq_ok ht).mp hxs
    simp [VariableList.from, List.take_of_length_le hn]
  · rintro rfl
    rw [(decodeVariableList_fixed_eq_ok ht).mpr ⟨l.length_le, rfl⟩]
    exact congrArg _ (VariableList.from_vec l)

/-- Which byte strings a `VariableList<T, N>` of a fixed-width `T` accepts: a whole number of
items, at most `n`. -/
theorem variableList_fromBytes_isOk {n : Nat} {bytes : Bytes} :
    (∃ l, (variableList t n).fromBytes bytes = .ok l) ↔
      t.fixedLen ∣ bytes.length ∧ bytes.length ≤ n * t.fixedLen := by
  constructor
  · rintro ⟨l, hl⟩
    rw [(variableList_fromBytes_eq_ok ht).mp hl]
    simp only [variableList, appendList_fixed ht, length_flatMap_fixed ht]
    exact ⟨Dvd.intro_left _ rfl, Nat.mul_le_mul_right _ l.length_le⟩
  · rintro ⟨hd, hn⟩
    obtain ⟨xs, hxs⟩ := mapM_ok_of_forall fun c hc =>
      ht.fromBytes_of_length (length_of_mem_chunks hd c hc)
    have hbytes : bytes = xs.flatMap t.append := by
      rw [List.flatMap, map_append_of_mapM ht hxs, flatten_chunks ht.fixedLen_pos]
    have hlen : xs.length ≤ n := by
      have := length_flatMap_fixed ht xs
      rw [← hbytes] at this
      exact Nat.le_of_mul_le_mul_right (this ▸ hn) ht.fixedLen_pos
    exact ⟨⟨xs, hlen⟩,
      (variableList_fromBytes_eq_ok ht).mpr (by simpa [variableList, appendList_fixed ht])⟩

theorem fixedVector_append [Inhabited α] (v : FixedVector α n) :
    (fixedVector t n).append v = v.vec.flatMap t.append := appendList_fixed ht v.vec

/-- `FixedVector<T, N>` of a fixed-width `T`, `N ≥ 1`, is a bijection too. -/
theorem fixedVector_fromBytes_eq_ok [Inhabited α] (hn : 0 < n) {bytes : Bytes}
    {v : FixedVector α n} :
    (fixedVector t n).fromBytes bytes = .ok v ↔ bytes = (fixedVector t n).append v := by
  have hk := ht.fixedLen_pos
  rw [fixedVector_append ht]
  constructor
  · intro h
    simp only [fixedVector, ht.isFixedLen, Nat.pos_iff_ne_zero.mp hk, if_false] at h
    split at h
    · cases h
    split at h
    · cases h
    rename_i hb hnum
    obtain ⟨xs, hxs, rfl⟩ : ∃ xs, (chunks t.fixedLen bytes).mapM t.fromBytes = .ok xs ∧
        FixedVector.from xs = v := by
      cases hd : (chunks t.fixedLen bytes).mapM t.fromBytes <;> simp_all
    have hbytes : bytes = xs.flatMap t.append := by
      rw [List.flatMap, map_append_of_mapM ht hxs, flatten_chunks hk]
    have hlen : xs.length = n := by
      have := length_flatMap_fixed ht xs
      rw [← hbytes] at this
      rw [this, Nat.mul_div_cancel _ hk] at hnum
      omega
    simpa [FixedVector.from, ← hlen] using hbytes
  · rintro rfl
    have hne : v.vec.flatMap t.append ≠ [] := by
      obtain ⟨x, xs, hx⟩ := List.exists_cons_of_ne_nil
        (List.ne_nil_of_length_pos (v.length_eq ▸ hn))
      simp [hx, ← List.length_pos, ht.length_append, hk]
    simp only [fixedVector, List.isEmpty_iff, hne, if_false, Nat.pos_iff_ne_zero.mp hk,
      length_flatMap_fixed ht, Nat.mul_div_cancel _ hk, v.length_eq, ne_eq, not_true_eq_false,
      chunks_flatMap ht.length_append hk, mapM_map_of_forall fun y _ => ht.fromBytes_append y]
    simp [FixedVector.from_vec]

end FixedWidth

/-- A byte list `VariableList<u8, N>` is read exactly from its own bytes. -/
theorem byteList_fromBytes_eq_ok {n : Nat} {bytes : Bytes} {l : VariableList UInt8 n} :
    (variableList u8 n).fromBytes bytes = .ok l ↔ bytes = l.vec := by
  rw [variableList_fromBytes_eq_ok u8_fixedWidth]
  simp [variableList, appendList, u8]

@[simp] theorem byteList_append {n : Nat} (l : VariableList UInt8 n) :
    (variableList u8 n).append l = l.vec := by
  simp [variableList, appendList, u8]

theorem byteList_roundTrips {n : Nat} (l : VariableList UInt8 n) :
    (variableList u8 n).RoundTrips l :=
  byteList_fromBytes_eq_ok.mpr (byteList_append l)

theorem VariableList.from_of_le {n : Nat} {vec : List α} (h : vec.length ≤ n) :
    (VariableList.from vec : VariableList α n) = ⟨vec, h⟩ :=
  VariableList.ext_iff.mpr (List.take_of_length_le h)

end Trin.Ssz
