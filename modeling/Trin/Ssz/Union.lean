import Trin.Ssz.Offsets

/-! `SszOption<T>` of `content_item.rs`: the union `{None, Some(T)}` behind the optional
header proof. -/
namespace Trin.Ssz

variable {α : Type} {t : Codec α}

@[simp] theorem option_append_none : (option t).append none = [0] := rfl

@[simp] theorem option_append_some (a : α) : (option t).append (some a) = 1 :: t.append a := rfl

theorem option_fromBytes_cons (s : UInt8) (body : Bytes) :
    (option t).fromBytes (s :: body) =
      if maxUnionSelector < s then .error (.unionSelectorInvalid s)
      else if s = 0 then .ok none
      else if s = 1 then some <$> t.fromBytes body
      else .error (.unionSelectorInvalid s) := by
  simp only [option, splitUnionBytes]
  split <;> rfl

/-- Selectors 2 and up are refused, by `split_union_bytes` above `MAX_UNION_SELECTOR` and by
`from_ssz_bytes` below it. -/
theorem option_fromBytes_selector_ge_two {s : UInt8} (hs : 2 ≤ s.toNat) (body : Bytes) :
    (option t).fromBytes (s :: body) = .error (.unionSelectorInvalid s) := by
  have h0 : s ≠ 0 := fun h => by simp [h] at hs
  have h1 : s ≠ 1 := fun h => by simp [h] at hs
  rw [option_fromBytes_cons]
  split <;> simp [h0, h1]

/-- What `SszOption<T>::from_ssz_bytes` accepts: selector 0 followed by anything, read as
`None`, or selector 1 followed by bytes `T` accepts. -/
theorem option_fromBytes_eq_ok {bytes : Bytes} {o : Option α} :
    (option t).fromBytes bytes = .ok o ↔
      (o = none ∧ ∃ rest, bytes = 0 :: rest) ∨
        ∃ a e, o = some a ∧ bytes = 1 :: e ∧ t.fromBytes e = .ok a := by
  cases bytes with
  | nil => simp [option, splitUnionBytes]
  | cons s body =>
    rw [option_fromBytes_cons]
    by_cases h0 : s = 0
    · subst h0; simp [maxUnionSelector, eq_comm]
    by_cases h1 : s = 1
    · subst h1
      cases hb : t.fromBytes body <;> simp [maxUnionSelector, hb, eq_comm]
    have hs : 2 ≤ s.toNat := by
      rw [UInt8.ext_iff] at h0 h1; simp at h0 h1; omega
    rw [← option_fromBytes_cons, option_fromBytes_selector_ge_two hs]
    simp [h0, h1]

theorem option_canonical_some {bytes : Bytes} {a : α} (ht : t.Canonical)
    (h : (option t).fromBytes bytes = .ok (some a)) : (option t).append (some a) = bytes := by
  obtain ⟨h, -⟩ | ⟨a', e, ha, rfl, he⟩ := option_fromBytes_eq_ok.mp h
  · cases h
  · cases ha; simp [ht he]

theorem option_roundTrips {o : Option α} (h : ∀ a, o = some a → t.RoundTrips a) :
    (option t).RoundTrips o := by
  cases o with
  | none => rfl
  | some a => exact option_fromBytes_eq_ok.mpr (.inr ⟨a, _, rfl, rfl, h a rfl⟩)

/-- A `None` has an encoding for every suffix after selector 0. -/
theorem option_none_trailing :
    u8.Canonical ∧ (option u8).fromBytes [0, 0] = .ok none ∧ (option u8).append none ≠ [0, 0] :=
  ⟨u8_fixedWidth.canonical, rfl, by decide⟩

/-- `SszOption<T>` for a canonical `T`: what it accepts, that re-encoding reproduces the input
up to the bytes ignored after a `None` selector, and that selectors from 2 on are refused. -/
theorem option_fromBytes_reencode (ht : t.Canonical) :
    (∀ bytes o, (option t).fromBytes bytes = .ok o ↔
      (o = none ∧ ∃ rest, bytes = 0 :: rest) ∨
        ∃ a e, o = some a ∧ bytes = 1 :: e ∧ t.fromBytes e = .ok a) ∧
    (∀ bytes o, (option t).fromBytes bytes = .ok o →
      ∃ rest, bytes = (option t).append o ++ rest ∧ (o.isSome → rest = [])) ∧
    (∀ s body, 2 ≤ s.toNat → (option t).fromBytes (s :: body) = .error (.unionSelectorInvalid s)) := by
  refine ⟨fun _ _ => option_fromBytes_eq_ok, fun bytes o h => ?_,
    fun _ body hs => option_fromBytes_selector_ge_two hs body⟩
  cases o with
  | none =>
    obtain ⟨-, rest, rfl⟩ | ⟨a, e, ha, -⟩ := option_fromBytes_eq_ok.mp h
    · exact ⟨rest, rfl, by simp⟩
    · cases ha
  | some a => exact ⟨[], by simp [option_canonical_some ht h], fun _ => rfl⟩

theorem option_u8_reencode : u8.Canonical ∧
    ((∀ bytes o, (option u8).fromBytes bytes = .ok o ↔
      (o = none ∧ ∃ rest, bytes = 0 :: rest) ∨
        ∃ a e, o = some a ∧ bytes = 1 :: e ∧ u8.fromBytes e = .ok a) ∧
    (∀ bytes o, (option u8).fromBytes bytes = .ok o →
      ∃ rest, bytes = (option u8).append o ++ rest ∧ (o.isSome → rest = [])) ∧
    (∀ s body, 2 ≤ s.toNat →
      (option u8).fromBytes (s :: body) = .error (.unionSelectorInvalid s))) :=
  ⟨u8_fixedWidth.canonical, option_fromBytes_reencode u8_fixedWidth.canonical⟩

end Trin.Ssz
