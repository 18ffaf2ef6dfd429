import Mathlib

/-! Byte strings, the fixed-width little-endian numerals both wire formats write lengths
and offsets with, and the `Except` facts every decoder proof peels binds with. -/
namespace Trin

section Except
variable {ε α β : Type}

@[simp] theorem Except.ok_bind (a : α) (f : α → Except ε β) : (Except.ok a >>= f) = f a := rfl

@[simp] theorem Except.error_bind (e : ε) (f : α → Except ε β) :
    (Except.error e >>= f) = .error e := rfl

theorem Except.bind_eq_ok {x : Except ε α} {f : α → Except ε β} {b : β} :
    x >>= f = .ok b ↔ ∃ a, x = .ok a ∧ f a = .ok b := by
  cases x <;> simp

theorem Except.bind_eq_error {x : Except ε α} {f : α → Except ε β} {e : ε} :
    x >>= f = .error e ↔ x = .error e ∨ ∃ a, x = .ok a ∧ f a = .error e := by
  cases x <;> simp

@[simp] theorem Except.mapError_ok {ε' : Type} (f : ε → ε') (a : α) :
    (Except.ok a : Except ε α).mapError f = .ok a := rfl

@[simp] theorem Except.mapError_error {ε' : Type} (f : ε → ε') (e : ε) :
    (Except.error e : Except ε α).mapError f = .error (f e) := rfl

@[simp] theorem Except.throw_eq_error (e : ε) : (throw e : Except ε α) = .error e := rfl

@[simp] theorem Except.pure_eq_ok (a : α) : (pure a : Except ε α) = .ok a := rfl

theorem mapM_eq_ok_iff {f : β → Except ε α} {l : List β} {xs : List α} :
    l.mapM f = .ok xs ↔ List.Forall₂ (fun c x => f c = .ok x) l xs := by
  induction l generalizing xs with
  | nil =>
    rw [List.mapM_nil]
    cases xs <;> simp
  | cons c l ih =>
    simp only [List.mapM_cons, Except.bind_eq_ok, Except.pure_eq_ok, Except.ok.injEq, ih]
    cases xs <;> simp [List.forall₂_cons, eq_comm]

theorem mapM_map_of_forall {f : β → Except ε α} {g : α → β} {xs : List α}
    (h : ∀ x ∈ xs, f (g x) = .ok x) : (xs.map g).mapM f = .ok xs := by
  induction xs with
  | nil => rfl
  | cons x xs ih =>
    simp only [List.map_cons, List.mapM_cons, h x (List.mem_cons_self x xs),
      ih fun y hy => h y (List.mem_cons_of_mem x hy), Except.ok_bind, Except.pure_eq_ok]

theorem mapM_ok_of_forall {f : β → Except ε α} {l : List β}
    (h : ∀ c ∈ l, ∃ a, f c = .ok a) : ∃ xs, l.mapM f = .ok xs := by
  induction l with
  | nil => exact ⟨[], rfl⟩
  | cons c l ih =>
    obtain ⟨a, ha⟩ := h c (List.mem_cons_self c l)
    obtain ⟨xs, hxs⟩ := ih fun d hd => h d (List.mem_cons_of_mem c hd)
    exact ⟨a :: xs, by simp only [List.mapM_cons, ha, hxs, Except.ok_bind, Except.pure_eq_ok]⟩

end Except

abbrev Bytes := List UInt8

@[simp] theorem toNat_ofNat_byte (n : Nat) : (UInt8.ofNat n).toNat = n % 256 := by
  simp [UInt8.toNat, UInt8.ofNat]

theorem toNat_lt_byte (b : UInt8) : b.toNat < 256 := b.toNat_lt_size

@[simp] theorem size_byte : UInt8.size = 256 := rfl

@[simp] theorem ofNat_toNat_byte (b : UInt8) : UInt8.ofNat b.toNat = b := by
  rw [UInt8.ext_iff, toNat_ofNat_byte, Nat.mod_eq_of_lt (toNat_lt_byte b)]

theorem byte_lt_iff {a b : UInt8} : a < b ↔ a.toNat < b.toNat := UInt8.lt_def

/-- The low `width` bytes of `n`, least significant first: `n.to_le_bytes()[..width]`. -/
def leBytes : Nat → Nat → Bytes
  | 0, _ => []
  | width + 1, n => UInt8.ofNat n :: leBytes width (n / 256)

/-- `from_le_bytes` -/
def leValue : Bytes → Nat
  | [] => 0
  | b :: bs => b.toNat + 256 * leValue bs

@[simp] theorem length_leBytes (width n : Nat) : (leBytes width n).length = width := by
  induction width generalizing n with
  | zero => rfl
  | succ width ih => simp [leBytes, ih]

theorem leValue_leBytes (width n : Nat) : leValue (leBytes width n) = n % 256 ^ width := by
  induction width generalizing n with
  | zero => simp [leBytes, leValue, Nat.mod_one]
  | succ width ih => simp [leBytes, leValue, ih, Nat.pow_succ', Nat.mod_mul]

theorem leValue_lt (bs : Bytes) : leValue bs < 256 ^ bs.length := by
  induction bs with
  | nil => simp [leValue]
  | cons b bs ih =>
    have := toNat_lt_byte b
    simp only [leValue, List.length_cons, Nat.pow_succ']
    omega


@[simp] theorem leBytes_zero (width : Nat) : leBytes width 0 = List.replicate width 0 := by
  induction width with
  | zero => rfl
  | succ width ih => simp [leBytes, ih, List.replicate_succ]

/-- Writing a value at a wider width pads its bytes with zeros. -/
theorem leBytes_leValue_add (bs : Bytes) (k : Nat) :
    leBytes (bs.length + k) (leValue bs) = bs ++ List.replicate k 0 := by
  induction bs with
  | nil => simp [leValue]
  | cons b bs ih =>
    have hb := toNat_lt_byte b
    have hdiv : (b.toNat + 256 * leValue bs) / 256 = leValue bs := by omega
    rw [List.length_cons, Nat.add_right_comm]
    show UInt8.ofNat (b.toNat + 256 * leValue bs) ::
      leBytes (bs.length + k) ((b.toNat + 256 * leValue bs) / 256) = b :: (bs ++ _)
    rw [hdiv, ih, List.cons.injEq, UInt8.ext_iff, toNat_ofNat_byte]
    exact ⟨by omega, rfl⟩

theorem leValue_append (xs ys : Bytes) :
    leValue (xs ++ ys) = leValue xs + 256 ^ xs.length * leValue ys := by
  induction xs with
  | nil => simp [leValue]
  | cons x xs ih =>
    rw [List.cons_append, leValue, leValue, ih, List.length_cons, Nat.pow_succ']
    ring

theorem leBytes_leValue (bs : Bytes) : leBytes bs.length (leValue bs) = bs := by
  simpa using leBytes_leValue_add bs 0

@[simp] theorem leValue_replicate_zero (k : Nat) : leValue (List.replicate k 0) = 0 := by
  induction k with
  | zero => rfl
  | succ k ih => simp [List.replicate_succ, leValue, ih]

/-- A value that fits is written exactly: its bytes read back to it. -/
theorem leValue_leBytes_of_lt {width n : Nat} (h : n < 256 ^ width) :
    leValue (leBytes width n) = n := by
  rw [leValue_leBytes, Nat.mod_eq_of_lt h]

end Trin
