import Mathlib.Tactic

/-!
# Unsigned machine integers as natural numbers

`wrap w x` is what an unsigned integer of `w` bits holds after the integer `x` has been stored in
it.  `bigEndian k n` is the low `k` bytes of `n`, the highest first, and `joined` puts bytes together
again; `or_eq_add` is for code that does so by shifts and a bitwise or.
-/

namespace Word

/-- An integer stored in an unsigned integer of `w` bits. -/
def wrap (w : ℕ) (x : ℤ) : ℕ := (x % 2 ^ w).toNat

/-- What fits is stored as it is. -/
theorem wrap_natCast {w n : ℕ} (h : n < 2 ^ w) : wrap w n = n := by
  unfold wrap
  rw [Int.emod_eq_of_lt (Int.natCast_nonneg n) (by exact_mod_cast h), Int.toNat_natCast]

/-- A difference that is not negative and fits is stored as it is. -/
theorem wrap_sub {w a b : ℕ} (hle : b ≤ a) (h : a < 2 ^ w) : wrap w ((a : ℤ) - b) = a - b := by
  rw [← Nat.cast_sub hle]
  exact wrap_natCast (by omega)

/-! ### Bytes, the highest first -/

/-- The low `k` bytes of `n`. -/
def bigEndian : ℕ → ℕ → List UInt8
  | 0, _ => []
  | k + 1, n => UInt8.ofNat (n / 256 ^ k) :: bigEndian k n

@[simp] theorem length_bigEndian (k n : ℕ) : (bigEndian k n).length = k := by
  induction k with
  | zero => rfl
  | succ k ih => rw [bigEndian, List.length_cons, ih]

/-- The number with the given bytes, the highest first. -/
def joined (bs : List UInt8) : ℕ := bs.foldl (fun n b => 256 * n + b.toNat) 0

theorem joined_append_singleton (bs : List UInt8) (b : UInt8) :
    joined (bs ++ [b]) = 256 * joined bs + b.toNat := by
  simp [joined]

theorem bigEndian_succ (k n : ℕ) : bigEndian (k + 1) n = bigEndian k (n / 256) ++ [UInt8.ofNat n] := by
  induction k with
  | zero => simp [bigEndian]
  | succ k ih =>
    rw [bigEndian, ih, bigEndian, List.cons_append, Nat.div_div_eq_div_mul, pow_succ']

/-- What fits in `k` bytes is the number its bytes stand for. -/
theorem joined_bigEndian {k n : ℕ} (h : n < 256 ^ k) : joined (bigEndian k n) = n := by
  induction k generalizing n with
  | zero =>
    rw [pow_zero, Nat.lt_one_iff] at h
    rw [h]
    rfl
  | succ k ih =>
    rw [pow_succ] at h
    rw [bigEndian_succ, joined_append_singleton, ih (by omega), UInt8.toNat_ofNat']
    omega

theorem joined_lt (bs : List UInt8) : joined bs < 256 ^ bs.length := by
  induction bs using List.reverseRecOn with
  | nil => decide
  | append_singleton bs b ih =>
    have hb := b.toNat_lt
    rw [joined_append_singleton, List.length_append, List.length_singleton, pow_succ]
    omega

/-- Bytes are those of the number they stand for. -/
theorem bigEndian_joined (bs : List UInt8) : bigEndian bs.length (joined bs) = bs := by
  induction bs using List.reverseRecOn with
  | nil => rfl
  | append_singleton bs b ih =>
    have hb := b.toNat_lt
    have hdiv : (256 * joined bs + b.toNat) / 256 = joined bs := by omega
    have hbyte : UInt8.ofNat (256 * joined bs + b.toNat) = b := by
      rw [← UInt8.toNat_inj, UInt8.toNat_ofNat']
      omega
    rw [joined_append_singleton, List.length_append, List.length_singleton, bigEndian_succ, hdiv, ih,
      hbyte]

/-- Putting `y` below the multiple `x` of `2 ^ k`. -/
theorem or_eq_add {k x y : ℕ} (hx : 2 ^ k ∣ x) (hy : y < 2 ^ k) : x ||| y = x + y := by
  obtain ⟨a, rfl⟩ := hx
  exact (Nat.two_pow_add_eq_or_of_lt hy a).symm

end Word
