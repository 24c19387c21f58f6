import Mathlib.Tactic

/-!
# Combining bytes with a key stream

`crypt key i bs` is `bs` with the `k`-th byte combined by exclusive or with `key (i + k)`.  Applied
twice from the same place of the stream it changes nothing, and a list may be taken in pieces as
long as the place is carried along.
-/

namespace Keystream

/-- The bytes `bs` under the key stream from place `i` on. -/
def crypt (key : ℕ → UInt8) : ℕ → List UInt8 → List UInt8
  | _, [] => []
  | i, b :: bs => (b ^^^ key i) :: crypt key (i + 1) bs

variable (key : ℕ → UInt8)

@[simp] theorem crypt_nil (i : ℕ) : crypt key i [] = [] := rfl

@[simp] theorem crypt_cons (i : ℕ) (b : UInt8) (bs : List UInt8) :
    crypt key i (b :: bs) = (b ^^^ key i) :: crypt key (i + 1) bs := rfl

@[simp] theorem length_crypt (i : ℕ) (bs : List UInt8) : (crypt key i bs).length = bs.length := by
  induction bs generalizing i with
  | nil => rfl
  | cons b bs ih => rw [crypt_cons, List.length_cons, List.length_cons, ih]

/-- Decrypting what has been encrypted. -/
@[simp] theorem crypt_crypt (i : ℕ) (bs : List UInt8) : crypt key i (crypt key i bs) = bs := by
  induction bs generalizing i with
  | nil => rfl
  | cons b bs ih => rw [crypt_cons, crypt_cons, ih, UInt8.xor_assoc, UInt8.xor_self, UInt8.xor_zero]

theorem take_crypt (i n : ℕ) (bs : List UInt8) :
    (crypt key i bs).take n = crypt key i (bs.take n) := by
  induction bs generalizing i n with
  | nil => simp
  | cons b bs ih =>
    cases n with
    | zero => rfl
    | succ n => rw [crypt_cons, List.take_succ_cons, List.take_succ_cons, crypt_cons, ih]

theorem drop_crypt (i n : ℕ) (bs : List UInt8) :
    (crypt key i bs).drop n = crypt key (i + n) (bs.drop n) := by
  induction bs generalizing i n with
  | nil => simp
  | cons b bs ih =>
    cases n with
    | zero => rfl
    | succ n =>
      rw [crypt_cons, List.drop_succ_cons, List.drop_succ_cons, ih]
      congr 1
      omega

theorem crypt_append (i : ℕ) (bs cs : List UInt8) :
    crypt key i (bs ++ cs) = crypt key i bs ++ crypt key (i + bs.length) cs := by
  induction bs generalizing i with
  | nil => rfl
  | cons b bs ih =>
    rw [List.cons_append, crypt_cons, crypt_cons, ih, List.cons_append, List.length_cons,
      Nat.add_assoc, Nat.add_comm 1]

theorem getElem_crypt {i k : ℕ} {bs : List UInt8} (h : k < (crypt key i bs).length)
    (h' : k < bs.length) : (crypt key i bs)[k] = bs[k] ^^^ key (i + k) := by
  induction bs generalizing i k with
  | nil => cases h'
  | cons b bs ih =>
    cases k with
    | zero => rfl
    | succ k =>
      simp only [crypt_cons, List.getElem_cons_succ]
      rw [ih, Nat.add_assoc, Nat.add_comm 1]

end Keystream
