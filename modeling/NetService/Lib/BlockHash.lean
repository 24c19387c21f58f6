import Mathlib.Tactic

/-!
# Hashing block by block

`chain f n h bs k` is the value after the first `k` blocks of `n` elements of `bs`, where `f` takes a
block into the value and `h` is the value before the first one; `hash` goes through all the whole
blocks.

An incremental hash holds `hash` and the elements of the block that is not yet full, which are `rest`.
What it takes in either leaves that block unfinished (`hash_append_of_lt`, `rest_append_of_lt`) or
fills it (`hash_append_of_eq`, `rest_append_of_eq`).
-/

namespace BlockHash

variable {α σ : Type*}

/-- The block of `n` elements behind the first `k` blocks. -/
def block (n : ℕ) (bs : List α) (k : ℕ) : List α := (bs.drop (n * k)).take n

/-- The value after `k` blocks. -/
def chain (f : σ → List α → σ) (n : ℕ) (h : σ) (bs : List α) : ℕ → σ
  | 0 => h
  | k + 1 => f (chain f n h bs k) (block n bs k)

/-- The value after all the whole blocks. -/
def hash (f : σ → List α → σ) (n : ℕ) (h : σ) (bs : List α) : σ := chain f n h bs (bs.length / n)

/-- The elements behind the last whole block. -/
def rest (n : ℕ) (bs : List α) : List α := bs.drop (n * (bs.length / n))

variable {f : σ → List α → σ} {n : ℕ} {h : σ} {bs cs : List α}

/-- What stands behind the first `k` blocks does not matter for them. -/
theorem chain_append {k : ℕ} (hk : n * k ≤ bs.length) :
    chain f n h (bs ++ cs) k = chain f n h bs k := by
  induction k with
  | zero => rfl
  | succ k ih =>
    rw [Nat.mul_succ] at hk
    have hblock : block n (bs ++ cs) k = block n bs k := by
      unfold block
      rw [List.drop_append_of_le_length (by omega), List.take_append_of_le_length]
      rw [List.length_drop]
      omega
    rw [chain, chain, hblock, ih (by omega)]

@[simp] theorem length_rest : (rest n bs).length = bs.length % n := by
  rw [rest, List.length_drop]
  have hdiv := Nat.div_add_mod bs.length n
  omega

theorem rest_of_lt (hlt : bs.length < n) : rest n bs = bs := by
  rw [rest, Nat.div_eq_of_lt hlt, Nat.mul_zero, List.drop_zero]

theorem length_append_div (hlt : bs.length % n + cs.length < n) :
    (bs ++ cs).length / n = bs.length / n := by
  have hdiv := Nat.div_add_mod bs.length n
  have hmul : (bs.length / n + 1) * n = n * (bs.length / n) + n := by ring
  rw [List.length_append]
  apply Nat.div_eq_of_lt_le
  · rw [Nat.mul_comm]
    omega
  · rw [hmul]
    omega

theorem length_append_full (hfull : bs.length % n + cs.length = n) :
    (bs ++ cs).length = n * (bs.length / n + 1) := by
  have hdiv := Nat.div_add_mod bs.length n
  rw [List.length_append, Nat.mul_succ]
  omega

/-! ### A block that is not full yet -/

theorem hash_append_of_lt (hlt : bs.length % n + cs.length < n) :
    hash f n h (bs ++ cs) = hash f n h bs := by
  rw [hash, length_append_div hlt, chain_append (Nat.mul_div_le _ _), hash]

theorem rest_append_of_lt (hlt : bs.length % n + cs.length < n) :
    rest n (bs ++ cs) = rest n bs ++ cs := by
  rw [rest, length_append_div hlt, List.drop_append_of_le_length (Nat.mul_div_le _ _), rest]

/-! ### A block that has become full -/

theorem hash_append_of_eq (hn : 0 < n) (hfull : bs.length % n + cs.length = n) :
    hash f n h (bs ++ cs) = f (hash f n h bs) (rest n bs ++ cs) := by
  have hblock : block n (bs ++ cs) (bs.length / n) = rest n bs ++ cs := by
    rw [block, List.drop_append_of_le_length (Nat.mul_div_le _ _)]
    apply List.take_of_length_le
    rw [List.length_append, ← rest, length_rest, hfull]
  rw [hash, length_append_full hfull, Nat.mul_div_cancel_left _ hn, chain,
    chain_append (Nat.mul_div_le _ _), hblock, hash]

theorem rest_append_of_eq (hfull : bs.length % n + cs.length = n) : rest n (bs ++ cs) = [] := by
  apply List.eq_nil_of_length_eq_zero
  rw [length_rest, length_append_full hfull, Nat.mul_mod_right]

end BlockHash
