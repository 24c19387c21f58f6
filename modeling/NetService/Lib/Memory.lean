import Mathlib.Tactic

/-!
# Memory blocks

A block of memory is a function from cell indices to cell values.  `load` reads a run of
consecutive cells and `store` overwrites one, as `memcpy` does.  The length of the block is
kept by its user, who also checks the bounds; the lemmas below say what a `load` sees after a
`store` below it, above it, at it and just behind it.
-/

namespace Memory

variable {α : Type*}

/-- The `n` cells of `m` from index `i` on. -/
def load (m : ℕ → α) (i n : ℕ) : List α := (List.range' i n).map m

/-- Overwrite the cells of `m` from index `i` on by `bs`. -/
def store (m : ℕ → α) (i : ℕ) (bs : List α) : ℕ → α :=
  fun j => if i ≤ j then (bs[j - i]?).getD (m j) else m j

/-! ### Reading -/

@[simp] theorem length_load (m : ℕ → α) (i n : ℕ) : (load m i n).length = n := by
  simp [load]

@[simp] theorem load_zero (m : ℕ → α) (i : ℕ) : load m i 0 = [] := rfl

theorem getElem?_load (m : ℕ → α) (i n k : ℕ) :
    (load m i n)[k]? = if k < n then some (m (i + k)) else none := by
  by_cases h : k < n
  · simp [load, h]
  · rw [if_neg h, List.getElem?_eq_none]
    rw [length_load]
    omega

@[simp] theorem getElem_load (m : ℕ → α) (i n k : ℕ) (h : k < (load m i n).length) :
    (load m i n)[k] = m (i + k) := by
  simp [load]

theorem load_add (m : ℕ → α) (i a b : ℕ) :
    load m i (a + b) = load m i a ++ load m (i + a) b := by
  unfold load
  rw [← List.map_append, List.range'_append_1]

/-- The first cell and the ones behind it. -/
theorem load_succ (m : ℕ → α) (i n : ℕ) : load m i (n + 1) = m i :: load m (i + 1) n := by
  rw [Nat.add_comm n 1, load_add]
  rfl

theorem load_congr {m m' : ℕ → α} {i n : ℕ} (h : ∀ j, i ≤ j → j < i + n → m j = m' j) :
    load m i n = load m' i n := by
  refine List.map_congr_left fun j hj => ?_
  rw [List.mem_range'_1] at hj
  exact h j hj.1 hj.2

theorem take_load (m : ℕ → α) (i n k : ℕ) (h : k ≤ n) : (load m i n).take k = load m i k := by
  obtain ⟨d, rfl⟩ := Nat.exists_eq_add_of_le h
  rw [load_add, List.take_left' (length_load m i k)]

theorem drop_load (m : ℕ → α) (i n k : ℕ) (h : k ≤ n) :
    (load m i n).drop k = load m (i + k) (n - k) := by
  obtain ⟨d, rfl⟩ := Nat.exists_eq_add_of_le h
  rw [load_add, List.drop_left' (length_load m i k), Nat.add_sub_cancel_left]

/-! ### Writing -/

@[simp] theorem store_nil (m : ℕ → α) (i : ℕ) : store m i [] = m := by
  funext j
  simp [store]

theorem store_below (m : ℕ → α) {i j : ℕ} (bs : List α) (h : j < i) : store m i bs j = m j := by
  unfold store
  rw [if_neg (by omega)]

theorem store_above (m : ℕ → α) {i j : ℕ} (bs : List α) (h : i + bs.length ≤ j) :
    store m i bs j = m j := by
  unfold store
  rw [if_pos (by omega), List.getElem?_eq_none (by omega), Option.getD_none]

theorem store_at (m : ℕ → α) (i k : ℕ) (bs : List α) (h : k < bs.length) :
    store m i bs (i + k) = bs[k] := by
  unfold store
  rw [if_pos (by omega), Nat.add_sub_cancel_left, List.getElem?_eq_getElem h, Option.getD_some]

/-- Overwriting one cell and then the ones behind it. -/
theorem store_update (m : ℕ → α) (i : ℕ) (b : α) (bs : List α) :
    store (Function.update m i b) (i + 1) bs = store m i (b :: bs) := by
  funext j
  rcases Nat.lt_trichotomy j i with hlt | rfl | hgt
  · rw [store_below _ _ (by omega), store_below _ _ hlt, Function.update_of_ne hlt.ne]
  · rw [store_below _ _ (by omega), Function.update_self]
    exact (store_at m j 0 (b :: bs) (Nat.zero_lt_succ _)).symm
  · have hsucc : j - i = j - (i + 1) + 1 := by omega
    unfold store
    rw [if_pos (by omega), if_pos (by omega), Function.update_of_ne hgt.ne', hsucc,
      List.getElem?_cons_succ]

/-! ### Reading after writing -/

/-- A run of cells of which one is overwritten. -/
theorem load_update (m : ℕ → α) (i n k : ℕ) (v : α) :
    load (Function.update m (i + k) v) i n = (load m i n).set k v := by
  refine List.ext_getElem (by simp) fun j _ _ => ?_
  rw [getElem_load, List.getElem_set, getElem_load]
  by_cases hjk : k = j
  · rw [if_pos hjk, hjk, Function.update_self]
  · rw [if_neg hjk, Function.update_of_ne (by omega)]

/-- A run of cells behind one that is overwritten. -/
theorem load_update_above (m : ℕ → α) {i j : ℕ} (n : ℕ) (v : α) (h : i < j) :
    load (Function.update m i v) j n = load m j n :=
  load_congr fun _ hk _ => Function.update_of_ne (by omega) _ _

@[simp] theorem load_store (m : ℕ → α) (i : ℕ) (bs : List α) :
    load (store m i bs) i bs.length = bs := by
  refine List.ext_getElem (by simp) fun k h _ => ?_
  rw [getElem_load, store_at]

theorem load_store_below (m : ℕ → α) {i n k : ℕ} (bs : List α) (h : i + n ≤ k) :
    load (store m k bs) i n = load m i n :=
  load_congr fun _ _ hj => store_below m bs (by omega)

/-- Appending `bs` behind the first `n` cells. -/
theorem load_store_append (m : ℕ → α) (i n : ℕ) (bs : List α) :
    load (store m (i + n) bs) i (n + bs.length) = load m i n ++ bs := by
  rw [load_add, load_store, load_store_below m bs le_rfl]

end Memory
