import Mathlib.Data.List.TakeWhile
import Mathlib.Tactic

/-!
# C strings

A C string is the list of its bytes without the terminating `'\0'`; `ascii` is a string literal.

* `strtok` is one call of `strtok_r`, and `tokens` the tokens that repeated calls return.
* `strlen`, `strcpy`, `strncpy` and `strcat` work on a block of memory.  They fail when they would read
  or write outside it; `strcpy_spec` and the others say what the block holds where they do not.
-/

namespace CString

/-- The bytes of a literal of ASCII characters. -/
def ascii (s : String) : List UInt8 := s.toList.map fun c => UInt8.ofNat c.toNat

/-! ### Tokens -/

/-- `strtok_r`: the next token and what `saveptr` points to afterwards. -/
def strtok (delim s : List UInt8) : Option (List UInt8 × List UInt8) :=
  let s := s.dropWhile (· ∈ delim)
  if s = [] then none else some (s.takeWhile (· ∉ delim), (s.dropWhile (· ∉ delim)).drop 1)

/-- The nonempty parts between the delimiters. -/
def tokens (delim s : List UInt8) : List (List UInt8) :=
  (s.splitOnP (· ∈ delim)).filter (· ≠ [])

section
variable {delim : List UInt8}

@[simp] theorem tokens_nil : tokens delim [] = [] := by
  rw [tokens, List.splitOnP_nil]
  rfl

theorem tokens_cons {c : UInt8} (h : c ∈ delim) (s : List UInt8) :
    tokens delim (c :: s) = tokens delim s := by
  have hsplit : (c :: s).splitOnP (· ∈ delim) = [] :: s.splitOnP (· ∈ delim) := by
    have happ := List.splitOnP_append_cons_of_forall_mem (p := (· ∈ delim))
      (fun x (hx : x ∈ []) => absurd hx List.not_mem_nil) c (by simpa using h) s
    simpa using happ
  rw [tokens, hsplit, List.filter_cons_of_neg (by simp), tokens]

/-- Delimiters in front are skipped. -/
theorem tokens_dropWhile (s : List UInt8) : tokens delim (s.dropWhile (· ∈ delim)) = tokens delim s := by
  induction s with
  | nil => rfl
  | cons c s ih =>
    by_cases hc : c ∈ delim
    · rw [List.dropWhile_cons_of_pos (by simpa using hc), ih, tokens_cons hc]
    · rw [List.dropWhile_cons_of_neg (by simpa using hc)]

/-- A token that ends with the string. -/
theorem tokens_self {t : List UInt8} (hne : t ≠ []) (h : ∀ c ∈ t, c ∉ delim) :
    tokens delim t = [t] := by
  rw [tokens, List.splitOnP_eq_singleton (by simpa using h), List.filter_cons_of_pos (by simpa using hne)]
  rfl

/-- A token that a delimiter ends. -/
theorem tokens_append {t : List UInt8} (hne : t ≠ []) (h : ∀ c ∈ t, c ∉ delim) {c : UInt8}
    (hc : c ∈ delim) (s : List UInt8) : tokens delim (t ++ c :: s) = t :: tokens delim s := by
  rw [tokens, List.splitOnP_append_cons_of_forall_mem (by simpa using h) c (by simpa using hc) s,
    List.filter_cons_of_pos (by simpa using hne), tokens]

/-- There is a token unless the string has delimiters only. -/
theorem tokens_of_strtok_none {s : List UInt8} (h : strtok delim s = none) : tokens delim s = [] := by
  rw [strtok] at h
  split_ifs at h with hempty
  rw [← tokens_dropWhile, hempty, tokens_nil]

/-- A call of `strtok_r` returns the first token, and the calls after it the others. -/
theorem tokens_of_strtok_some {s t rest : List UInt8} (h : strtok delim s = some (t, rest)) :
    tokens delim s = t :: tokens delim rest ∧ rest.length < s.length := by
  rw [strtok] at h
  split_ifs at h with hempty
  have hlen := (List.dropWhile_suffix (l := s) fun x => decide (x ∈ delim)).length_le
  have hhead : ∀ c u, s.dropWhile (· ∈ delim) = c :: u → c ∉ delim := by
    intro c u heq
    have hnot := List.head?_dropWhile_not (· ∈ delim) s
    simpa [heq] using hnot
  rw [← tokens_dropWhile]
  generalize s.dropWhile (· ∈ delim) = u at *
  obtain ⟨c, v, rfl⟩ := List.exists_cons_of_ne_nil hempty
  simp only [Option.some.injEq, Prod.mk.injEq] at h
  obtain ⟨rfl, rfl⟩ := h
  have hc : c ∉ delim := hhead c v rfl
  have hne : (c :: v).takeWhile (· ∉ delim) ≠ [] := by
    rw [List.takeWhile_cons_of_pos (by simpa using hc)]
    exact List.cons_ne_nil _ _
  have hfree : ∀ x ∈ (c :: v).takeWhile (· ∉ delim), x ∉ delim := by
    intro x hx
    simpa using List.mem_takeWhile_imp hx
  have hsplit := List.takeWhile_append_dropWhile (p := (· ∉ delim)) (l := c :: v)
  have hpos := List.length_pos_iff.2 hne
  have hsum := congrArg List.length hsplit
  rw [List.length_append] at hsum
  have hhead' := List.head?_dropWhile_not (· ∉ delim) (c :: v)
  cases hrest : (c :: v).dropWhile (· ∉ delim) with
  | nil =>
    rw [hrest, List.append_nil] at hsplit
    rw [List.drop_nil, tokens_nil]
    refine ⟨?_, ?_⟩
    · rw [← tokens_self hne hfree, hsplit]
    · rw [List.length_nil]
      exact lt_of_lt_of_le (Nat.succ_pos _) hlen
  | cons d w =>
    rw [hrest] at hsplit hsum hhead'
    rw [List.length_cons] at hsum
    have hd : d ∈ delim := by simpa using hhead'
    refine ⟨?_, ?_⟩
    · rw [List.drop_succ_cons, List.drop_zero, ← tokens_append hne hfree hd, hsplit]
    · rw [List.drop_succ_cons, List.drop_zero]
      omega

theorem mem_of_mem_splitOnP {p : UInt8 → Bool} {s t : List UInt8} (h : t ∈ s.splitOnP p) {c : UInt8}
    (hc : c ∈ t) : c ∈ s := by
  induction s generalizing t with
  | nil =>
    rw [List.splitOnP_nil, List.mem_singleton] at h
    rwa [h] at hc
  | cons x s ih =>
    rw [List.splitOnP_cons_eq_if_modifyHead] at h
    split_ifs at h with hx
    · rcases List.mem_cons.1 h with rfl | h
      · cases hc
      · exact List.mem_cons_of_mem _ (ih h hc)
    · cases hsplit : s.splitOnP p with
      | nil => exact absurd hsplit (List.splitOnP_ne_nil p s)
      | cons u us =>
        rw [hsplit, List.modifyHead_cons] at h
        rcases List.mem_cons.1 h with rfl | h
        · rcases List.mem_cons.1 hc with rfl | hc
          · exact List.mem_cons_self
          · exact List.mem_cons_of_mem _ (ih (hsplit ▸ List.mem_cons_self) hc)
        · exact List.mem_cons_of_mem _ (ih (hsplit ▸ List.mem_cons_of_mem _ h) hc)

/-- The bytes of a token are bytes of the string. -/
theorem mem_of_mem_tokens {s t : List UInt8} (h : t ∈ tokens delim s) {c : UInt8} (hc : c ∈ t) :
    c ∈ s :=
  mem_of_mem_splitOnP (List.mem_of_mem_filter h) hc

end

/-! ### Blocks of memory -/

/-- `bs` written to the cells from `i` on. -/
def overwrite (m : List UInt8) (i : ℕ) (bs : List UInt8) : Option (List UInt8) :=
  if i + bs.length ≤ m.length then some (m.take i ++ bs ++ m.drop (i + bs.length)) else none

/-- `strlen` -/
def strlen (m : List UInt8) : Option ℕ :=
  if 0 ∈ m then some (m.takeWhile (· ≠ 0)).length else none

/-- The string at the beginning of the block. -/
def content (m : List UInt8) : Option (List UInt8) :=
  if 0 ∈ m then some (m.takeWhile (· ≠ 0)) else none

/-- `strcpy` -/
def strcpy (m s : List UInt8) : Option (List UInt8) := overwrite m 0 (s ++ [0])

/-- `strncpy` -/
def strncpy (m s : List UInt8) (n : ℕ) : Option (List UInt8) :=
  overwrite m 0 (s.take n ++ List.replicate (n - s.length) 0)

/-- `strcat` -/
def strcat (m s : List UInt8) : Option (List UInt8) := do
  let n ← strlen m
  overwrite m n (s ++ [0])

section
variable {s t m : List UInt8}

theorem takeWhile_string (h : 0 ∉ s) (m : List UInt8) : (s ++ 0 :: m).takeWhile (· ≠ 0) = s := by
  have hall : ∀ c ∈ s, decide (c ≠ 0) = true := by
    intro c hc
    exact decide_eq_true fun hzero => h (hzero ▸ hc)
  rw [List.takeWhile_append_of_pos hall, List.takeWhile_cons_of_neg (by simp), List.append_nil]

theorem content_string (h : 0 ∉ s) (m : List UInt8) : content (s ++ 0 :: m) = some s := by
  rw [content, if_pos (by simp), takeWhile_string h]

theorem strlen_string (h : 0 ∉ s) (m : List UInt8) : strlen (s ++ 0 :: m) = some s.length := by
  rw [strlen, if_pos (by simp), takeWhile_string h]

theorem strcpy_spec (h : s.length + 1 ≤ m.length) :
    strcpy m s = some (s ++ 0 :: m.drop (s.length + 1)) := by
  rw [strcpy, overwrite, if_pos (by simpa using h)]
  simp

/-- Behind the string there are the `m` cells that `strcat` writes to. -/
theorem strcat_spec (h : 0 ∉ s) (hroom : t.length ≤ m.length) :
    strcat (s ++ 0 :: m) t = some (s ++ t ++ 0 :: m.drop t.length) := by
  have hfit : s.length + (t ++ [0]).length ≤ (s ++ 0 :: m).length := by
    simp only [List.length_append, List.length_cons, List.length_nil]
    omega
  have hdrop : (s ++ 0 :: m).drop (s.length + (t ++ [0]).length) = m.drop t.length := by
    rw [List.length_append, List.length_singleton, List.drop_append, List.drop_eq_nil_of_le (by omega),
      List.nil_append, Nat.add_sub_cancel_left, List.drop_succ_cons]
  rw [strcat, strlen_string h, Option.bind_eq_bind, Option.bind_some, overwrite, if_pos hfit, hdrop,
    List.take_left]
  simp

end

end CString
