import Mathlib.Tactic

/-!
# Counting processes by their state

`tally wt g` adds up a weight of the states `g i` of finitely many processes: how many of them are
blocked, how many hold a given token.  A step of one process changes one state, and `tally_update`
says what that does to the sum.
-/

namespace Tally

variable {ι σ : Type*}

/-- A process found in a state the update did not give was in that state before. -/
theorem of_update_eq [DecidableEq ι] {g : ι → σ} {i j : ι} {x y : σ}
    (h : Function.update g i x j = y) (hxy : x ≠ y) : g j = y := by
  by_cases hj : j = i
  · subst hj
    exact absurd (by simpa using h) hxy
  · simpa [hj] using h

variable [Fintype ι]

/-- The weights of the processes' states, added up. -/
def tally (wt : σ → ℕ) (g : ι → σ) : ℕ := ∑ i, wt (g i)

/-- Moving one process from its state to `x` exchanges their weights. -/
theorem tally_update [DecidableEq ι] (wt : σ → ℕ) (g : ι → σ) (i : ι) (x : σ) :
    tally wt (Function.update g i x) + wt (g i) = tally wt g + wt x := by
  have hcomp : (fun j => wt (Function.update g i x j)) =
      Function.update (fun j => wt (g j)) i (wt x) := by
    funext j
    rcases eq_or_ne j i with rfl | hne
    · simp
    · simp [hne]
  have hnew := Finset.sum_update_of_mem (Finset.mem_univ i) (fun j => wt (g j)) (wt x)
  have hold := Finset.add_sum_erase Finset.univ (fun j => wt (g j)) (Finset.mem_univ i)
  rw [Finset.sdiff_singleton_eq_erase] at hnew
  unfold tally
  rw [hcomp, hnew, ← hold]
  omega

theorem tally_congr {wt : σ → ℕ} {g g' : ι → σ} (h : ∀ i, wt (g i) = wt (g' i)) :
    tally wt g = tally wt g' :=
  Finset.sum_congr rfl fun i _ => h i

theorem tally_eq_zero {wt : σ → ℕ} {g : ι → σ} (h : ∀ i, wt (g i) = 0) : tally wt g = 0 :=
  Finset.sum_eq_zero fun i _ => h i

theorem le_tally (wt : σ → ℕ) (g : ι → σ) (i : ι) : wt (g i) ≤ tally wt g :=
  Finset.single_le_sum (f := fun i => wt (g i)) (fun _ _ => Nat.zero_le _) (Finset.mem_univ i)

/-- Two processes. -/
theorem add_le_tally (wt : σ → ℕ) (g : ι → σ) {i j : ι} (h : i ≠ j) :
    wt (g i) + wt (g j) ≤ tally wt g := by
  classical
  rw [← Finset.sum_pair (f := fun i => wt (g i)) h]
  exact Finset.sum_le_sum_of_subset (Finset.subset_univ _)

theorem exists_of_tally_pos {wt : σ → ℕ} {g : ι → σ} (h : 0 < tally wt g) : ∃ i, 0 < wt (g i) := by
  by_contra hnone
  push Not at hnone
  rw [tally_eq_zero fun i => Nat.le_zero.1 (hnone i)] at h
  cases h

end Tally
