import NetService.Lib.LTS

/-!
# Progress

A rank bounds what a system can do by itself.  The labels have prices; a step without price lowers
the rank, and one with a price raises it by less than the price.  A run has then at most as many
steps as the rank of its first state and the prices that were paid, and where no step without price
is left, the system is at rest.
-/

namespace LTS

variable {σ ι : Type*} {M : LTS σ ι} {rank : σ → ℕ} {cost : ι → ℕ}

/-- Every step lowers the rank, up to its price. -/
def Ranked (M : LTS σ ι) (rank : σ → ℕ) (cost : ι → ℕ) : Prop :=
  ∀ s a t, M.step s a t → rank t + 1 ≤ rank s + cost a

/-- Only steps with a price are possible. -/
def AtRest (M : LTS σ ι) (cost : ι → ℕ) (s : σ) : Prop :=
  ∀ a t, M.step s a t → 0 < cost a

theorem Ranked.length_le (h : M.Ranked rank cost) {s t : σ} {as : List ι} (hrun : M.Run s as t) :
    as.length + rank t ≤ rank s + (as.map cost).sum := by
  induction hrun with
  | nil => simp
  | cons hstep _ ih =>
    have hpays := h _ _ _ hstep
    rw [List.length_cons, List.map_cons, List.sum_cons]
    omega

/-- From every state the system comes to rest by steps without price. -/
theorem Ranked.rests (h : M.Ranked rank cost) (s : σ) :
    ∃ as t, M.Run s as t ∧ (∀ a ∈ as, cost a = 0) ∧ M.AtRest cost t := by
  induction hrank : rank s using Nat.strong_induction_on generalizing s with
  | _ r ih =>
    by_cases hrest : M.AtRest cost s
    · exact ⟨[], s, .nil s, nofun, hrest⟩
    · unfold AtRest at hrest
      push Not at hrest
      obtain ⟨a, u, hstep, hfree⟩ := hrest
      have hpays := h _ _ _ hstep
      obtain ⟨as, t, hrun, hall, ht⟩ := ih (rank u) (by omega) u rfl
      refine ⟨a :: as, t, .cons hstep hrun, ?_, ht⟩
      rw [List.forall_mem_cons]
      exact ⟨Nat.le_zero.1 hfree, hall⟩

end LTS
