import Mathlib.Tactic

/-!
# Loops that may fault or run for ever

The body of a loop is a function that says what one pass does: go round again with a new state,
leave the loop, or fault.  `iter` makes a bounded number of passes, so that it can be evaluated;
`Ends` and `Diverges` are the unbounded statements.

* `ends_of_measure`: an invariant and a decreasing measure give termination and the result;
* `Ends.of_invariant`: an invariant alone describes whatever result there is;
* `diverges_of_invariant`: an invariant under which every pass goes round again;
* `ends_iff`: a predicate that every further pass keeps, and without which a measure decreases, is
  exactly what keeps a loop from ending.

A loop that counts to a fixed number is `Nat.fold`; `fold_invariant` is its rule.
-/

namespace Loop

/-- What one pass through a loop body does. -/
inductive Pass (σ ρ ε : Type*)
  | next (s : σ)
  | done (r : ρ)
  | fault (e : ε)

variable {σ ρ ε : Type*}

/-- At most `fuel` passes from `s`; `none` when the loop is still running after them. -/
def iter (body : σ → Pass σ ρ ε) : ℕ → σ → Option (Except ε ρ)
  | 0, _ => none
  | fuel + 1, s =>
      match body s with
      | .next s' => iter body fuel s'
      | .done r => some (.ok r)
      | .fault e => some (.error e)

/-- Entered in state `s`, the loop ends with `out`. -/
def Ends (body : σ → Pass σ ρ ε) (s : σ) (out : Except ε ρ) : Prop :=
  ∃ fuel, iter body fuel s = some out

/-- Entered in state `s`, the loop goes round for ever. -/
def Diverges (body : σ → Pass σ ρ ε) (s : σ) : Prop := ∀ fuel, iter body fuel s = none

variable {body : σ → Pass σ ρ ε}

/-! ### One pass -/

theorem iter_next {s s' : σ} (h : body s = .next s') (fuel : ℕ) :
    iter body (fuel + 1) s = iter body fuel s' := by
  simp only [iter, h]

theorem iter_done {s : σ} {r : ρ} (h : body s = .done r) (fuel : ℕ) :
    iter body (fuel + 1) s = some (.ok r) := by
  simp only [iter, h]

theorem iter_fault {s : σ} {e : ε} (h : body s = .fault e) (fuel : ℕ) :
    iter body (fuel + 1) s = some (.error e) := by
  simp only [iter, h]

theorem Ends.next {s s' : σ} {out : Except ε ρ} (h : body s = .next s') (ho : Ends body s' out) :
    Ends body s out := by
  obtain ⟨fuel, hf⟩ := ho
  exact ⟨fuel + 1, by rw [iter_next h, hf]⟩

theorem Ends.done {s : σ} {r : ρ} (h : body s = .done r) : Ends body s (.ok r) :=
  ⟨1, iter_done h 0⟩

theorem Ends.fault {s : σ} {e : ε} (h : body s = .fault e) : Ends body s (.error e) :=
  ⟨1, iter_fault h 0⟩

/-! ### More fuel does not change a result -/

theorem iter_mono {m n : ℕ} {s : σ} {out : Except ε ρ} (h : iter body m s = some out)
    (hmn : m ≤ n) : iter body n s = some out := by
  induction m generalizing n s with
  | zero => simp [iter] at h
  | succ m ih =>
    obtain ⟨n, rfl⟩ : ∃ k, n = k + 1 := ⟨n - 1, by omega⟩
    cases hb : body s with
    | next s' =>
      rw [iter_next hb] at h ⊢
      exact ih h (by omega)
    | done r => rwa [iter_done hb] at h ⊢
    | fault e => rwa [iter_fault hb] at h ⊢

/-- The result of a loop does not depend on the fuel. -/
theorem Ends.unique {s : σ} {o₁ o₂ : Except ε ρ} (h₁ : Ends body s o₁) (h₂ : Ends body s o₂) :
    o₁ = o₂ := by
  obtain ⟨m, hm⟩ := h₁
  obtain ⟨n, hn⟩ := h₂
  have h := (iter_mono hm (Nat.le_max_left m n)).symm.trans (iter_mono hn (Nat.le_max_right m n))
  exact Option.some.inj h

/-! ### Rules -/

/-- Total correctness: under `I` a pass either goes round again, keeping `I` and decreasing `μ`,
or leads to a result with `Q`. -/
theorem ends_of_measure (body : σ → Pass σ ρ ε) (I : σ → Prop) (μ : σ → ℕ) (Q : Except ε ρ → Prop)
    (hstep : ∀ s, I s →
      (∃ s', body s = .next s' ∧ I s' ∧ μ s' < μ s) ∨ ∃ out, Ends body s out ∧ Q out)
    {s : σ} (hs : I s) : ∃ out, Ends body s out ∧ Q out := by
  induction hm : μ s using Nat.strong_induction_on generalizing s with
  | _ m ih =>
    rcases hstep s hs with ⟨s', hb, hI, hlt⟩ | hout
    · obtain ⟨out, hout, hQ⟩ := ih (μ s') (hm ▸ hlt) hI rfl
      exact ⟨out, hout.next hb, hQ⟩
    · exact hout

/-- Partial correctness: what `I` says when the loop is left. -/
theorem Ends.of_invariant (I : σ → Prop) (Q : Except ε ρ → Prop)
    (hnext : ∀ s s', I s → body s = .next s' → I s')
    (hdone : ∀ s r, I s → body s = .done r → Q (.ok r))
    (hfault : ∀ s e, I s → body s = .fault e → Q (.error e))
    {s : σ} {out : Except ε ρ} (hs : I s) (h : Ends body s out) : Q out := by
  obtain ⟨fuel, h⟩ := h
  induction fuel generalizing s with
  | zero => simp [iter] at h
  | succ fuel ih =>
    cases hb : body s with
    | next s' =>
      rw [iter_next hb] at h
      exact ih (hnext s s' hs hb) h
    | done r =>
      rw [iter_done hb, Option.some.injEq] at h
      exact h ▸ hdone s r hs hb
    | fault e =>
      rw [iter_fault hb, Option.some.injEq] at h
      exact h ▸ hfault s e hs hb

/-- Divergence: under `I` the body always goes round again. -/
theorem diverges_of_invariant (body : σ → Pass σ ρ ε) (I : σ → Prop)
    (hnext : ∀ s, I s → ∃ s', body s = .next s' ∧ I s') {s : σ} (hs : I s) : Diverges body s := by
  intro fuel
  induction fuel generalizing s with
  | zero => rfl
  | succ fuel ih =>
    obtain ⟨s', hb, hI⟩ := hnext s hs
    rw [iter_next hb, ih hI]

/-- A diverging loop has no result. -/
theorem Diverges.not_ends {s : σ} (h : Diverges body s) (out : Except ε ρ) : ¬ Ends body s out := by
  rintro ⟨fuel, hf⟩
  rw [h fuel] at hf
  cases hf

/-- A loop without a result diverges. -/
theorem diverges_of_not_ends {s : σ} (h : ¬ ∃ out, Ends body s out) : Diverges body s := by
  intro fuel
  cases hf : iter body fuel s with
  | none => rfl
  | some out => exact absurd ⟨out, fuel, hf⟩ h

/-- A pass that does not go round again ends the loop. -/
theorem Ends.of_not_next {s : σ} (h : ∀ s', body s ≠ .next s') : ∃ out, Ends body s out := by
  cases hb : body s with
  | next s' => exact absurd hb (h s')
  | done r => exact ⟨_, .done hb⟩
  | fault e => exact ⟨_, .fault hb⟩

/-- A loop ends if every further pass keeps `I` and decreases `μ`. -/
theorem ends_of_decreasing (body : σ → Pass σ ρ ε) (I : σ → Prop) (μ : σ → ℕ)
    (hnext : ∀ s s', I s → body s = .next s' → I s' ∧ μ s' < μ s) {s : σ} (hs : I s) :
    ∃ out, Ends body s out := by
  have hstep : ∀ t, I t →
      (∃ t', body t = .next t' ∧ I t' ∧ μ t' < μ t) ∨ ∃ out, Ends body t out ∧ True := by
    intro t ht
    by_cases hgoes : ∃ t', body t = .next t'
    · obtain ⟨t', hb⟩ := hgoes
      obtain ⟨hI, hlt⟩ := hnext t t' ht hb
      exact .inl ⟨t', hb, hI, hlt⟩
    · obtain ⟨out, hout⟩ := Ends.of_not_next fun t' hb => hgoes ⟨t', hb⟩
      exact .inr ⟨out, hout, trivial⟩
  obtain ⟨out, hout, -⟩ := ends_of_measure body I μ (fun _ => True) hstep hs
  exact ⟨out, hout⟩

/-- Under `I`, a loop ends exactly when it is not `Stuck`. -/
theorem ends_iff (body : σ → Pass σ ρ ε) (I Stuck : σ → Prop) (μ : σ → ℕ)
    (hstuck : ∀ s, I s → Stuck s → ∃ s', body s = .next s' ∧ I s' ∧ Stuck s')
    (hfree : ∀ s, I s → ¬ Stuck s → ∀ s', body s = .next s' → I s' ∧ ¬ Stuck s' ∧ μ s' < μ s)
    {s : σ} (hs : I s) : (∃ out, Ends body s out) ↔ ¬ Stuck s := by
  constructor
  · rintro ⟨out, hout⟩ hst
    refine (diverges_of_invariant body (fun s => I s ∧ Stuck s) ?_ ⟨hs, hst⟩).not_ends out hout
    rintro t ⟨ht, hst⟩
    obtain ⟨t', hb, hI, hS⟩ := hstuck t ht hst
    exact ⟨t', hb, hI, hS⟩
  · intro hst
    refine ends_of_decreasing body (fun s => I s ∧ ¬ Stuck s) μ ?_ ⟨hs, hst⟩
    rintro t t' ⟨ht, hfr⟩ hb
    obtain ⟨hI, hS, hlt⟩ := hfree t ht hfr t' hb
    exact ⟨⟨hI, hS⟩, hlt⟩

/-! ### The states of a loop -/

/-- The states in which the loop, entered in state `s`, begins a pass. -/
inductive Visits (body : σ → Pass σ ρ ε) (s : σ) : σ → Prop
  | start : Visits body s s
  | next {t u : σ} : Visits body s t → body t = .next u → Visits body s u

/-- The states after the first pass are visited as well. -/
theorem Visits.head {s t u : σ} (h : Visits body t u) (hb : body s = .next t) :
    Visits body s u := by
  induction h with
  | start => exact .next .start hb
  | next _ hb' ih => exact .next ih hb'

/-- A loop that comes to a state from which it ends ends in the same way. -/
theorem Ends.of_visits {s t : σ} {out : Except ε ρ} (ht : Ends body t out) (h : Visits body s t) :
    Ends body s out := by
  induction h with
  | start => exact ht
  | next _ hb ih => exact ih (ht.next hb)

/-- A loop that comes to a state from which it diverges diverges. -/
theorem Diverges.of_visits {s t : σ} (h : Visits body s t) (ht : Diverges body t) :
    Diverges body s := by
  induction h with
  | start => exact ht
  | @next t u _ hb ih =>
    refine ih fun fuel => ?_
    cases fuel with
    | zero => rfl
    | succ fuel => rw [iter_next hb, ht fuel]

/-- What every further pass keeps holds whenever a pass begins. -/
theorem Visits.invariant {I : σ → Prop} (hnext : ∀ s s', I s → body s = .next s' → I s') {s t : σ}
    (hs : I s) (h : Visits body s t) : I t := by
  induction h with
  | start => exact hs
  | next _ hb ih => exact hnext _ _ ih hb

/-! ### Counted loops -/

/-- What holds of the counter and the state before every pass holds after the last one. -/
theorem fold_invariant (I : ℕ → σ → Prop) {n : ℕ} {body : (i : ℕ) → i < n → σ → σ} {s : σ}
    (h0 : I 0 s) (hstep : ∀ i (h : i < n) t, I i t → I (i + 1) (body i h t)) :
    I n (Nat.fold n body s) := by
  induction n with
  | zero => rwa [Nat.fold_zero]
  | succ n ih =>
    rw [Nat.fold_succ]
    exact hstep n (Nat.lt_succ_self n) _ (ih fun i h t ht => hstep i (by omega) t ht)

end Loop
