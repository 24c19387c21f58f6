import Mathlib.Tactic

/-!
# Labelled transition systems

A system has initial states and labelled steps.  `Run` is a finite sequence of steps,
`Reachable` a run from an initial state.  An invariant is proved for one step and carried to
whole runs by `Reachable.invariant`; a simulation between two systems is proved for one step and
carried to whole runs by `Run.simulate`.  `restrict` keeps the steps that a condition allows.
-/

/-- Initial states and labelled steps. -/
structure LTS (σ ι : Type*) where
  init : σ → Prop
  step : σ → ι → σ → Prop

namespace LTS

variable {σ ι τ κ : Type*}

/-- A finite run, with its labels in order. -/
inductive Run (M : LTS σ ι) : σ → List ι → σ → Prop
  | nil (s : σ) : Run M s [] s
  | cons {s t u : σ} {a : ι} {as : List ι} :
      M.step s a t → Run M t as u → Run M s (a :: as) u

/-- The states met on a run from an initial state. -/
def Reachable (M : LTS σ ι) (s : σ) : Prop := ∃ s₀ as, M.init s₀ ∧ M.Run s₀ as s

variable {M : LTS σ ι} {A : LTS τ κ}

/-! ### Splitting and building runs -/

theorem Run.split {s u : σ} {as bs : List ι} (h : M.Run s (as ++ bs) u) :
    ∃ t, M.Run s as t ∧ M.Run t bs u := by
  induction as generalizing s with
  | nil => exact ⟨s, .nil s, h⟩
  | cons a as ih =>
    cases h with
    | cons hstep hrest =>
      obtain ⟨t, h₁, h₂⟩ := ih hrest
      exact ⟨t, .cons hstep h₁, h₂⟩

theorem Run.append {s t u : σ} {as bs : List ι} (h : M.Run s as t) (h' : M.Run t bs u) :
    M.Run s (as ++ bs) u := by
  induction h with
  | nil => exact h'
  | cons hstep _ ih => exact .cons hstep (ih h')

/-- A run that starts with a step whose result is determined. -/
theorem Run.cons_iff {s t u : σ} {a : ι} {as : List ι} (h : ∀ s', M.step s a s' ↔ s' = t) :
    M.Run s (a :: as) u ↔ M.Run t as u := by
  constructor
  · intro hrun
    cases hrun with
    | cons hstep hrest =>
      rw [(h _).1 hstep] at hrest
      exact hrest
  · exact fun hrun => .cons ((h t).2 rfl) hrun

/-- A step function replays a list of labels as a run. -/
theorem Run.of_foldlM {f : σ → ι → Option σ} (hf : ∀ s a t, f s a = some t → M.step s a t)
    {s t : σ} {as : List ι} (h : as.foldlM f s = some t) : M.Run s as t := by
  induction as generalizing s with
  | nil =>
    cases h
    exact .nil _
  | cons a as ih =>
    rw [List.foldlM_cons] at h
    obtain ⟨u, hu, hrest⟩ := Option.bind_eq_some_iff.1 h
    exact .cons (hf s a u hu) (ih hrest)

/-! ### Invariants -/

/-- What every step preserves, every run preserves. -/
theorem Run.invariant {I : σ → Prop} (hstep : ∀ s a t, I s → M.step s a t → I t)
    {s t : σ} {as : List ι} (hs : I s) (h : M.Run s as t) : I t := by
  induction h with
  | nil => exact hs
  | cons hst _ ih => exact ih (hstep _ _ _ hs hst)

/-- An invariant holds in every reachable state. -/
theorem Reachable.invariant {I : σ → Prop} (hinit : ∀ s, M.init s → I s)
    (hstep : ∀ s a t, I s → M.step s a t → I t) {s : σ} (h : M.Reachable s) : I s := by
  obtain ⟨s₀, as, h₀, hr⟩ := h
  exact hr.invariant hstep (hinit s₀ h₀)

/-! ### Runs whose steps all meet a condition -/

/-- The system with the steps that `G` allows. -/
def restrict (M : LTS σ ι) (G : σ → ι → Prop) : LTS σ ι where
  init := M.init
  step s a t := G s a ∧ M.step s a t

variable {G : σ → ι → Prop}

theorem Run.of_restrict {s t : σ} {as : List ι} (h : (M.restrict G).Run s as t) : M.Run s as t := by
  induction h with
  | nil => exact .nil _
  | cons hstep _ ih => exact .cons hstep.2 ih

/-- A run is one of the restricted system if each of its steps is allowed where it is taken. -/
theorem Run.restrict {s t : σ} {as : List ι} (h : M.Run s as t)
    (hG : ∀ pre a post u, as = pre ++ a :: post → M.Run s pre u → G u a) :
    (M.restrict G).Run s as t := by
  induction h with
  | nil => exact .nil _
  | @cons s t u a as hstep _ ih =>
    refine .cons ⟨hG [] a as s rfl (.nil s), hstep⟩ (ih fun pre b post v heq hpre => ?_)
    exact hG (a :: pre) b post v (by rw [heq]; rfl) (.cons hstep hpre)

/-! ### Simulations -/

/-- A step-by-step simulation along `R` carries whole runs, with the labels renamed by `f`. -/
theorem Run.simulate {R : σ → τ → Prop} (f : ι → κ)
    (hsim : ∀ s a s' t, R s t → M.step s a s' → ∃ t', A.step t (f a) t' ∧ R s' t')
    {s s' : σ} {t : τ} {as : List ι} (hst : R s t) (h : M.Run s as s') :
    ∃ t', A.Run t (as.map f) t' ∧ R s' t' := by
  induction h generalizing t with
  | nil => exact ⟨t, .nil t, hst⟩
  | cons hstep _ ih =>
    obtain ⟨t₁, ht₁, hR₁⟩ := hsim _ _ _ _ hst hstep
    obtain ⟨t', ht', hR'⟩ := ih hR₁
    exact ⟨t', .cons ht₁ ht', hR'⟩

/-- A system whose steps are functional has functional runs. -/
theorem Run.deterministic (hdet : ∀ s a t t', M.step s a t → M.step s a t' → t = t')
    {s t t' : σ} {as : List ι} (h : M.Run s as t) (h' : M.Run s as t') : t = t' := by
  induction h generalizing t' with
  | nil =>
    cases h'
    rfl
  | cons hstep _ ih =>
    cases h' with
    | cons hstep' hrest' =>
      obtain rfl := hdet _ _ _ _ hstep hstep'
      exact ih hrest'

end LTS
