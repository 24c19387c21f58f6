import Mathlib.Computability.DFA
import Mathlib.Tactic

/-!
# Automata that accept where they start

A word that leads such an automaton back to its start falls into words that lead there for the first
time: what it accepts is the star of these (`accepts_eq_kstar`).

A trap is a state that is not left.  Where every other state still leads to acceptance, the automaton
is in the trap exactly if no continuation is accepted (`eval_eq_trap_iff`).
-/

namespace DFA

variable {α σ : Type*} {M : DFA α σ}

/-- The word leads from the state to the start, which it does not meet before. -/
inductive FirstReturn (M : DFA α σ) : σ → List α → Prop
  | last {s : σ} {a : α} (h : M.step s a = M.start) : FirstReturn M s [a]
  | more {s : σ} {a : α} {w : List α} (h : M.step s a ≠ M.start)
      (hw : FirstReturn M (M.step s a) w) : FirstReturn M s (a :: w)

/-- The words that lead from the start to the start, which they do not meet in between. -/
def firstReturns (M : DFA α σ) : Language α := {w | M.FirstReturn M.start w}

theorem FirstReturn.evalFrom {s : σ} {w : List α} (h : M.FirstReturn s w) :
    M.evalFrom s w = M.start := by
  induction h with
  | last h => exact h
  | more _ _ ih => exact ih

/-- A word that leads to the start begins with one that does so for the first time. -/
theorem exists_firstReturn {s : σ} {x : List α} (h : M.evalFrom s x = M.start) (hne : x ≠ []) :
    ∃ w y, x = w ++ y ∧ M.FirstReturn s w ∧ M.evalFrom M.start y = M.start := by
  induction x generalizing s with
  | nil => exact absurd rfl hne
  | cons a x ih =>
    rw [evalFrom_cons] at h
    by_cases hstep : M.step s a = M.start
    · rw [hstep] at h
      exact ⟨[a], x, rfl, .last hstep, h⟩
    · have hx : x ≠ [] := by
        rintro rfl
        exact hstep h
      obtain ⟨w, y, rfl, hw, hy⟩ := ih h hx
      exact ⟨a :: w, y, rfl, .more hstep hw, hy⟩

theorem mem_kstar_firstReturn {x : List α} (h : M.evalFrom M.start x = M.start) :
    x ∈ KStar.kstar M.firstReturns := by
  induction hn : x.length using Nat.strong_induction_on generalizing x with
  | _ n ih =>
    by_cases hne : x = []
    · rw [hne]
      exact Language.nil_mem_kstar _
    obtain ⟨w, y, rfl, hw, hy⟩ := exists_firstReturn h hne
    have hpos : 0 < w.length := by
      cases hw <;> exact Nat.succ_pos _
    obtain ⟨ws, rfl, hws⟩ := Language.mem_kstar.1
      (ih y.length (by rw [← hn, List.length_append]; omega) hy rfl)
    exact Language.mem_kstar.2 ⟨w :: ws, rfl, List.forall_mem_cons.2 ⟨hw, hws⟩⟩

/-- What an automaton accepts that accepts where it starts. -/
theorem accepts_eq_kstar (h : M.accept = {M.start}) :
    M.accepts = KStar.kstar M.firstReturns := by
  ext x
  rw [mem_accepts, h, Set.mem_singleton_iff]
  constructor
  · exact mem_kstar_firstReturn
  · intro hx
    obtain ⟨ws, rfl, hws⟩ := Language.mem_kstar.1 hx
    clear hx
    induction ws with
    | nil => rfl
    | cons w ws ih =>
      obtain ⟨hw, hws⟩ := List.forall_mem_cons.1 hws
      have hfirst : M.evalFrom M.start w = M.start := FirstReturn.evalFrom hw
      show M.evalFrom M.start (w ++ ws.flatten) = M.start
      rw [evalFrom_of_append, hfirst]
      exact ih hws

theorem evalFrom_trap {r : σ} (hr : ∀ a, M.step r a = r) (y : List α) : M.evalFrom r y = r := by
  induction y with
  | nil => rfl
  | cons a y ih => rw [evalFrom_cons, hr, ih]

/-- The trap is where nothing can be accepted any more. -/
theorem eval_eq_trap_iff {r : σ} (hr : ∀ a, M.step r a = r) (hreject : r ∉ M.accept)
    (hlive : ∀ s ≠ r, ∃ w, M.evalFrom s w ∈ M.accept) (x : List α) :
    M.eval x = r ↔ ∀ y, x ++ y ∉ M.accepts := by
  have happend : ∀ y, M.eval (x ++ y) = M.evalFrom (M.eval x) y := M.evalFrom_of_append M.start x
  constructor
  · intro hx y hy
    rw [mem_accepts, happend, hx, evalFrom_trap hr] at hy
    exact hreject hy
  · intro hnone
    by_contra hx
    obtain ⟨w, hw⟩ := hlive _ hx
    exact hnone w (by rwa [mem_accepts, happend])

end DFA
