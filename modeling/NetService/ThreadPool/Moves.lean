import NetService.ThreadPool.Model

/-!
# What a step of the pool can do

`Move` lists the effects of a step, with the guards a step has checked; `step_move` is the
inversion of `step`.  Every invariant of the pool is proved by cases on `Move`, so that none of
them unfolds `step`.

`popFirst_spec` says what the scan for a task finds: all queues before the one it takes from are
empty.
-/

namespace NetService
namespace ThreadPool

variable {n : ℕ}

/-! ### The queues -/

@[simp] theorem allEmpty_iff {tasks : List (List Task)} :
    allEmpty tasks = true ↔ ∀ q ∈ tasks, q = [] := by
  simp [allEmpty]

theorem flatten_of_allEmpty {tasks : List (List Task)} (h : allEmpty tasks = true) :
    tasks.flatten = [] :=
  List.flatten_eq_nil_iff.2 (allEmpty_iff.1 h)

/-- The scan takes the front of the first non-empty queue. -/
theorem popFirst_spec {tasks qs : List (List Task)} {t : Task}
    (h : popFirst tasks = some (t, qs)) :
    ∃ before q after, (∀ q' ∈ before, q' = []) ∧ tasks = before ++ (t :: q) :: after ∧
      qs = before ++ q :: after := by
  induction tasks generalizing qs with
  | nil => cases h
  | cons q tasks ih =>
    cases q with
    | nil =>
      obtain ⟨⟨t', qs'⟩, hpop, heq⟩ := Option.map_eq_some_iff.1 h
      cases heq
      obtain ⟨before, q, after, hbefore, rfl, rfl⟩ := ih hpop
      refine ⟨[] :: before, q, after, ?_, rfl, rfl⟩
      intro q' hq'
      rcases List.mem_cons.1 hq' with rfl | hq'
      · rfl
      · exact hbefore q' hq'
    | cons t' q =>
      cases h
      exact ⟨[], q, tasks, by simp, rfl, rfl⟩

/-- A scan that finds nothing has seen every queue empty. -/
theorem popFirst_eq_none {tasks : List (List Task)} (h : popFirst tasks = none) :
    allEmpty tasks = true := by
  induction tasks with
  | nil => rfl
  | cons q tasks ih =>
    cases q with
    | nil => simpa [allEmpty] using ih (Option.map_eq_none_iff.1 h)
    | cons t q => cases h

/-- Taking a task takes the first of all queued tasks, in order of level. -/
theorem popFirst_flatten {tasks qs : List (List Task)} {t : Task}
    (h : popFirst tasks = some (t, qs)) : tasks.flatten = t :: qs.flatten := by
  obtain ⟨before, q, after, hbefore, rfl, rfl⟩ := popFirst_spec h
  have hnil : before.flatten = [] := List.flatten_eq_nil_iff.2 hbefore
  simp [hnil]

/-- Pushing at a valid level adds one task to those queued. -/
theorem modify_flatten_perm {tasks : List (List Task)} {level : ℕ} (h : level < tasks.length)
    (t : Task) : (tasks.modify level (· ++ [t])).flatten.Perm (tasks.flatten ++ [t]) := by
  induction tasks generalizing level with
  | nil => cases h
  | cons q tasks ih =>
    cases level with
    | zero =>
      have hswap := (@List.perm_append_comm _ [t] tasks.flatten).append_left q
      simpa using hswap
    | succ level =>
      have htail := (ih (Nat.lt_of_succ_lt_succ h)).append_left q
      simpa using htail

/-! ### The effects of a step -/

/-- The task the next post makes. -/
def nextTask (s : ThreadPool n) (level : ℕ) : Task := ⟨s.posted.length, level⟩

theorem push_eq (s : ThreadPool n) (level : ℕ) :
    s.push level = { s with tasks := s.tasks.modify level (· ++ [s.nextTask level])
                            posted := s.posted ++ [s.nextTask level] } :=
  rfl

/-- The effects of a step, by the thread that takes it. -/
inductive Move (s : ThreadPool n) : ThreadPool n → Prop
  | post (level : ℕ) (halive : s.phase = .alive) (hlevel : level < s.tasks.length) :
      Move s { s.push level with owed := s.owed + 1 }
  | notify (w : Fin n) (howed : 0 < s.owed) (hw : s.workers w = .blocked) :
      Move s ({ s with owed := s.owed - 1 }.setWorker w .awake)
  | notifyLost (howed : 0 < s.owed) (hnone : ∀ w, s.workers w ≠ .blocked) :
      Move s { s with owed := s.owed - 1 }
  | taskPost (w : Fin n) (t : Task) (level : ℕ) (hw : s.workers w = .running t false)
      (hlevel : level < s.tasks.length) : Move s ((s.push level).setWorker w (.running t true))
  | taskNotify (w v : Fin n) (t : Task) (hw : s.workers w = .running t true)
      (hv : s.workers v = .blocked) :
      Move s ((s.setWorker w (.running t false)).setWorker v .awake)
  | taskNotifyLost (w : Fin n) (t : Task) (hw : s.workers w = .running t true)
      (hnone : ∀ v, s.workers v ≠ .blocked) : Move s (s.setWorker w (.running t false))
  | spurious (w : Fin n) (hw : s.workers w = .blocked) : Move s (s.setWorker w .awake)
  | wait (w : Fin n) (hw : s.workers w = .awake) (hstop : s.stop = false)
      (hempty : allEmpty s.tasks = true) : Move s (s.setWorker w .blocked)
  | exit (w : Fin n) (hw : s.workers w = .awake) (hstop : s.stop = true)
      (hempty : allEmpty s.tasks = true) : Move s (s.setWorker w .exited)
  | take (w : Fin n) (t : Task) (qs : List (List Task)) (hw : s.workers w = .awake)
      (hpop : popFirst s.tasks = some (t, qs)) :
      Move s ({ s with tasks := qs, dequeued := s.dequeued ++ [(w, t)] }.setWorker w
        (.running t false))
  | finish (w : Fin n) (t : Task) (hw : s.workers w = .running t false) :
      Move s { s.setWorker w .awake with executed := s.executed ++ [t] }
  | dtorStop (halive : s.phase = .alive) : Move s { s with stop := true, phase := .stopped }
  | dtorNotifyAll (hphase : s.phase = .stopped) :
      Move s { s with
        workers := fun w => if s.workers w = .blocked then .awake else s.workers w
        phase := .notified }
  | dtorJoin (hphase : s.phase = .notified) (hexited : ∀ w, s.workers w = .exited) :
      Move s { s with phase := .joined }

/-- A `notify_one` wakes a blocked worker or finds none. -/
theorem notifyOne_cases {s s' : ThreadPool n} {target : Option (Fin n)}
    (h : s.notifyOne target = some s') :
    (∃ w, s.workers w = .blocked ∧ s' = s.setWorker w .awake) ∨
      ((∀ w, s.workers w ≠ .blocked) ∧ s' = s) := by
  cases target with
  | some w =>
    obtain ⟨hw, heq⟩ := Option.ite_none_right_eq_some.1 h
    exact .inl ⟨w, hw, (Option.some.inj heq).symm⟩
  | none =>
    obtain ⟨hnone, heq⟩ := Option.ite_none_right_eq_some.1 h
    exact .inr ⟨hnone, (Option.some.inj heq).symm⟩

/-- The critical section blocks, exits or takes a task. -/
theorem critical_move {s : ThreadPool n} {w : Fin n} (hw : s.workers w = .awake) :
    Move s (s.critical w) := by
  unfold critical
  by_cases hpred : (s.stop || !allEmpty s.tasks) = true
  · rw [if_neg (not_not.2 hpred)]
    by_cases hexit : (s.stop && allEmpty s.tasks) = true
    · rw [if_pos hexit]
      simp only [Bool.and_eq_true] at hexit
      exact .exit w hw hexit.1 hexit.2
    · rw [if_neg hexit]
      cases hpop : popFirst s.tasks with
      | none =>
        -- the predicate held and the exit test failed, so some queue is not empty
        rw [popFirst_eq_none hpop] at hpred hexit
        simp only [Bool.not_true, Bool.or_false] at hpred
        simp [hpred] at hexit
      | some x => exact .take w x.1 x.2 hw hpop
  · rw [if_pos hpred]
    simp only [Bool.or_eq_true, not_or, Bool.not_eq_true, Bool.not_eq_false'] at hpred
    exact .wait w hw hpred.1 hpred.2

/-- The inversion of `step`. -/
theorem step_move {s s' : ThreadPool n} {a : Action n} (h : s.step a = some s') : Move s s' := by
  cases a with
  | post level =>
    obtain ⟨⟨halive, hlevel⟩, heq⟩ := Option.ite_none_right_eq_some.1 h
    cases heq
    exact .post level halive hlevel
  | notify target =>
    obtain ⟨howed, heq⟩ := Option.ite_none_right_eq_some.1 h
    rcases notifyOne_cases heq with ⟨w, hw, rfl⟩ | ⟨hnone, rfl⟩
    · exact .notify w howed hw
    · exact .notifyLost howed hnone
  | taskPost w level =>
    simp only [step] at h
    split at h
    · rename_i t hw
      obtain ⟨hlevel, heq⟩ := Option.ite_none_right_eq_some.1 h
      cases heq
      exact .taskPost w t level hw hlevel
    · cases h
  | taskNotify w target =>
    simp only [step] at h
    split at h
    · rename_i t hw
      -- the poster is running, so that it is not among those `notify_one` can wake
      have hold : ∀ v, (s.setWorker w (.running t false)).workers v = .blocked ↔
          s.workers v = .blocked := by
        intro v
        by_cases hv : v = w
        · subst hv
          simp [setWorker, hw]
        · simp [setWorker, hv]
      rcases notifyOne_cases h with ⟨v, hv, rfl⟩ | ⟨hnone, rfl⟩
      · exact .taskNotify w v t hw ((hold v).1 hv)
      · exact .taskNotifyLost w t hw fun v hv => hnone v ((hold v).2 hv)
    · cases h
  | spurious w =>
    obtain ⟨hw, heq⟩ := Option.ite_none_right_eq_some.1 h
    cases heq
    exact .spurious w hw
  | enter w =>
    obtain ⟨hw, heq⟩ := Option.ite_none_right_eq_some.1 h
    cases heq
    exact critical_move hw
  | finish w =>
    simp only [step] at h
    split at h
    · rename_i t hw
      cases h
      exact .finish w t hw
    · cases h
  | dtorStop =>
    obtain ⟨halive, heq⟩ := Option.ite_none_right_eq_some.1 h
    cases heq
    exact .dtorStop halive
  | dtorNotifyAll =>
    obtain ⟨hphase, heq⟩ := Option.ite_none_right_eq_some.1 h
    cases heq
    exact .dtorNotifyAll hphase
  | dtorJoin =>
    obtain ⟨⟨hphase, hexited⟩, heq⟩ := Option.ite_none_right_eq_some.1 h
    cases heq
    exact .dtorJoin hphase hexited

/-- What every move preserves holds in every reachable state. -/
theorem reachable_invariant {I : ThreadPool n → Prop} {p : ℕ} (hinit : I (new n p))
    (hmove : ∀ s s', I s → Move s s' → I s') {s : ThreadPool n}
    (h : (system n p).Reachable s) : I s :=
  h.invariant (fun _ h₀ => h₀ ▸ hinit) fun s _ s' hs hstep => hmove s s' hs (step_move hstep)

/-- A list of actions that `step` accepts leads to a reachable state. -/
theorem reachable_of_foldlM {p : ℕ} {acts : List (Action n)}
    (h : (acts.foldlM step (new n p)).isSome = true) :
    (system n p).Reachable ((acts.foldlM step (new n p)).getD (new n p)) := by
  obtain ⟨s, hs⟩ := Option.isSome_iff_exists.1 h
  rw [hs]
  exact ⟨new n p, acts, rfl, .of_foldlM (fun _ _ _ hstep => hstep) hs⟩

end ThreadPool
end NetService
