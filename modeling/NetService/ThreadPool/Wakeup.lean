import NetService.ThreadPool.Moves

/-!
# No task waits for a worker that sleeps unwoken

A notification is lost when nobody is blocked, and a woken worker can find its task gone, so a
task is not tied to a worker.  What holds is a count: while some worker is blocked, the queued
tasks are at most the workers that are about to look at the queues and the notifications still
owed.  `Covered` is this count, `Covered.move` its step; after the destructor's `notify_all` the
predicate is true for ever, so that nobody blocks again.
-/

namespace NetService
namespace ThreadPool

open Tally

variable {n : ℕ}

/-- Whether a worker is about to look at the queues. -/
def Worker.isAwake : Worker → ℕ
  | .awake => 1
  | _ => 0

/-- Whether the task of a worker owes a `notify_one`. -/
def Worker.owes : Worker → ℕ
  | .running _ true => 1
  | _ => 0

/-- The number of queued tasks. -/
def queued (s : ThreadPool n) : ℕ := s.tasks.flatten.length

/-- The number of awake workers. -/
def awakeCount (s : ThreadPool n) : ℕ := tally Worker.isAwake s.workers

/-- The number of `notify_one` calls owed, by outside posters and by running tasks. -/
def owedCount (s : ThreadPool n) : ℕ := s.owed + tally Worker.owes s.workers

/-- The destructor's `notify_all` has run. -/
def AllNotified (s : ThreadPool n) : Prop := s.phase = .notified ∨ s.phase = .joined

/-- While some worker is blocked, the queued tasks are covered; none is after `notify_all`. -/
structure Covered (s : ThreadPool n) : Prop where
  count : ∀ w, s.workers w = .blocked → s.queued ≤ s.awakeCount + s.owedCount
  stop : s.phase ≠ .alive → s.stop = true
  settled : s.AllNotified → ∀ w, s.workers w ≠ .blocked

/-! ### The counts -/

@[simp] theorem queued_setWorker (s : ThreadPool n) (w : Fin n) (x : Worker) :
    (s.setWorker w x).queued = s.queued :=
  rfl

theorem awakeCount_setWorker (s : ThreadPool n) (w : Fin n) (x : Worker) :
    (s.setWorker w x).awakeCount + (s.workers w).isAwake = s.awakeCount + x.isAwake :=
  tally_update Worker.isAwake s.workers w x

theorem owedCount_setWorker (s : ThreadPool n) (w : Fin n) (x : Worker) :
    (s.setWorker w x).owedCount + (s.workers w).owes = s.owedCount + x.owes := by
  have htally := tally_update Worker.owes s.workers w x
  unfold owedCount
  rw [setWorker_workers, setWorker_owed]
  omega

theorem queued_push {s : ThreadPool n} {level : ℕ} (hlevel : level < s.tasks.length) :
    (s.push level).queued = s.queued + 1 := by
  have hlen := (modify_flatten_perm hlevel (s.nextTask level)).length_eq
  rw [List.length_append, List.length_singleton] at hlen
  exact hlen

/-! ### The step -/

/-- A step in which nobody goes to sleep keeps the cover if the counts balance. -/
theorem Covered.of_balance {s s' : ThreadPool n} (hs : s.Covered) (hphase : s'.phase = s.phase)
    (hstop : s'.stop = s.stop)
    (hblocked : ∀ v, s'.workers v = .blocked → s.workers v = .blocked)
    (hbal : s'.queued + s.awakeCount + s.owedCount ≤ s.queued + s'.awakeCount + s'.owedCount) :
    s'.Covered where
  count v hv := by
    have hcount := hs.count v (hblocked v hv)
    omega
  stop halive := by
    rw [hphase] at halive
    rw [hstop]
    exact hs.stop halive
  settled hall v hv := by
    unfold AllNotified at hall
    rw [hphase] at hall
    exact hs.settled hall v (hblocked v hv)

/-- A worker that is not sent to sleep. -/
theorem Covered.setWorker {s : ThreadPool n} (hs : s.Covered) {w : Fin n} {x : Worker}
    (hx : x ≠ .blocked)
    (hbal : (s.workers w).isAwake + (s.workers w).owes ≤ x.isAwake + x.owes) :
    (s.setWorker w x).Covered := by
  refine hs.of_balance rfl rfl (fun v hv => of_update_eq hv hx) ?_
  have hawake := awakeCount_setWorker s w x
  have howed := owedCount_setWorker s w x
  rw [queued_setWorker]
  omega

/-- A worker that leaves the critical section with a task leaves one task fewer behind. -/
theorem Covered.take {s : ThreadPool n} (hs : s.Covered) {w : Fin n} {t : Task}
    {qs : List (List Task)} (hw : s.workers w = .awake) (hpop : popFirst s.tasks = some (t, qs)) :
    ({ s with tasks := qs, dequeued := s.dequeued ++ [(w, t)] }.setWorker w
      (.running t false)).Covered := by
  refine hs.of_balance rfl rfl (fun v hv => of_update_eq hv nofun) ?_
  have hawake := awakeCount_setWorker s w (.running t false)
  have howed := owedCount_setWorker s w (.running t false)
  have hqueued : s.queued = qs.flatten.length + 1 := by
    unfold queued
    rw [popFirst_flatten hpop, List.length_cons]
  rw [hw] at hawake howed
  simp only [Worker.isAwake, Worker.owes] at hawake howed
  show qs.flatten.length + s.awakeCount + s.owedCount ≤ s.queued +
    (s.setWorker w (.running t false)).awakeCount + (s.setWorker w (.running t false)).owedCount
  omega

/-- With all queues empty there is nothing to cover. -/
theorem count_of_allEmpty {s : ThreadPool n} (hempty : allEmpty s.tasks = true) :
    s.queued ≤ s.awakeCount + s.owedCount := by
  have hzero : s.queued = 0 := by
    unfold queued
    rw [flatten_of_allEmpty hempty, List.length_nil]
  omega

theorem Covered.move {s s' : ThreadPool n} (hs : s.Covered) (h : Move s s') : s'.Covered := by
  cases h with
  | post level halive hlevel =>
    refine hs.of_balance rfl rfl (fun _ hv => hv) ?_
    have hqueued := queued_push hlevel
    show (s.push level).queued + s.awakeCount + s.owedCount ≤
      s.queued + s.awakeCount + (s.owed + 1 + tally Worker.owes s.workers)
    unfold owedCount
    omega
  | notify w howed hw =>
    -- the notification becomes an awake worker
    refine hs.of_balance rfl rfl (fun v hv => of_update_eq hv nofun) ?_
    have hawake := awakeCount_setWorker s w .awake
    have hsame := tally_update Worker.owes s.workers w .awake
    rw [hw] at hawake hsame
    simp only [Worker.isAwake, Worker.owes] at hawake hsame
    show s.queued + s.awakeCount + s.owedCount ≤ s.queued + (s.setWorker w .awake).awakeCount +
      (s.owed - 1 + tally Worker.owes (Function.update s.workers w .awake))
    unfold owedCount
    omega
  | notifyLost howed hnone =>
    exact ⟨fun v hv => absurd hv (hnone v), hs.stop, hs.settled⟩
  | taskPost w t level hw hlevel =>
    refine hs.of_balance rfl rfl (fun v hv => of_update_eq hv nofun) ?_
    have hqueued := queued_push hlevel
    have hawake := awakeCount_setWorker s w (.running t true)
    have howed := owedCount_setWorker s w (.running t true)
    rw [hw] at hawake howed
    simp only [Worker.isAwake, Worker.owes] at hawake howed
    show (s.push level).queued + s.awakeCount + s.owedCount ≤ s.queued +
      (s.setWorker w (.running t true)).awakeCount + (s.setWorker w (.running t true)).owedCount
    omega
  | taskNotify w v t hw hv =>
    -- the notification passes from the task to the worker it wakes
    have hne : v ≠ w := by
      rintro rfl
      rw [hw] at hv
      cases hv
    have hmid : (s.setWorker w (.running t false)).workers v = .blocked := by
      rw [setWorker_workers, Function.update_of_ne hne, hv]
    refine hs.of_balance rfl rfl (fun u hu => ?_) ?_
    · have hu' := of_update_eq hu nofun
      exact of_update_eq hu' nofun
    · have hawake := awakeCount_setWorker s w (.running t false)
      have howed := owedCount_setWorker s w (.running t false)
      have hawake' := awakeCount_setWorker (s.setWorker w (.running t false)) v .awake
      have howed' := owedCount_setWorker (s.setWorker w (.running t false)) v .awake
      rw [hw] at hawake howed
      rw [hmid] at hawake' howed'
      simp only [Worker.isAwake, Worker.owes] at hawake howed hawake' howed'
      simp only [queued_setWorker]
      omega
  | taskNotifyLost w t hw hnone =>
    refine ⟨fun v hv => ?_, hs.stop, fun _ v hv => ?_⟩ <;>
      exact absurd (of_update_eq hv nofun) (hnone v)
  | spurious w hw => exact hs.setWorker nofun (by simp [hw, Worker.isAwake, Worker.owes])
  | wait w hw hstop hempty =>
    -- the predicate was false, so `stop_` is not set and nothing is queued
    refine ⟨fun _ _ => count_of_allEmpty hempty, hs.stop, fun hall => ?_⟩
    have hphase : s.phase ≠ .alive := by
      rcases hall with h | h <;> · rw [setWorker_phase] at h; rw [h]; decide
    rw [hs.stop hphase] at hstop
    cases hstop
  | exit w hw hstop hempty =>
    exact ⟨fun _ _ => count_of_allEmpty hempty, hs.stop, fun hall v hv =>
      hs.settled hall v (of_update_eq hv nofun)⟩
  | take w t qs hw hpop => exact hs.take hw hpop
  | finish w t hw =>
    have hset : (s.setWorker w .awake).Covered :=
      hs.setWorker nofun (by simp [hw, Worker.isAwake, Worker.owes])
    exact ⟨hset.count, hset.stop, hset.settled⟩
  | dtorStop => exact ⟨hs.count, fun _ => rfl, nofun⟩
  | dtorNotifyAll hphase =>
    have hnone : ∀ w, (if s.workers w = .blocked then .awake else s.workers w) ≠ .blocked := by
      intro w
      by_cases hb : s.workers w = .blocked
      · rw [if_pos hb]
        decide
      · rwa [if_neg hb]
    exact ⟨fun w hw => absurd hw (hnone w), fun _ => hs.stop (by rw [hphase]; decide),
      fun _ => hnone⟩
  | dtorJoin hphase hexited =>
    exact ⟨hs.count, fun _ => hs.stop (by rw [hphase]; decide), fun _ =>
      hs.settled (.inl hphase)⟩

/-- The destructor does not go back. -/
theorem AllNotified.move {s s' : ThreadPool n} (hs : s.AllNotified) (h : Move s s') :
    s'.AllNotified := by
  have hne : ∀ p, p = Phase.alive ∨ p = Phase.stopped → s.phase ≠ p := by
    rintro p hp rfl
    rcases hs with h | h <;> rw [h] at hp <;> revert hp <;> decide
  cases h with
  | post _ halive | dtorStop halive => exact absurd halive (hne _ (.inl rfl))
  | dtorNotifyAll hphase => exact absurd hphase (hne _ (.inr rfl))
  | dtorJoin => exact .inr rfl
  | _ => exact hs

/-- In every reachable state with a blocked worker the queued tasks are at most the awake workers
and the notifications owed; and from the destructor's `notify_all` on no worker is blocked, in any
state the pool can still reach. -/
theorem no_task_waits (n priorityCount : ℕ) {s : ThreadPool n}
    (h : (system n priorityCount).Reachable s) :
    ((∃ w, s.workers w = .blocked) → s.queued ≤ s.awakeCount + s.owedCount) ∧
    (s.AllNotified → ∀ acts s', (system n priorityCount).Run s acts s' →
      ∀ w, s'.workers w ≠ .blocked) := by
  have hcovered : s.Covered := by
    refine reachable_invariant (I := Covered) (p := priorityCount) ⟨nofun, nofun, nofun⟩
      (fun _ _ hs hm => hs.move hm) h
  refine ⟨fun ⟨w, hw⟩ => hcovered.count w hw, fun hall acts s' hrun => ?_⟩
  have hend : s'.Covered ∧ s'.AllNotified :=
    hrun.invariant (I := fun s => s.Covered ∧ s.AllNotified)
      (fun _ _ _ hs hstep => ⟨hs.1.move (step_move hstep), hs.2.move (step_move hstep)⟩)
      ⟨hcovered, hall⟩
  exact hend.1.settled hend.2

/-- Two workers sleep, and a task is posted. -/
def sampleSleep : List (Action 2) := [.enter ⟨0, by decide⟩, .enter ⟨1, by decide⟩, .post 0]

/-- A worker sleeps, and the destructor wakes it. -/
def sampleStop : List (Action 2) := [.enter ⟨0, by decide⟩, .dtorStop, .dtorNotifyAll]

theorem no_task_waits_sample :
    (∃ s : ThreadPool 2, (system 2 1).Reachable s ∧ s.queued = 1 ∧ 1 ≤ s.awakeCount + s.owedCount) ∧
    ∃ s : ThreadPool 2, (system 2 1).Reachable s ∧ s.AllNotified ∧ ∀ w, s.workers w ≠ .blocked := by
  have hsleep : (system 2 1).Reachable ((sampleSleep.foldlM step (new 2 1)).getD (new 2 1)) :=
    reachable_of_foldlM (by decide)
  have hstop : (system 2 1).Reachable ((sampleStop.foldlM step (new 2 1)).getD (new 2 1)) :=
    reachable_of_foldlM (by decide)
  have hall : ((sampleStop.foldlM step (new 2 1)).getD (new 2 1)).AllNotified := .inl (by decide)
  refine ⟨⟨_, hsleep, by decide, ?_⟩, _, hstop, hall, ?_⟩
  · exact (no_task_waits 2 1 hsleep).1 ⟨0, by decide⟩
  · exact (no_task_waits 2 1 hstop).2 hall [] _ (.nil _)

end ThreadPool
end NetService
