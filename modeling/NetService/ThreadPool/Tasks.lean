import NetService.ThreadPool.Moves

/-!
# No task is lost or run twice

`Accounts` keeps the books: a posted task is queued or has been dequeued, and a dequeued task is
run by its worker or has been executed, each with its multiplicity.  `Shutdown` ties the exits to
the queues: workers leave only after `stop_`, and when the last one has left the queues are empty,
because a task that could still post keeps its worker from having left.

`no_task_lost_or_repeated` puts the two together.
-/

namespace NetService
namespace ThreadPool

open Tally

variable {n : ℕ}

/-- Whether a worker is running `t`. -/
def Worker.carries (t : Task) : Worker → ℕ
  | .running t' _ => if t' = t then 1 else 0
  | _ => 0

/-! ### The books -/

/-- Every task is accounted for, with its multiplicity. -/
structure Accounts (s : ThreadPool n) : Prop where
  ids : s.posted.map Task.id = List.range s.posted.length
  kept : s.posted.Perm (s.dequeued.map Prod.snd ++ s.tasks.flatten)
  held : ∀ t, (s.dequeued.map Prod.snd).count t =
    s.executed.count t + tally (Worker.carries t) s.workers

theorem new_accounts (n p : ℕ) : (new n p).Accounts where
  ids := rfl
  kept := by simp [new]
  held t := by simp [new, tally, Worker.carries]

/-- A post adds its task to both sides of the books. -/
theorem Accounts.push {s : ThreadPool n} (hs : s.Accounts) {level : ℕ}
    (hlevel : level < s.tasks.length) : (s.push level).Accounts where
  ids := by
    have hids := hs.ids
    rw [push_eq]
    simp [List.range_succ, hids, nextTask]
  kept := by
    have hperm := (modify_flatten_perm hlevel (s.nextTask level)).append_left
      (s.dequeued.map Prod.snd)
    rw [← List.append_assoc] at hperm
    exact (hs.kept.append_right _).trans hperm.symm
  held := hs.held

/-- A worker may change its state as long as it keeps its task. -/
theorem Accounts.setWorker {s : ThreadPool n} (hs : s.Accounts) {w : Fin n} {x : Worker}
    (hsame : ∀ t, x.carries t = (s.workers w).carries t) : (s.setWorker w x).Accounts where
  ids := hs.ids
  kept := hs.kept
  held t := by
    have htally := tally_update (Worker.carries t) s.workers w x
    have hheld := hs.held t
    have hx := hsame t
    simp only [setWorker_workers, setWorker_dequeued, setWorker_executed]
    omega

theorem Accounts.take {s : ThreadPool n} (hs : s.Accounts) {w : Fin n} {t : Task}
    {qs : List (List Task)} (hw : s.workers w = .awake) (hpop : popFirst s.tasks = some (t, qs)) :
    ({ s with tasks := qs, dequeued := s.dequeued ++ [(w, t)] }.setWorker w
      (.running t false)).Accounts where
  ids := hs.ids
  kept := by
    have hkept := hs.kept
    rw [popFirst_flatten hpop] at hkept
    simpa using hkept
  held t' := by
    have htally := tally_update (Worker.carries t') s.workers w (.running t false)
    have hheld := hs.held t'
    rw [hw] at htally
    simp only [setWorker_workers, setWorker_dequeued, setWorker_executed, List.map_append,
      List.map_cons, List.map_nil, List.count_append, List.count_singleton, Worker.carries,
      beq_iff_eq] at htally hheld ⊢
    omega

theorem Accounts.finish {s : ThreadPool n} (hs : s.Accounts) {w : Fin n} {t : Task}
    (hw : s.workers w = .running t false) :
    ({ s.setWorker w .awake with executed := s.executed ++ [t] } : ThreadPool n).Accounts where
  ids := hs.ids
  kept := hs.kept
  held t' := by
    have htally := tally_update (Worker.carries t') s.workers w .awake
    have hheld := hs.held t'
    rw [hw] at htally
    simp only [setWorker_workers, setWorker_dequeued, List.count_append, List.count_singleton,
      Worker.carries, beq_iff_eq] at htally hheld ⊢
    omega

theorem Accounts.move {s s' : ThreadPool n} (hs : s.Accounts) (h : Move s s') : s'.Accounts := by
  cases h with
  | post level _ hlevel =>
    have hpush := hs.push hlevel
    exact ⟨hpush.ids, hpush.kept, hpush.held⟩
  | notify w _ hw =>
    have hlike : ({ s with owed := s.owed - 1 } : ThreadPool n).Accounts :=
      ⟨hs.ids, hs.kept, hs.held⟩
    exact hlike.setWorker fun t => by simp [hw, Worker.carries]
  | notifyLost => exact ⟨hs.ids, hs.kept, hs.held⟩
  | taskPost w t level hw hlevel =>
    refine (hs.push hlevel).setWorker fun t' => ?_
    show _ = (s.workers w).carries t'
    rw [hw]
    rfl
  | taskNotify w v t hw hv =>
    have hne : v ≠ w := by
      rintro rfl
      rw [hw] at hv
      cases hv
    refine Accounts.setWorker (hs.setWorker fun t' => ?_) fun t' => ?_
    · simp [hw, Worker.carries]
    · simp [hne, hv, Worker.carries]
  | taskNotifyLost w t hw => exact hs.setWorker fun t' => by simp [hw, Worker.carries]
  | spurious w hw => exact hs.setWorker fun t => by simp [hw, Worker.carries]
  | wait w hw => exact hs.setWorker fun t => by simp [hw, Worker.carries]
  | exit w hw => exact hs.setWorker fun t => by simp [hw, Worker.carries]
  | take w t qs hw hpop => exact hs.take hw hpop
  | finish w t hw => exact hs.finish hw
  | dtorStop => exact ⟨hs.ids, hs.kept, hs.held⟩
  | dtorNotifyAll =>
    -- a worker that sleeps carries no task, and neither does one that is woken
    refine ⟨hs.ids, hs.kept, fun t => ?_⟩
    rw [hs.held t]
    refine congrArg _ (tally_congr fun w => ?_)
    show _ = Worker.carries t (if s.workers w = .blocked then .awake else s.workers w)
    by_cases hw : s.workers w = .blocked
    · simp [hw, Worker.carries]
    · simp [hw]
  | dtorJoin => exact ⟨hs.ids, hs.kept, hs.held⟩

/-! ### The shutdown -/

/-- Workers leave only after `stop_`, and leave no task behind. -/
structure Shutdown (s : ThreadPool n) : Prop where
  phase : s.phase = .alive → s.stop = false
  stopped : ∀ w, s.workers w = .exited → s.stop = true
  drained : (∀ w, s.workers w = .exited) → allEmpty s.tasks = true

/-- With a worker that has not left, `drained` asks nothing. -/
theorem Shutdown.of_working {s : ThreadPool n} (hphase : s.phase = .alive → s.stop = false)
    (hstopped : ∀ w, s.workers w = .exited → s.stop = true) {w : Fin n}
    (hw : s.workers w ≠ .exited) : s.Shutdown :=
  ⟨hphase, hstopped, fun h => absurd (h w) hw⟩

/-- A worker may move to any state but `exited`. -/
theorem Shutdown.setWorker {s s' : ThreadPool n} (hs : s.Shutdown) {w : Fin n} {x : Worker}
    (hx : x ≠ .exited) (hphase : s'.phase = s.phase) (hstop : s'.stop = s.stop)
    (hworkers : s'.workers = (s.setWorker w x).workers) : s'.Shutdown := by
  refine .of_working (w := w) (by rw [hphase, hstop]; exact hs.phase) (fun v hv => ?_) ?_
  · rw [hstop]
    rw [hworkers] at hv
    exact hs.stopped v (of_update_eq hv hx)
  · rw [hworkers]
    simpa using hx

theorem Shutdown.move (hn : 0 < n) {s s' : ThreadPool n} (hs : s.Shutdown) (h : Move s s') :
    s'.Shutdown := by
  cases h with
  | post level halive =>
    -- no worker has left before `stop_`
    have hnone : s.workers ⟨0, hn⟩ ≠ .exited := by
      intro hw
      have hstop := hs.stopped _ hw
      rw [hs.phase halive] at hstop
      cases hstop
    exact .of_working (w := ⟨0, hn⟩) hs.phase hs.stopped hnone
  | notify w => exact hs.setWorker (x := .awake) (by decide) rfl rfl rfl
  | notifyLost => exact ⟨hs.phase, hs.stopped, hs.drained⟩
  | taskPost w t => exact hs.setWorker (x := .running t true) nofun rfl rfl rfl
  | taskNotify w v t =>
    have hmid : (s.setWorker w (.running t false)).Shutdown :=
      hs.setWorker (x := .running t false) nofun rfl rfl rfl
    exact hmid.setWorker (x := .awake) nofun rfl rfl rfl
  | taskNotifyLost w t => exact hs.setWorker (x := .running t false) nofun rfl rfl rfl
  | spurious w => exact hs.setWorker (x := .awake) nofun rfl rfl rfl
  | wait w => exact hs.setWorker (x := .blocked) nofun rfl rfl rfl
  | exit w _ hstop hempty => exact ⟨hs.phase, fun _ _ => hstop, fun _ => hempty⟩
  | take w t => exact hs.setWorker (x := .running t false) nofun rfl rfl rfl
  | finish w => exact hs.setWorker (x := .awake) nofun rfl rfl rfl
  | dtorStop => exact ⟨nofun, fun _ _ => rfl, hs.drained⟩
  | dtorNotifyAll =>
    have hold : ∀ w, (if s.workers w = .blocked then .awake else s.workers w) = .exited →
        s.workers w = .exited := by
      intro w hw
      by_cases hb : s.workers w = .blocked
      · rw [if_pos hb] at hw
        cases hw
      · rwa [if_neg hb] at hw
    exact ⟨nofun, fun w hw => hs.stopped w (hold w hw), fun h => hs.drained fun w => hold w (h w)⟩
  | dtorJoin => exact ⟨nofun, hs.stopped, hs.drained⟩

/-! ### The result -/

theorem Accounts.posted_nodup {s : ThreadPool n} (hs : s.Accounts) : s.posted.Nodup := by
  have hids : (s.posted.map Task.id).Nodup := by
    rw [hs.ids]
    exact List.nodup_range
  exact hids.of_map Task.id

theorem Accounts.executed_le {s : ThreadPool n} (hs : s.Accounts) (t : Task) :
    s.executed.count t ≤ s.posted.count t := by
  have hheld := hs.held t
  have hkept := hs.kept.count_eq t
  rw [List.count_append] at hkept
  omega

/-- In every reachable state each posted task is queued or has been dequeued by exactly one worker,
once, and no task has been executed twice.  When every worker has returned from `loop()` the queues
are empty and every posted task has been dequeued by one worker and executed. -/
theorem no_task_lost_or_repeated {n : ℕ} (hn : 0 < n) (priorityCount : ℕ) {s : ThreadPool n}
    (h : (system n priorityCount).Reachable s) :
    s.posted.Nodup ∧
    (∀ t ∈ s.posted, s.tasks.flatten.count t + (s.dequeued.map Prod.snd).count t = 1) ∧
    (∀ w t, (w, t) ∈ s.dequeued → t ∈ s.posted ∧ ∀ v, (v, t) ∈ s.dequeued → v = w) ∧
    (∀ t, s.executed.count t ≤ 1) ∧ (∀ t ∈ s.executed, t ∈ s.posted) ∧
    ((∀ w, s.workers w = .exited) →
      (∀ q ∈ s.tasks, q = []) ∧
      ∀ t ∈ s.posted, (∃! w, (w, t) ∈ s.dequeued) ∧ s.executed.count t = 1) := by
  have hacc : s.Accounts :=
    reachable_invariant (new_accounts n priorityCount) (fun _ _ hs hm => hs.move hm) h
  have hshut : s.Shutdown := by
    refine reachable_invariant (I := Shutdown) (p := priorityCount) ⟨fun _ => rfl, nofun, ?_⟩
      (fun _ _ hs hm => hs.move hn hm) h
    intro hall
    cases hall ⟨0, hn⟩
  have hnodup := hacc.posted_nodup
  -- a posted task is in the queues or has been dequeued, and only one of the two
  have hone : ∀ t ∈ s.posted,
      s.tasks.flatten.count t + (s.dequeued.map Prod.snd).count t = 1 := by
    intro t ht
    have hcount := hacc.kept.count_eq t
    rw [List.count_eq_one_of_mem hnodup ht, List.count_append] at hcount
    omega
  have hdeq : (s.dequeued.map Prod.snd).Nodup :=
    (List.nodup_append.1 (hacc.kept.nodup_iff.1 hnodup)).1
  have hmem : ∀ w t, (w, t) ∈ s.dequeued → t ∈ s.posted := by
    intro w t ht
    exact hacc.kept.mem_iff.2 (List.mem_append_left _ (List.mem_map_of_mem (f := Prod.snd) ht))
  have huniq : ∀ w t, (w, t) ∈ s.dequeued → ∀ v, (v, t) ∈ s.dequeued → v = w := by
    intro w t hw v hv
    have heq := List.inj_on_of_nodup_map hdeq hv hw rfl
    exact congrArg Prod.fst heq
  refine ⟨hnodup, hone, fun w t ht => ⟨hmem w t ht, huniq w t ht⟩, ?_, ?_, ?_⟩
  · intro t
    exact (hacc.executed_le t).trans (List.nodup_iff_count_le_one.1 hnodup t)
  · intro t ht
    exact List.count_pos_iff.1 ((List.count_pos_iff.2 ht).trans_le (hacc.executed_le t))
  · intro hall
    have hempty := hshut.drained hall
    refine ⟨allEmpty_iff.1 hempty, fun t ht => ?_⟩
    -- no queue and no worker holds a task any more, so that it has been executed
    have hcount := hone t ht
    rw [flatten_of_allEmpty hempty, List.count_nil, Nat.zero_add] at hcount
    have hheld := hacc.held t
    rw [hcount, tally_eq_zero fun w => by rw [hall w]; rfl] at hheld
    obtain ⟨⟨w, t'⟩, hw, rfl⟩ := List.mem_map.1 (List.count_pos_iff.1 (hcount.symm ▸ Nat.one_pos))
    exact ⟨⟨w, hw, fun v hv => huniq w _ hw v hv⟩, hheld.symm⟩

/-- One worker sleeps, is woken for a task, and leaves after the destructor's `stop_`. -/
def sampleRun : List (Action 1) :=
  [.enter 0, .post 0, .notify (some 0), .enter 0, .dtorStop, .dtorNotifyAll, .finish 0, .enter 0]

theorem no_task_lost_or_repeated_sample :
    ∃ s : ThreadPool 1, (system 1 1).Reachable s ∧ s.tasks = [[]] ∧
      s.executed.count ⟨0, 0⟩ = 1 := by
  have hreach : (system 1 1).Reachable ((sampleRun.foldlM step (new 1 1)).getD (new 1 1)) :=
    reachable_of_foldlM (by decide)
  obtain ⟨-, -, -, -, -, hdone⟩ := no_task_lost_or_repeated (by decide) 1 hreach
  exact ⟨_, hreach, by decide, ((hdone (by decide)).2 ⟨0, 0⟩ (by decide)).2⟩

end ThreadPool
end NetService
