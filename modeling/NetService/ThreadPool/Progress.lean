import NetService.Lib.Ranking
import NetService.ThreadPool.Tasks
import NetService.ThreadPool.Wakeup

/-!
# Every posted task is executed

What the pool does by itself is bounded: a task that is queued, taken and run, a `notify_one` that
is owed, a worker that goes to sleep or leaves, each lowers `rank`.  Only posts, spurious wake-ups
and the start of the destructor have a price.  Where nothing else can happen, every posted task has
been executed and a destructor that was started has joined all workers.

`runs_at_once` is about tasks that do not return, as event loops: as long as the pool is alive and
there are no more of them than workers, none waits in a queue.
-/

namespace NetService
namespace ThreadPool

open Tally

variable {n : ℕ}

/-! ### The rank -/

/-- The steps a worker can take before it sleeps or leaves, without a new task; a `notify_one` that
its task owes can wake another worker. -/
def Worker.rank : Worker → ℕ
  | .blocked | .exited => 0
  | .awake => 1
  | .running _ false => 2
  | .running _ true => 4

/-- The steps of the destructor, which wakes at most `n` workers. -/
def Phase.rank (n : ℕ) : Phase → ℕ
  | .alive | .stopped => n + 2
  | .notified => 1
  | .joined => 0

def rank (s : ThreadPool n) : ℕ :=
  2 * s.queued + tally Worker.rank s.workers + 2 * s.owed + s.phase.rank n

/-- The prices: a post gives work to the pool, and so does a spurious wake-up. -/
def Action.cost : Action n → ℕ
  | .post _ | .taskPost _ _ => 5
  | .spurious _ => 2
  | .dtorStop => 1
  | _ => 0

theorem rank_new (n p : ℕ) : (new n p).rank = 2 * n + 2 := by
  have hqueued : (new n p).queued = 0 := by simp [queued, new]
  have htally : tally Worker.rank (new n p).workers = n := by
    simp [tally, new, Worker.rank]
  unfold rank
  rw [hqueued, htally]
  show 2 * 0 + n + 2 * 0 + (n + 2) = 2 * n + 2
  omega

theorem rank_setWorker (s : ThreadPool n) (w : Fin n) (x : Worker) :
    (s.setWorker w x).rank + (s.workers w).rank = s.rank + x.rank := by
  have htally := tally_update Worker.rank s.workers w x
  unfold rank
  rw [queued_setWorker, setWorker_workers, setWorker_owed, setWorker_phase]
  omega

theorem rank_push {s : ThreadPool n} {level : ℕ} (hlevel : level < s.tasks.length) :
    (s.push level).rank = s.rank + 2 := by
  have hqueued := queued_push hlevel
  show 2 * (s.push level).queued + tally Worker.rank s.workers + 2 * s.owed + s.phase.rank n = _
  unfold rank
  omega

theorem rank_withOwed (s : ThreadPool n) (m : ℕ) :
    ({ s with owed := m } : ThreadPool n).rank + 2 * s.owed = s.rank + 2 * m := by
  show 2 * s.queued + tally Worker.rank s.workers + 2 * m + s.phase.rank n + 2 * s.owed =
    2 * s.queued + tally Worker.rank s.workers + 2 * s.owed + s.phase.rank n + 2 * m
  ring

/-- A notification wakes at most one worker. -/
theorem rank_notifyOne {s s' : ThreadPool n} {target : Option (Fin n)}
    (h : s.notifyOne target = some s') : s'.rank ≤ s.rank + 1 := by
  rcases notifyOne_cases h with ⟨w, hw, rfl⟩ | ⟨-, rfl⟩
  · have hset := rank_setWorker s w .awake
    rw [hw] at hset
    simp only [Worker.rank] at hset
    omega
  · omega

/-- A round of `loop()` that does not find a task ends the worker's work. -/
theorem rank_critical {s : ThreadPool n} {w : Fin n} (hw : s.workers w = .awake) :
    (s.critical w).rank + 1 ≤ s.rank := by
  have hleaves : ∀ x : Worker, x.rank = 0 → (s.setWorker w x).rank + 1 ≤ s.rank := by
    intro x hx
    have hset := rank_setWorker s w x
    rw [hw, hx] at hset
    simp only [Worker.rank] at hset
    omega
  unfold critical
  by_cases hwait : (s.stop || !allEmpty s.tasks) = true
  · rw [if_neg (not_not.2 hwait)]
    split_ifs with hexit
    · exact hleaves .exited rfl
    · cases hpop : popFirst s.tasks with
      | none =>
        -- the predicate held and the exit test failed, so some queue is not empty
        simp only [popFirst_eq_none hpop, Bool.not_true, Bool.or_false] at hwait
        simp [popFirst_eq_none hpop, hwait] at hexit
      | some x =>
        obtain ⟨t, qs⟩ := x
        have hset := rank_setWorker { s with tasks := qs, dequeued := s.dequeued ++ [(w, t)] } w
          (.running t false)
        have hqueued : s.queued = qs.flatten.length + 1 := by
          unfold queued
          rw [popFirst_flatten hpop, List.length_cons]
        have hrest : 2 * qs.flatten.length + tally Worker.rank s.workers + 2 * s.owed +
            s.phase.rank n + 2 = s.rank := by
          unfold rank
          omega
        simp only [hw, Worker.rank] at hset
        refine Nat.le_of_add_le_add_right (b := 1) ?_
        rw [hset, ← hrest]
        exact le_refl _
  · rw [if_pos hwait]
    exact hleaves .blocked rfl

/-- `notify_all` wakes at most `n` workers. -/
theorem tally_wake (g : Fin n → Worker) :
    tally Worker.rank (fun w => if g w = .blocked then .awake else g w) ≤
      tally Worker.rank g + n := by
  have hone : ∀ w, (if g w = .blocked then Worker.awake else g w).rank ≤ (g w).rank + 1 := by
    intro w
    split_ifs with hw
    · exact Nat.le_add_left 1 _
    · omega
  refine (Finset.sum_le_sum fun w _ => hone w).trans ?_
  rw [Finset.sum_add_distrib, Finset.sum_const, Finset.card_univ, Fintype.card_fin, smul_eq_mul,
    mul_one]
  rfl

theorem ranked (n p : ℕ) : (system n p).Ranked rank Action.cost := by
  intro s a s' h
  replace h : s.step a = some s' := h
  cases a with
  | post level =>
    obtain ⟨⟨-, hlevel⟩, heq⟩ := Option.ite_none_right_eq_some.1 h
    cases heq
    have hpush := rank_push hlevel
    have howed := rank_withOwed (s.push level) (s.owed + 1)
    have hsame : (s.push level).owed = s.owed := rfl
    show _ ≤ s.rank + 5
    dsimp only
    omega
  | notify target =>
    obtain ⟨howed, heq⟩ := Option.ite_none_right_eq_some.1 h
    have hone := rank_notifyOne heq
    have hpaid := rank_withOwed s (s.owed - 1)
    show s'.rank + 1 ≤ s.rank + 0
    omega
  | taskPost w level =>
    simp only [step] at h
    split at h
    · rename_i t hw
      obtain ⟨hlevel, heq⟩ := Option.ite_none_right_eq_some.1 h
      cases heq
      have hpush := rank_push hlevel
      have hset := rank_setWorker (s.push level) w (.running t true)
      have hold : (s.push level).workers w = .running t false := hw
      rw [hold] at hset
      simp only [Worker.rank] at hset
      show _ ≤ s.rank + 5
      omega
    · cases h
  | taskNotify w target =>
    simp only [step] at h
    split at h
    · rename_i t hw
      have hone := rank_notifyOne h
      have hset := rank_setWorker s w (.running t false)
      rw [hw] at hset
      simp only [Worker.rank] at hset
      show s'.rank + 1 ≤ s.rank + 0
      omega
    · cases h
  | spurious w =>
    obtain ⟨hw, heq⟩ := Option.ite_none_right_eq_some.1 h
    cases heq
    have hset := rank_setWorker s w .awake
    rw [hw] at hset
    simp only [Worker.rank] at hset
    show _ ≤ s.rank + 2
    omega
  | enter w =>
    obtain ⟨hw, heq⟩ := Option.ite_none_right_eq_some.1 h
    cases heq
    exact rank_critical hw
  | finish w =>
    simp only [step] at h
    split at h
    · rename_i t hw
      cases h
      have hset := rank_setWorker s w .awake
      rw [hw] at hset
      simp only [Worker.rank] at hset
      show (s.setWorker w .awake).rank + 1 ≤ s.rank + 0
      omega
    · cases h
  | dtorStop =>
    obtain ⟨halive, heq⟩ := Option.ite_none_right_eq_some.1 h
    cases heq
    show 2 * s.queued + tally Worker.rank s.workers + 2 * s.owed + (n + 2) + 1 ≤ s.rank + 1
    unfold rank
    rw [halive]
    exact le_refl _
  | dtorNotifyAll =>
    obtain ⟨hphase, heq⟩ := Option.ite_none_right_eq_some.1 h
    cases heq
    have hwake := tally_wake s.workers
    show 2 * s.queued + tally Worker.rank (fun w => if s.workers w = .blocked then .awake else
      s.workers w) + 2 * s.owed + 1 + 1 ≤ s.rank + 0
    unfold rank
    rw [hphase]
    simp only [Phase.rank]
    omega
  | dtorJoin =>
    obtain ⟨⟨hphase, -⟩, heq⟩ := Option.ite_none_right_eq_some.1 h
    cases heq
    show 2 * s.queued + tally Worker.rank s.workers + 2 * s.owed + 0 + 1 ≤ s.rank + 0
    unfold rank
    rw [hphase]
    exact le_refl _

/-! ### What has happened when nothing can happen -/

theorem reachable_accounts {p : ℕ} {s : ThreadPool n} (h : (system n p).Reachable s) : s.Accounts :=
  reachable_invariant (new_accounts n p) (fun _ _ hs hm => hs.move hm) h

theorem reachable_shutdown (hn : 0 < n) {p : ℕ} {s : ThreadPool n}
    (h : (system n p).Reachable s) : s.Shutdown := by
  refine reachable_invariant (I := Shutdown) (p := p) ⟨fun _ => rfl, nofun, fun hall => ?_⟩
    (fun _ _ hs hm => hs.move hn hm) h
  cases hall ⟨0, hn⟩

theorem reachable_covered {p : ℕ} {s : ThreadPool n} (h : (system n p).Reachable s) : s.Covered :=
  reachable_invariant (I := Covered) (p := p) ⟨nofun, nofun, nofun⟩ (fun _ _ hs hm => hs.move hm) h

/-- No worker is about to look at the queues, and no notification is owed. -/
structure Settled (s : ThreadPool n) : Prop where
  awake : ∀ w, s.workers w ≠ .awake
  owes : ∀ w t, s.workers w ≠ .running t true
  owed : s.owed = 0

theorem exists_notifyOne (s : ThreadPool n) : ∃ target s', s.notifyOne target = some s' := by
  by_cases h : ∃ w, s.workers w = .blocked
  · obtain ⟨w, hw⟩ := h
    exact ⟨some w, _, if_pos hw⟩
  · push Not at h
    exact ⟨none, s, if_pos h⟩

/-- Nothing can happen but what has a price, and tasks that return. -/
theorem settled_of_rest {s : ThreadPool n}
    (h : ∀ a s', s.step a = some s' → 0 < a.cost ∨ ∃ w, a = .finish w) : s.Settled where
  awake w hw := by
    rcases h (.enter w) _ (if_pos hw) with hcost | ⟨v, hv⟩
    · cases hcost
    · cases hv
  owes w t hw := by
    obtain ⟨target, s', hs'⟩ := exists_notifyOne (s.setWorker w (.running t false))
    have hstep : s.step (.taskNotify w target) = some s' := by
      simp only [step, hw, hs']
    rcases h _ _ hstep with hcost | ⟨v, hv⟩
    · cases hcost
    · cases hv
  owed := by
    by_contra hne
    obtain ⟨target, s', hs'⟩ := exists_notifyOne { s with owed := s.owed - 1 }
    have hstep : s.step (.notify target) = some s' := by
      rw [← hs']
      exact if_pos (Nat.pos_of_ne_zero hne)
    rcases h _ _ hstep with hcost | ⟨v, hv⟩
    · cases hcost
    · cases hv

/-- With a worker asleep, nothing is queued. -/
theorem Settled.queued_eq_zero {s : ThreadPool n} (hs : s.Settled) (hcovered : s.Covered) {w : Fin n}
    (hw : s.workers w = .blocked) : s.queued = 0 := by
  have hcount := hcovered.count w hw
  have hawake : s.awakeCount = 0 := tally_eq_zero fun v => by
    cases hv : s.workers v with
    | awake => exact absurd hv (hs.awake v)
    | blocked | exited | running => rfl
  have howed : s.owedCount = 0 := by
    unfold owedCount
    rw [hs.owed, Nat.zero_add]
    refine tally_eq_zero fun v => ?_
    cases hv : s.workers v with
    | running t owes =>
      cases owes with
      | true => exact absurd hv (hs.owes v t)
      | false => rfl
    | blocked | awake | exited => rfl
  omega

theorem tasks_of_queued {s : ThreadPool n} (h : s.queued = 0) : s.tasks.flatten = [] :=
  List.length_eq_zero_iff.1 h

/-- At rest, nobody runs a task and no queue holds one. -/
theorem executed_of_rest (hn : 0 < n) {p : ℕ} {s : ThreadPool n} (h : (system n p).Reachable s)
    (hrest : (system n p).AtRest Action.cost s) :
    s.executed.Perm s.posted ∧ (s.phase = .alive ∨ s.phase = .joined) := by
  have hsettled : s.Settled := settled_of_rest fun a s' hstep => .inl (hrest a s' hstep)
  have hcovered := reachable_covered h
  have hshut := reachable_shutdown hn h
  have hidle : ∀ w, s.workers w = .blocked ∨ s.workers w = .exited := by
    intro w
    cases hw : s.workers w with
    | blocked => exact .inl rfl
    | exited => exact .inr rfl
    | awake => exact absurd hw (hsettled.awake w)
    | running t owes =>
      cases owes with
      | true => exact absurd hw (hsettled.owes w t)
      | false =>
        have hstep : s.step (.finish w) =
            some { s.setWorker w .awake with executed := s.executed ++ [t] } := by
          simp only [step, hw]
        cases hrest _ _ hstep
  have hempty : s.tasks.flatten = [] := by
    by_cases hblocked : ∃ w, s.workers w = .blocked
    · obtain ⟨w, hw⟩ := hblocked
      exact tasks_of_queued (hsettled.queued_eq_zero hcovered hw)
    · push Not at hblocked
      have hexited : ∀ w, s.workers w = .exited := fun w => (hidle w).resolve_left (hblocked w)
      exact flatten_of_allEmpty (hshut.drained hexited)
  refine ⟨?_, ?_⟩
  · have hacc := reachable_accounts h
    rw [List.perm_iff_count]
    intro t
    have hkept := hacc.kept.count_eq t
    have hheld := hacc.held t
    rw [hempty, List.append_nil] at hkept
    rw [tally_eq_zero fun w => by rcases hidle w with hw | hw <;> rw [hw] <;> rfl] at hheld
    omega
  · cases hphase : s.phase with
    | alive => exact .inl rfl
    | joined => exact .inr rfl
    | stopped => cases hrest .dtorNotifyAll _ (if_pos hphase)
    | notified =>
      -- `notify_all` has woken everybody, so that everybody has left
      have hexited : ∀ w, s.workers w = .exited := fun w =>
        (hidle w).resolve_left (hcovered.settled (.inl hphase) w)
      cases hrest .dtorJoin _ (if_pos ⟨hphase, hexited⟩)

/-! ### The results -/

/-- A run is at most as long as its posts and spurious wake-ups allow.  When nothing else can happen,
every posted task has been executed, once, and the destructor has not started or has joined all
workers; and the pool gets there from every state. -/
theorem every_task_executed (hn : 0 < n) (p : ℕ) {acts : List (Action n)} {s : ThreadPool n}
    (h : (system n p).Run (new n p) acts s) :
    acts.length ≤ 2 * n + 2 + (acts.map Action.cost).sum ∧
    ((system n p).AtRest Action.cost s →
      s.executed.Perm s.posted ∧ (s.phase = .alive ∨ s.phase = .joined)) ∧
    ∃ more s', (system n p).Run s more s' ∧ (∀ a ∈ more, a.cost = 0) ∧
      (system n p).AtRest Action.cost s' := by
  refine ⟨?_, executed_of_rest hn ⟨_, acts, rfl, h⟩, (ranked n p).rests s⟩
  have hlen := (ranked n p).length_le h
  rw [rank_new] at hlen
  omega

theorem every_task_executed_sample :
    ∃ s : ThreadPool 1, (system 1 1).Run (new 1 1) sampleRun s ∧ sampleRun.length ≤ 4 + 6 ∧
      ((system 1 1).AtRest Action.cost s → s.executed.Perm s.posted) := by
  have hrun : (system 1 1).Run (new 1 1) sampleRun ((sampleRun.foldlM step (new 1 1)).getD (new 1 1)) :=
    .of_foldlM (fun _ _ _ hstep => hstep) rfl
  obtain ⟨hlen, hrest, -⟩ := every_task_executed (by decide) 1 hrun
  exact ⟨_, hrun, hlen, fun h => (hrest h).1⟩

/-- Tasks that are run are different tasks. -/
theorem running_ne {s : ThreadPool n} (hs : s.Accounts) {v w : Fin n} (hne : v ≠ w) {t : Task}
    {b c : Bool} (hv : s.workers v = .running t b) : s.workers w ≠ .running t c := by
  intro hw
  have hnodup := (List.nodup_append.1 (hs.kept.nodup_iff.1 hs.posted_nodup)).1
  have hone := List.nodup_iff_count_le_one.1 hnodup t
  have hheld := hs.held t
  have htwo := add_le_tally (Worker.carries t) s.workers hne
  rw [hv, hw] at htwo
  simp only [Worker.carries, if_true] at htwo
  omega

/-- Every worker runs a task, so that as many tasks have been dequeued. -/
theorem le_length_dequeued {s : ThreadPool n} (hs : s.Accounts)
    (hall : ∀ w, ∃ t, s.workers w = .running t false) : n ≤ s.dequeued.length := by
  choose task htask using hall
  have hinj : Function.Injective task := by
    intro v w heq
    by_contra hne
    refine running_ne (c := false) hs hne (htask v) ?_
    rw [heq]
    exact htask w
  have hsub : (List.finRange n).map task ⊆ s.dequeued.map Prod.snd := by
    intro t ht
    obtain ⟨w, -, rfl⟩ := List.mem_map.1 ht
    have hheld := hs.held (task w)
    have hone := le_tally (Worker.carries (task w)) s.workers w
    rw [htask w] at hone
    simp only [Worker.carries, if_true] at hone
    exact List.count_pos_iff.1 (by omega)
  have hlen := (((List.nodup_finRange n).map hinj).subperm hsub).length_le
  rwa [List.length_map, List.length_finRange, List.length_map] at hlen

/-- As long as no more tasks have been posted than there are workers, and the destructor has not
started, no task waits for another one to return: when nothing else can happen, each has been
executed or is run by a worker of its own. -/
theorem runs_at_once (hn : 0 < n) (p : ℕ) {s : ThreadPool n} (h : (system n p).Reachable s)
    (halive : s.phase = .alive) (hposted : s.posted.length ≤ n)
    (hrest : ∀ a s', s.step a = some s' → 0 < a.cost ∨ ∃ w, a = .finish w) :
    ∀ t ∈ s.posted, t ∈ s.executed ∨ ∃! w, s.workers w = .running t false := by
  have hsettled := settled_of_rest hrest
  have hacc := reachable_accounts h
  have hshut := reachable_shutdown hn h
  have hempty : s.tasks.flatten = [] := by
    by_cases hblocked : ∃ w, s.workers w = .blocked
    · obtain ⟨w, hw⟩ := hblocked
      exact tasks_of_queued (hsettled.queued_eq_zero (reachable_covered h) hw)
    · have hall : ∀ w, ∃ t, s.workers w = .running t false := by
        intro w
        cases hw : s.workers w with
        | blocked => exact absurd ⟨w, hw⟩ hblocked
        | awake => exact absurd hw (hsettled.awake w)
        | exited =>
          have hstop := hshut.stopped w hw
          rw [hshut.phase halive] at hstop
          cases hstop
        | running t owes =>
          cases owes with
          | true => exact absurd hw (hsettled.owes w t)
          | false => exact ⟨t, rfl⟩
      have hlen := hacc.kept.length_eq
      have hdeq := le_length_dequeued hacc hall
      rw [List.length_append, List.length_map] at hlen
      exact List.length_eq_zero_iff.1 (by omega)
  intro t ht
  have hkept := hacc.kept.count_eq t
  have hheld := hacc.held t
  rw [hempty, List.append_nil, List.count_eq_one_of_mem hacc.posted_nodup ht] at hkept
  by_cases hdone : t ∈ s.executed
  · exact .inl hdone
  · rw [List.count_eq_zero_of_not_mem hdone, ← hkept, Nat.zero_add] at hheld
    obtain ⟨w, hw⟩ := exists_of_tally_pos (hheld.symm ▸ Nat.one_pos)
    cases hrun : s.workers w with
    | blocked | awake | exited => simp [hrun, Worker.carries] at hw
    | running t' owes =>
      obtain rfl : t' = t := by
        by_contra hne
        simp [hrun, Worker.carries, hne] at hw
      cases owes with
      | true => exact absurd hrun (hsettled.owes w t')
      | false =>
        refine .inr ⟨w, hrun, fun v hv => ?_⟩
        by_contra hne
        exact running_ne hacc hne hv hrun

/-- Two tasks for three workers. -/
def sampleLoops : List (Action 3) :=
  [.post 0, .notify none, .post 0, .notify none, .enter 0, .enter 1, .enter 2]

theorem runs_at_once_sample :
    ∃ s : ThreadPool 3, (system 3 1).Reachable s ∧
      ∀ t ∈ s.posted, t ∈ s.executed ∨ ∃! w, s.workers w = .running t false := by
  have hreach : (system 3 1).Reachable ((sampleLoops.foldlM step (new 3 1)).getD (new 3 1)) :=
    reachable_of_foldlM (by decide)
  refine ⟨_, hreach, runs_at_once (by decide) 1 hreach (by decide) (by decide) fun a s' hstep => ?_⟩
  cases a with
  | post | taskPost | spurious | dtorStop => exact .inl (by simp [Action.cost])
  | finish w => exact .inr ⟨w, rfl⟩
  | notify | dtorNotifyAll | dtorJoin => cases hstep
  | enter w | taskNotify w target =>
    match w with
    | 0 => cases hstep
    | 1 => cases hstep
    | 2 => cases hstep

end ThreadPool
end NetService
