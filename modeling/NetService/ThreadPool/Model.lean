import NetService.Lib.LTS
import NetService.Lib.Tally

/-!
# `tl::ThreadPool`

The pool as a transition system: `n` workers in `loop()`, any number of outside posters, and the
destructor, with every access to `tasks_` one step under `tasks_mutex_`.

The condition variable is modelled by the workers that wait on it: `notify_one` wakes some blocked
worker, and is lost when none is blocked; a blocked worker may also wake by itself.  The initial
state is the one the constructor leaves behind: all queues there, every worker about to take the
lock for the first time.

`posted`, `dequeued` and `executed` are histories.  No code reads them; a task's `id` is its
position in `posted`.
-/

namespace NetService

/-- One `std::function` in a queue: the number of the post that made it and its priority. -/
structure Task where
  id : ℕ
  level : ℕ
deriving DecidableEq

namespace ThreadPool

/-- Where a worker is in `loop()`. -/
inductive Worker
  /-- in `condition_.wait`, the lock released -/
  | blocked
  /-- woken, or about to take the lock -/
  | awake
  /-- in `task()`; `owes` while a `postPriority` of the task has unlocked and not yet notified -/
  | running (task : Task) (owes : Bool)
  /-- returned from `loop()` -/
  | exited
deriving DecidableEq

/-- Where the destructor is. -/
inductive Phase
  | alive
  | stopped
  | notified
  | joined
deriving DecidableEq

end ThreadPool

open ThreadPool in
/-- The pool with `n` workers. -/
structure ThreadPool (n : ℕ) where
  workers : Fin n → Worker
  tasks : List (List Task)
  stop : Bool
  phase : Phase
  /-- outside posters between their unlock and their `notify_one` -/
  owed : ℕ
  posted : List Task
  dequeued : List (Fin n × Task)
  executed : List Task

namespace ThreadPool

variable {n : ℕ}

/-- The pool after its constructor. -/
def new (n priorityCount : ℕ) : ThreadPool n where
  workers _ := .awake
  tasks := List.replicate priorityCount []
  stop := false
  phase := .alive
  owed := 0
  posted := []
  dequeued := []
  executed := []

/-- `allempty`, as the predicate and the exit test compute it. -/
def allEmpty (tasks : List (List Task)) : Bool := tasks.all List.isEmpty

/-- The scan for a task: the first non-empty queue gives up its front. -/
def popFirst : List (List Task) → Option (Task × List (List Task))
  | [] => none
  | [] :: qs => (popFirst qs).map fun x => (x.1, [] :: x.2)
  | (t :: q) :: qs => some (t, q :: qs)

def setWorker (s : ThreadPool n) (w : Fin n) (x : Worker) : ThreadPool n :=
  { s with workers := Function.update s.workers w x }

section Fields

variable (s : ThreadPool n) (w : Fin n) (x : Worker)

@[simp] theorem setWorker_workers : (s.setWorker w x).workers = Function.update s.workers w x := rfl
@[simp] theorem setWorker_tasks : (s.setWorker w x).tasks = s.tasks := rfl
@[simp] theorem setWorker_stop : (s.setWorker w x).stop = s.stop := rfl
@[simp] theorem setWorker_phase : (s.setWorker w x).phase = s.phase := rfl
@[simp] theorem setWorker_owed : (s.setWorker w x).owed = s.owed := rfl
@[simp] theorem setWorker_posted : (s.setWorker w x).posted = s.posted := rfl
@[simp] theorem setWorker_dequeued : (s.setWorker w x).dequeued = s.dequeued := rfl
@[simp] theorem setWorker_executed : (s.setWorker w x).executed = s.executed := rfl

end Fields

/-- The locked part of `postPriority`. -/
def push (s : ThreadPool n) (level : ℕ) : ThreadPool n :=
  let t : Task := ⟨s.posted.length, level⟩
  { s with tasks := s.tasks.modify level (· ++ [t]), posted := s.posted ++ [t] }

/-- `condition_.notify_one()`, with the worker it reaches, if any worker is blocked. -/
def notifyOne (s : ThreadPool n) : Option (Fin n) → Option (ThreadPool n)
  | some w => if s.workers w = .blocked then some (s.setWorker w .awake) else none
  | none => if ∀ w, s.workers w ≠ .blocked then some s else none

/-- The locked part of one round of `loop()`, for a worker that holds the lock. -/
def critical (s : ThreadPool n) (w : Fin n) : ThreadPool n :=
  if ¬ (s.stop || !allEmpty s.tasks) then
    s.setWorker w .blocked
  else if s.stop && allEmpty s.tasks then
    s.setWorker w .exited
  else
    match popFirst s.tasks with
    | none => s -- `got_task` is false: the next round starts
    | some (t, qs) =>
      { s with tasks := qs, dequeued := s.dequeued ++ [(w, t)] }.setWorker w (.running t false)

/-- What the threads can do next. -/
inductive Action (n : ℕ)
  /-- an outside thread pushes a task -/
  | post (level : ℕ)
  /-- an outside thread calls the `notify_one` it owes -/
  | notify (target : Option (Fin n))
  /-- the task `w` runs pushes a task -/
  | taskPost (w : Fin n) (level : ℕ)
  /-- the task `w` runs calls the `notify_one` it owes -/
  | taskNotify (w : Fin n) (target : Option (Fin n))
  /-- a spurious wake-up -/
  | spurious (w : Fin n)
  /-- `w` takes the lock and goes through its critical section -/
  | enter (w : Fin n)
  /-- the task `w` runs returns -/
  | finish (w : Fin n)
  /-- the destructor sets `stop_` -/
  | dtorStop
  /-- the destructor calls `notify_all` -/
  | dtorNotifyAll
  /-- the destructor has joined every worker -/
  | dtorJoin

/-- One step.  Outside threads post only before the destructor starts, at valid levels. -/
def step (s : ThreadPool n) : Action n → Option (ThreadPool n)
  | .post level =>
    if s.phase = .alive ∧ level < s.tasks.length then
      some { s.push level with owed := s.owed + 1 }
    else none
  | .notify target =>
    if 0 < s.owed then { s with owed := s.owed - 1 }.notifyOne target else none
  | .taskPost w level =>
    match s.workers w with
    | .running t false =>
      if level < s.tasks.length then some ((s.push level).setWorker w (.running t true)) else none
    | _ => none
  | .taskNotify w target =>
    match s.workers w with
    | .running t true => (s.setWorker w (.running t false)).notifyOne target
    | _ => none
  | .spurious w => if s.workers w = .blocked then some (s.setWorker w .awake) else none
  | .enter w => if s.workers w = .awake then some (s.critical w) else none
  | .finish w =>
    match s.workers w with
    | .running t false => some { s.setWorker w .awake with executed := s.executed ++ [t] }
    | _ => none
  | .dtorStop =>
    if s.phase = .alive then some { s with stop := true, phase := .stopped } else none
  | .dtorNotifyAll =>
    if s.phase = .stopped then
      some { s with
        workers := fun w => if s.workers w = .blocked then .awake else s.workers w
        phase := .notified }
    else none
  | .dtorJoin =>
    if s.phase = .notified ∧ ∀ w, s.workers w = .exited then some { s with phase := .joined }
    else none

/-- The pool with `n` threads and `priorityCount` queues, from its construction on. -/
def system (n priorityCount : ℕ) : LTS (ThreadPool n) (Action n) where
  init s := s = new n priorityCount
  step s a t := s.step a = some t

end ThreadPool
end NetService
