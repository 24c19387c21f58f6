import NetService.ThreadPool.Tasks
import NetService.Lib.Stream

/-!
# Priority and FIFO order

`Queued` says where the tasks of one level are: those dequeued so far, then the queue of the level,
are the tasks posted at that level, in posting order.  A step keeps it, because a post appends to
one queue and a worker takes the front of one queue.

`dequeued_by_priority_in_posting_order` reads both orders off it.  The scan leaves only empty
queues behind it, and what has been dequeued of a level is a prefix of what was posted there.
-/

namespace NetService
namespace ThreadPool

variable {n : ℕ}

/-- The tasks of one level, in the order of a list. -/
def ofLevel (level : ℕ) (ts : List Task) : List Task := ts.filter fun t => t.level = level

@[simp] theorem ofLevel_append (level : ℕ) (ts us : List Task) :
    ofLevel level (ts ++ us) = ofLevel level ts ++ ofLevel level us :=
  List.filter_append ..

theorem ofLevel_cons_self (t : Task) (ts : List Task) :
    ofLevel t.level (t :: ts) = t :: ofLevel t.level ts :=
  List.filter_cons_of_pos (decide_eq_true rfl)

theorem ofLevel_cons_of_ne {level : ℕ} {t : Task} (h : t.level ≠ level) (ts : List Task) :
    ofLevel level (t :: ts) = ofLevel level ts :=
  List.filter_cons_of_neg (by simpa using h)

@[simp] theorem ofLevel_nil (level : ℕ) : ofLevel level [] = [] := rfl

theorem mem_ofLevel {level : ℕ} {t : Task} {ts : List Task} :
    t ∈ ofLevel level ts ↔ t ∈ ts ∧ t.level = level := by
  simp [ofLevel]

/-- The queue of a level; there is none beyond the last. -/
def queueOf (s : ThreadPool n) (level : ℕ) : List Task := s.tasks.getD level []

/-- The tasks posted at a level are those dequeued from it, then those queued there. -/
def Queued (s : ThreadPool n) : Prop :=
  ∀ level, ofLevel level s.posted = ofLevel level (s.dequeued.map Prod.snd) ++ s.queueOf level

theorem new_queued (n p : ℕ) : (new n p).Queued := by
  intro level
  simp only [new, queueOf, ofLevel, List.map_nil, List.filter_nil, List.nil_append,
    List.getD_eq_getElem?_getD, List.getElem?_replicate]
  split <;> rfl

/-! ### The steps -/

/-- A post at a valid level goes to the end of its queue and nowhere else. -/
theorem queueOf_push {s : ThreadPool n} {level : ℕ} (hlevel : level < s.tasks.length) (l : ℕ) :
    (s.push level).queueOf l = s.queueOf l ++ ofLevel l [s.nextTask level] := by
  show (s.tasks.modify level (· ++ [s.nextTask level])).getD l [] =
    s.tasks.getD l [] ++ ofLevel l [s.nextTask level]
  rw [List.getD_eq_getElem?_getD, List.getD_eq_getElem?_getD]
  by_cases hl : level = l
  · subst hl
    rw [List.getElem?_modify_eq, List.getElem?_eq_getElem hlevel]
    exact congrArg _ (ofLevel_cons_self (s.nextTask level) []).symm
  · rw [ofLevel_cons_of_ne (t := s.nextTask level) hl, List.getElem?_modify_ne _ _ hl,
      ofLevel_nil, List.append_nil]

theorem Queued.push {s : ThreadPool n} (hs : s.Queued) {level : ℕ}
    (hlevel : level < s.tasks.length) : (s.push level).Queued := by
  intro l
  have hl := hs l
  show ofLevel l (s.posted ++ [s.nextTask level]) =
    ofLevel l (s.dequeued.map Prod.snd) ++ (s.push level).queueOf l
  rw [ofLevel_append, hl, queueOf_push hlevel l, List.append_assoc]

/-- The task a scan finds is the front of the queue of its own level, and the queues of the
smaller levels are empty. -/
theorem Queued.scan {s : ThreadPool n} (hs : s.Queued) {t : Task} {qs : List (List Task)}
    (hpop : popFirst s.tasks = some (t, qs)) :
    (∀ l q, l < t.level → s.tasks[l]? = some q → q = []) ∧
      (∃ q, s.queueOf t.level = t :: q ∧ qs.getD t.level [] = q) ∧
      ∀ l, l ≠ t.level → qs.getD l [] = s.queueOf l := by
  obtain ⟨before, q, after, hbefore, htasks, rfl⟩ := popFirst_spec hpop
  have hqueue : s.queueOf before.length = t :: q := by
    simp [queueOf, htasks, List.getD_eq_getElem?_getD]
  have hlevel : t.level = before.length := by
    have hmem : t ∈ ofLevel before.length s.posted := by
      rw [hs before.length, hqueue]
      exact List.mem_append_right _ List.mem_cons_self
    exact (mem_ofLevel.1 hmem).2
  rw [hlevel]
  refine ⟨?_, ⟨q, hqueue, by simp [List.getD_eq_getElem?_getD]⟩, ?_⟩
  · intro l q' hl hq'
    rw [htasks, List.getElem?_append_left hl] at hq'
    exact hbefore q' (List.mem_of_getElem? hq')
  · intro l hl
    simp only [queueOf, htasks, List.getD_eq_getElem?_getD]
    rcases Nat.lt_or_gt_of_ne hl with hlt | hgt
    · rw [List.getElem?_append_left hlt, List.getElem?_append_left hlt]
    · obtain ⟨k, rfl⟩ := Nat.exists_eq_add_of_lt hgt
      have hskip : before.length + k + 1 - before.length = k + 1 := by omega
      rw [List.getElem?_append_right (by omega), List.getElem?_append_right (by omega), hskip,
        List.getElem?_cons_succ, List.getElem?_cons_succ]

theorem Queued.take {s : ThreadPool n} (hs : s.Queued) {w : Fin n} {t : Task}
    {qs : List (List Task)} (hpop : popFirst s.tasks = some (t, qs)) :
    ({ s with tasks := qs, dequeued := s.dequeued ++ [(w, t)] } : ThreadPool n).Queued := by
  obtain ⟨-, ⟨q, hfront, hrest⟩, hother⟩ := hs.scan hpop
  intro l
  have hl := hs l
  show ofLevel l s.posted =
    ofLevel l ((s.dequeued ++ [(w, t)]).map Prod.snd) ++ qs.getD l []
  rw [List.map_append, ofLevel_append, hl, List.append_assoc]
  congr 1
  show s.queueOf l = ofLevel l [t] ++ qs.getD l []
  by_cases hlevel : t.level = l
  · subst hlevel
    rw [ofLevel_cons_self, hfront, hrest]
    rfl
  · rw [ofLevel_cons_of_ne hlevel, hother l (Ne.symm hlevel)]
    rfl

theorem Queued.move {s s' : ThreadPool n} (hs : s.Queued) (h : Move s s') : s'.Queued := by
  cases h with
  | post level _ hlevel => exact hs.push hlevel
  | taskPost w t level _ hlevel => exact hs.push hlevel
  | take w t qs _ hpop => exact hs.take hpop
  | notify | notifyLost | taskNotify | taskNotifyLost | spurious | wait | exit | finish | dtorStop
  | dtorNotifyAll | dtorJoin => exact hs

/-! ### The orders -/

/-- A step that dequeues a task took it in the scan. -/
theorem Move.dequeue {s s' : ThreadPool n} (h : Move s s') {w : Fin n} {t : Task}
    (hdeq : s'.dequeued = s.dequeued ++ [(w, t)]) : ∃ qs, popFirst s.tasks = some (t, qs) := by
  cases h with
  | take w' t' qs _ hpop =>
    have hsame : s.dequeued ++ [(w', t')] = s.dequeued ++ [(w, t)] := hdeq
    obtain ⟨-, hone⟩ := List.append_inj' hsame rfl
    cases hone
    exact ⟨qs, hpop⟩
  | post | taskPost | notify | notifyLost | taskNotify | taskNotifyLost | spurious | wait | exit
  | finish | dtorStop | dtorNotifyAll | dtorJoin =>
    have hlen := congrArg List.length hdeq
    simp [push] at hlen

/-- What was posted earlier at the same level has been dequeued earlier. -/
theorem Queued.order {s : ThreadPool n} (hs : s.Queued) (hnodup : s.posted.Nodup) {i j k : ℕ}
    {t u : Task} (hij : i < j) (ht : s.posted[i]? = some t) (hu : s.posted[j]? = some u)
    (hsame : t.level = u.level) {w : Fin n} (hk : s.dequeued[k]? = some (w, u)) :
    ∃ m v, m < k ∧ s.dequeued[m]? = some (v, t) := by
  -- cut both lists at `u`, and keep the tasks of its level
  have hstream : ofLevel u.level s.posted = ofLevel u.level (s.posted.take j) ++
      u :: ofLevel u.level (s.posted.drop (j + 1)) := by
    conv_lhs => rw [Stream.eq_take_cons_drop hu]
    rw [ofLevel_append, ofLevel_cons_self]
  have htaken : ofLevel u.level ((s.dequeued.take k).map Prod.snd) ++
      u :: ofLevel u.level ((s.dequeued.drop (k + 1)).map Prod.snd) <+:
        ofLevel u.level s.posted := by
    refine ⟨s.queueOf u.level, ?_⟩
    rw [hs u.level]
    conv_rhs => rw [Stream.eq_take_cons_drop hk]
    rw [List.map_append, List.map_cons, ofLevel_append, ofLevel_cons_self]
  have hfront : t ∈ ofLevel u.level (s.posted.take j) := by
    refine mem_ofLevel.2 ⟨?_, hsame⟩
    refine List.mem_of_getElem? (i := i) ?_
    rw [List.getElem?_take_of_lt hij, ht]
  have hmem := Stream.mem_before_of_prefix (hnodup.filter _) htaken hstream hfront
  obtain ⟨⟨v, t'⟩, htake, rfl⟩ := List.mem_map.1 (mem_ofLevel.1 hmem).1
  obtain ⟨m, hm⟩ := List.mem_iff_getElem?.1 htake
  obtain ⟨hlt, -⟩ := List.getElem?_eq_some_iff.1 hm
  rw [List.length_take] at hlt
  have hmk : m < k := by omega
  rw [List.getElem?_take_of_lt hmk] at hm
  exact ⟨m, v, hmk, hm⟩

/-- In every reachable state, before and after `stop_`: a step that dequeues a task finds every
queue of a smaller level empty, and of two tasks posted at the same level the one pushed first is
dequeued first. -/
theorem dequeued_by_priority_in_posting_order (n priorityCount : ℕ) {s : ThreadPool n}
    (h : (system n priorityCount).Reachable s) :
    (∀ a s' w t, (system n priorityCount).step s a s' → s'.dequeued = s.dequeued ++ [(w, t)] →
      ∀ level q, level < t.level → s.tasks[level]? = some q → q = []) ∧
    ∀ (i j : ℕ) (t u : Task), i < j → s.posted[i]? = some t → s.posted[j]? = some u →
      t.level = u.level →
      ∀ (k : ℕ) (w : Fin n), s.dequeued[k]? = some (w, u) →
        ∃ m v, m < k ∧ s.dequeued[m]? = some (v, t) := by
  have hqueued : s.Queued :=
    reachable_invariant (new_queued n priorityCount) (fun _ _ hs hm => hs.move hm) h
  have hacc : s.Accounts :=
    reachable_invariant (new_accounts n priorityCount) (fun _ _ hs hm => hs.move hm) h
  constructor
  · intro a s' w t hstep hdeq
    obtain ⟨qs, hpop⟩ := (step_move hstep).dequeue hdeq
    exact (hqueued.scan hpop).1
  · intro i j t u hij ht hu hsame k w hk
    exact hqueued.order hacc.posted_nodup hij ht hu hsame hk

/-- One worker with two queues; it drains them after `stop_`, and the task of level 1, posted
first, is still queued. -/
def drainingRun : List (Action 1) :=
  [.post 1, .post 0, .post 0, .dtorStop, .enter (.last 0), .finish (.last 0), .enter (.last 0),
    .finish (.last 0)]

/-- The pool after `drainingRun`. -/
def draining : ThreadPool 1 := (drainingRun.foldlM step (new 1 2)).getD (new 1 2)

theorem dequeued_by_priority_in_posting_order_draining :
    (system 1 2).Reachable draining ∧
      (∀ level q, level < 1 → draining.tasks[level]? = some q → q = []) ∧
      ∃ m v, m < 1 ∧ draining.dequeued[m]? = some (v, ⟨1, 0⟩) := by
  have hreach : (system 1 2).Reachable draining := reachable_of_foldlM (by decide)
  obtain ⟨hpriority, horder⟩ := dequeued_by_priority_in_posting_order 1 2 hreach
  refine ⟨hreach, ?_, ?_⟩
  · exact hpriority (.enter 0) (draining.critical 0) 0 ⟨0, 1⟩ rfl (by decide)
  · exact horder 1 2 ⟨1, 0⟩ ⟨2, 0⟩ (by decide) (by decide) (by decide) rfl 1 0 (by decide)

end ThreadPool
end NetService
