import NetService.Dispatcher.Model

/-!
# `dispatch`, `stop` and `join`

One thread calls `dispatch`, any number call `join`, and any number call `post` and `stop`, as
`Dispatcher.Model` has it; `stop` posts the callback that breaks the loop.  The locked parts of
`dispatch`, `post` and `timerCB` are single steps that need `mu_` to be free, and a joiner holds it
from the step that takes it to the one that blocks in `cond_.wait`.

`cond_` is modelled by the joiners that wait on it.  `notify_all` wakes all of them; a joiner may
also wake by itself, and takes `mu_` once more to return.  The wait has no predicate.
-/

namespace NetService
namespace Dispatcher

/-- What is posted: the callback of `stop`, or another. -/
inductive Callback (β : Type*)
  /-- `event_base_loopbreak(ev_base_)` -/
  | loopbreak
  | other (f : β)

/-- Where the thread that calls `dispatch` is. -/
inductive Phase
  | outside
  /-- `stop_` is set -/
  | ready
  /-- in `event_base_loop` -/
  | looping
  /-- behind it -/
  | left
  /-- behind `notify_all` -/
  | notified
  | returned
deriving DecidableEq

/-- `event_base_loop` has been entered. -/
def Phase.entered : Phase → Bool
  | .outside | .ready => false
  | .looping | .left | .notified | .returned => true

/-- `event_base_loop` has returned. -/
def Phase.ended : Phase → Bool
  | .outside | .ready | .looping => false
  | .left | .notified | .returned => true

/-- `notify_all` has been called. -/
def Phase.told : Phase → Bool
  | .outside | .ready | .looping | .left => false
  | .notified | .returned => true

/-- Where a thread is in `join`; `late` if `dispatch` had entered the loop when it was called. -/
inductive Joiner
  | outside
  /-- before it takes `mu_` -/
  | called (late : Bool)
  /-- holding `mu_` -/
  | locked (late : Bool)
  /-- blocked in `cond_.wait`, `mu_` released -/
  | waiting (late : Bool)
  /-- woken, before it takes `mu_` again -/
  | woken (late : Bool)
  | returned (late : Bool)
deriving DecidableEq

/-- A dispatcher with posters `ι` and joiners `κ`. -/
structure Joined (ι κ β : Type*) where
  disp : Dispatcher ι (Callback β)
  /-- `event_base_loopbreak` has been called -/
  broken : Bool
  stop : Bool
  phase : Phase
  /-- the joiner that holds `mu_` -/
  mu : Option κ
  joiners : κ → Joiner

/-- What the threads can do next. -/
inductive JoinAction (ι κ β : Type*)
  /-- a step of `post`, of `stop` or of the loop -/
  | disp (a : Action ι (Callback β))
  /-- `dispatch` sets `stop_` under `mu_` -/
  | setStop
  /-- `event_base_loop` is entered -/
  | loop
  /-- `event_base_loop` returns -/
  | leave
  | notifyAll
  /-- `dispatch` returns -/
  | ret
  /-- a thread calls `join` -/
  | join (t : κ)
  /-- it takes `mu_` -/
  | lock (t : κ)
  /-- it blocks in `cond_.wait` -/
  | wait (t : κ)
  /-- a spurious wake-up -/
  | spurious (t : κ)
  /-- the wait takes `mu_` again, and `join` returns -/
  | unblock (t : κ)

/-- The steps of `post` and `timerCB` that take `mu_`. -/
def Action.locks {ι α : Type*} : Action ι α → Bool
  | .post _ _ | .loopPost _ | .take => true
  | .signal _ | .loopSignal | .enter | .call | .pop | .leave => false

/-- The steps of the loop thread. -/
def Action.inLoop {ι α : Type*} : Action ι α → Bool
  | .post _ _ | .signal _ => false
  | .loopPost _ | .loopSignal | .enter | .take | .call | .pop | .leave => true

namespace Joined

variable {ι κ β : Type*}

/-- After the constructor. -/
def new : Joined ι κ β where
  disp := .new
  broken := false
  stop := true
  phase := .outside
  mu := none
  joiners _ := .outside

/-- The callback that is called next is that of `stop`. -/
def breaks (d : Dispatcher ι (Callback β)) : Action ι (Callback β) → Bool
  | .call =>
      match d.loop with
      | .batch (.loopbreak :: _) => true
      | _ => false
  | _ => false

/-- `cond_.notify_all()` -/
def notify : Joiner → Joiner
  | .waiting late => .woken late
  | j => j

section Step

variable [DecidableEq ι] [DecidableEq κ]

def setJoiner (s : Joined ι κ β) (t : κ) (j : Joiner) : Joined ι κ β :=
  { s with joiners := Function.update s.joiners t j }

/-- One step. -/
def step (s : Joined ι κ β) : JoinAction ι κ β → Option (Joined ι κ β)
  | .disp a =>
    if (a.locks → s.mu = none) ∧ (a.inLoop → s.phase = .looping) then
      (s.disp.step a).map fun d => { s with disp := d, broken := s.broken || breaks s.disp a }
    else none
  | .setStop =>
    if s.phase = .outside ∧ s.mu = none then some { s with stop := false, phase := .ready }
    else none
  | .loop => if s.phase = .ready then some { s with phase := .looping } else none
  | .leave =>
    match s.disp.loop with
    | .polling =>
      if s.phase = .looping ∧ s.broken then some { s with phase := .left } else none
    | _ => none
  | .notifyAll =>
    if s.phase = .left then
      some { s with phase := .notified, joiners := fun t => notify (s.joiners t) }
    else none
  | .ret => if s.phase = .notified then some { s with phase := .returned } else none
  | .join t =>
    match s.joiners t with
    | .outside | .returned _ => some (s.setJoiner t (.called s.phase.entered))
    | _ => none
  | .lock t =>
    match s.joiners t with
    | .called late =>
      if s.mu = none then some { s.setJoiner t (.locked late) with mu := some t } else none
    | _ => none
  | .wait t =>
    match s.joiners t with
    | .locked late => some { s.setJoiner t (.waiting late) with mu := none }
    | _ => none
  | .spurious t =>
    match s.joiners t with
    | .waiting late => some (s.setJoiner t (.woken late))
    | _ => none
  | .unblock t =>
    match s.joiners t with
    | .woken late => if s.mu = none then some (s.setJoiner t (.returned late)) else none
    | _ => none

/-- The dispatcher with its joiners, from its construction on. -/
def system (ι κ β : Type*) [DecidableEq ι] [DecidableEq κ] :
    LTS (Joined ι κ β) (JoinAction ι κ β) where
  init s := s = new
  step s a s' := s.step a = some s'

end Step

/-! ### What `join` is for -/

/-- `dispatch` has returned, and a joiner is still blocked. -/
def Stranded (s : Joined ι κ β) : Prop :=
  s.phase = .returned ∧ ∃ t late, s.joiners t = .waiting late

/-- A `join` called after `dispatch` entered the loop has returned, and the loop has not ended. -/
def Early (s : Joined ι κ β) : Prop :=
  s.phase.ended = false ∧ ∃ t, s.joiners t = .returned true

/-- No joiner misses the end of the loop or returns before it. -/
def Faithful (s : Joined ι κ β) : Prop := ¬ s.Stranded ∧ ¬ s.Early

/-- A joiner blocks before `notify_all`, and one that called `join` in the loop does not wake by
itself before the loop has ended. -/
def InTime (s : Joined ι κ β) : JoinAction ι κ β → Prop
  | .wait _ => s.phase.told = false
  | .spurious t => s.joiners t = .waiting true → s.phase.ended = true
  | _ => True

/-- A joiner blocks before `notify_all`. -/
def BlocksInTime (s : Joined ι κ β) : JoinAction ι κ β → Prop
  | .wait _ => s.phase.told = false
  | _ => True

theorem InTime.blocks {s : Joined ι κ β} {a : JoinAction ι κ β} (h : s.InTime a) :
    s.BlocksInTime a := by
  cases a with
  | wait t => exact h
  | disp | setStop | loop | leave | notifyAll | ret | join | lock | spurious | unblock =>
    exact trivial

/-! ### Steps in time -/

/-- No joiner waits after `notify_all`, and whoever woke up in a `join` called in the loop did so
after the loop. -/
structure Inv (s : Joined ι κ β) : Prop where
  told : s.phase.told = true → ∀ t late, s.joiners t ≠ .waiting late
  woken : ∀ t, s.joiners t = .woken true ∨ s.joiners t = .returned true → s.phase.ended = true

theorem Inv.faithful {s : Joined ι κ β} (h : s.Inv) : s.Faithful := by
  constructor
  · rintro ⟨hphase, t, late, ht⟩
    exact h.told (by rw [hphase]; rfl) t late ht
  · rintro ⟨hphase, t, ht⟩
    rw [h.woken t (.inr ht)] at hphase
    cases hphase

theorem new_inv : Inv (new : Joined ι κ β) where
  told h := by cases h
  woken _ h := by rcases h with h | h <;> cases h

instance (s : Joined ι κ β) : (a : JoinAction ι κ β) → Decidable (s.InTime a)
  | .wait _ => inferInstanceAs (Decidable (s.phase.told = false))
  | .spurious t => inferInstanceAs (Decidable (s.joiners t = .waiting true → s.phase.ended = true))
  | .disp _ | .setStop | .loop | .leave | .notifyAll | .ret | .join _ | .lock _ | .unblock _ =>
      inferInstanceAs (Decidable True)

variable [DecidableEq κ]

/-- What a step does to the joiners: nothing, and `notify_all` has been called before it or not; or
they are notified; or one of them moves. -/
theorem step_joiners [DecidableEq ι] {s s' : Joined ι κ β} {a : JoinAction ι κ β}
    (hstep : s.step a = some s') :
    (s'.joiners = s.joiners ∧ s'.phase.told = s.phase.told ∧
      (s.phase.ended = true → s'.phase.ended = true)) ∨
    (s'.joiners = (fun t => notify (s.joiners t)) ∧ s'.phase = .notified) ∨
    ∃ t j, s'.joiners = Function.update s.joiners t j ∧ s'.phase = s.phase ∧
      (∀ late, j = .waiting late → a = .wait t) ∧
      (∀ late, j = .woken late → a = .spurious t ∧ s.joiners t = .waiting late) ∧
      ∀ late, j = .returned late → s.joiners t = .woken late := by
  cases a with
  | disp a =>
    simp only [step] at hstep
    split_ifs at hstep
    obtain ⟨d, -, rfl⟩ := Option.map_eq_some_iff.1 hstep
    exact .inl ⟨rfl, rfl, id⟩
  | setStop =>
    simp only [step] at hstep
    split_ifs at hstep with hphase
    cases hstep
    exact .inl ⟨rfl, by rw [hphase.1]; rfl, fun hs => by rw [hphase.1] at hs; cases hs⟩
  | loop =>
    simp only [step] at hstep
    split_ifs at hstep with hphase
    cases hstep
    exact .inl ⟨rfl, by rw [hphase]; rfl, fun hs => by rw [hphase] at hs; cases hs⟩
  | leave =>
    simp only [step] at hstep
    split at hstep
    · split_ifs at hstep with hphase
      cases hstep
      exact .inl ⟨rfl, by rw [hphase.1]; rfl, fun _ => rfl⟩
    · cases hstep
  | notifyAll =>
    simp only [step] at hstep
    split_ifs at hstep
    cases hstep
    exact .inr (.inl ⟨rfl, rfl⟩)
  | ret =>
    simp only [step] at hstep
    split_ifs at hstep with hphase
    cases hstep
    exact .inl ⟨rfl, by rw [hphase]; rfl, fun _ => rfl⟩
  | join t =>
    simp only [step] at hstep
    split at hstep
    · cases hstep
      exact .inr (.inr ⟨t, _, rfl, rfl, nofun, nofun, nofun⟩)
    · cases hstep
      exact .inr (.inr ⟨t, _, rfl, rfl, nofun, nofun, nofun⟩)
    · cases hstep
  | lock t =>
    simp only [step] at hstep
    split at hstep
    · split_ifs at hstep
      cases hstep
      exact .inr (.inr ⟨t, _, rfl, rfl, nofun, nofun, nofun⟩)
    · cases hstep
  | wait t =>
    simp only [step] at hstep
    split at hstep
    · cases hstep
      exact .inr (.inr ⟨t, _, rfl, rfl, fun _ _ => rfl, nofun, nofun⟩)
    · cases hstep
  | spurious t =>
    simp only [step] at hstep
    split at hstep
    · rename_i late hwaiting
      cases hstep
      refine .inr (.inr ⟨t, _, rfl, rfl, nofun, ?_, nofun⟩)
      rintro _ ⟨⟩
      exact ⟨rfl, hwaiting⟩
    · cases hstep
  | unblock t =>
    simp only [step] at hstep
    split at hstep
    · rename_i late hwoken
      split_ifs at hstep
      cases hstep
      refine .inr (.inr ⟨t, _, rfl, rfl, nofun, nofun, ?_⟩)
      rintro _ ⟨⟩
      exact hwoken
    · cases hstep

/-- Whoever blocks does so before `notify_all`, which leaves nobody waiting. -/
theorem told_step [DecidableEq ι] {s s' : Joined ι κ β} {a : JoinAction ι κ β}
    (h : s.phase.told = true → ∀ t late, s.joiners t ≠ .waiting late) (htime : s.BlocksInTime a)
    (hstep : s.step a = some s') :
    s'.phase.told = true → ∀ t late, s'.joiners t ≠ .waiting late := by
  intro htold u late hu
  rcases step_joiners hstep with ⟨hsame, hphase, -⟩ | ⟨hnotify, -⟩ | ⟨t, j, hset, hphase, hwait, -, -⟩
  · rw [hphase] at htold
    rw [hsame] at hu
    exact h htold u late hu
  · rw [hnotify] at hu
    cases hj : s.joiners u <;> simp [notify, hj] at hu
  · rw [hphase] at htold
    rw [hset] at hu
    by_cases hut : u = t
    · rw [hut, Function.update_self] at hu
      obtain rfl := hwait late hu
      have hbefore : s.phase.told = false := htime
      rw [hbefore] at htold
      cases htold
    · rw [Function.update_of_ne hut] at hu
      exact h htold u late hu

/-- Every step in time keeps the invariant. -/
theorem step_inv [DecidableEq ι] {s s' : Joined ι κ β} {a : JoinAction ι κ β} (h : s.Inv)
    (htime : s.InTime a) (hstep : s.step a = some s') : s'.Inv where
  told := told_step h.told htime.blocks hstep
  woken u hu := by
    rcases step_joiners hstep with
      ⟨hsame, -, hended⟩ | ⟨-, hphase⟩ | ⟨t, j, hset, hphase, -, hwoken, hreturned⟩
    · rw [hsame] at hu
      exact hended (h.woken u hu)
    · rw [hphase]
      rfl
    · rw [hset] at hu
      rw [hphase]
      by_cases hut : u = t
      · rw [hut, Function.update_self] at hu
        rcases hu with hu | hu
        · -- in time: a joiner of the loop does not wake by itself
          obtain ⟨rfl, hwaiting⟩ := hwoken true hu
          exact htime hwaiting
        · exact h.woken t (.inl (hreturned true hu))
      · rw [Function.update_of_ne hut] at hu
        exact h.woken u hu

/-! ### The result -/

variable [DecidableEq ι]

/-- In every run in which joiners block before `notify_all` and those of the loop do not wake by
themselves before its end, no joiner is blocked after `dispatch` has returned and none that called
`join` in the loop returns before its end. -/
theorem joined_in_time {s : Joined ι κ β}
    (h : ((system ι κ β).restrict InTime).Reachable s) : s.Faithful := by
  refine (h.invariant (I := Inv) ?_ ?_).faithful
  · rintro _ rfl
    exact new_inv
  · rintro t a t' ht ⟨htime, hstep⟩
    exact step_inv ht htime hstep

/-- One step in time. -/
def stepInTime (s : Joined ι κ β) (a : JoinAction ι κ β) : Option (Joined ι κ β) :=
  if s.InTime a then s.step a else none

/-- A list of actions that can be replayed in time is a run in time. -/
theorem run_in_time {s : Joined ι κ β} {as : List (JoinAction ι κ β)}
    (h : as.foldlM stepInTime new = some s) : ((system ι κ β).restrict InTime).Reachable s := by
  refine ⟨new, as, rfl, LTS.Run.of_foldlM (fun t a t' ht => ?_) h⟩
  unfold stepInTime at ht
  split_ifs at ht with htime
  exact ⟨htime, ht⟩

/-- Two joiners, one before the loop and one in it, and a `stop`. -/
def sampleActions : List (JoinAction Unit Bool Unit) :=
  [.join false, .lock false, .wait false, .setStop, .loop, .join true, .lock true, .wait true,
    .spurious false, .disp (.post () .loopbreak), .disp (.signal ()), .disp .enter, .disp .take,
    .disp .call, .disp .pop, .disp .leave, .leave, .notifyAll, .unblock true, .unblock false, .ret]

theorem joined_in_time_sample :
    ∃ s : Joined Unit Bool Unit, s.phase = .returned ∧ s.joiners true = .returned true ∧
      s.Faithful := by
  obtain ⟨s, hs, hphase, hjoined⟩ : ∃ s : Joined Unit Bool Unit,
      sampleActions.foldlM stepInTime new = some s ∧ s.phase = .returned ∧
        s.joiners true = .returned true := ⟨_, rfl, rfl, rfl⟩
  exact ⟨s, hphase, hjoined, joined_in_time (run_in_time hs)⟩

/-! ### Steps that are not in time -/

/-- A joiner that blocks after `notify_all` is stranded when `dispatch` has returned. -/
theorem wait_strands {s s' : Joined ι κ β} {t : κ} (htold : s.phase.told = true)
    (hstep : s.step (.wait t) = some s') :
    ∃ as s'', (system ι κ β).Run s' as s'' ∧ s''.Stranded := by
  simp only [step] at hstep
  split at hstep
  · rename_i late _
    cases hstep
    cases hphase : s.phase with
    | outside | ready | looping | left =>
      rw [hphase] at htold
      cases htold
    | notified =>
      refine ⟨[.ret], { s.setJoiner t (.waiting late) with mu := none, phase := .returned },
        .cons (if_pos hphase) (.nil _), rfl, t, late, ?_⟩
      exact Function.update_self ..
    | returned => exact ⟨[], _, .nil _, hphase, t, late, Function.update_self ..⟩
  · cases hstep

/-- A joiner of the loop that wakes by itself before its end can return at once, if `mu_` is free. -/
theorem spurious_returns {s s' : Joined ι κ β} {t : κ} (hwaiting : s.joiners t = .waiting true)
    (hphase : s.phase.ended = false) (hmu : s.mu = none)
    (hstep : s.step (.spurious t) = some s') :
    ∃ as s'', (system ι κ β).Run s' as s'' ∧ s''.Early := by
  simp only [step, hwaiting, Option.some.injEq] at hstep
  subst hstep
  have hwoken : (s.setJoiner t (.woken true)).joiners t = .woken true := Function.update_self ..
  refine ⟨[.unblock t], (s.setJoiner t (.woken true)).setJoiner t (.returned true),
    .cons ?_ (.nil _), hphase, t, Function.update_self ..⟩
  simp only [system, step, hwoken]
  exact if_pos hmu

/-- A `join` after `dispatch` has returned, and a spurious wake-up in the loop. -/
theorem joins_fail :
    (∃ s : Joined Unit Unit Unit, (system Unit Unit Unit).Reachable s ∧ s.Stranded) ∧
      ∃ s : Joined Unit Unit Unit, (system Unit Unit Unit).Reachable s ∧ s.Early := by
  have hrun : ∀ (as : List (JoinAction Unit Unit Unit)) (s : Joined Unit Unit Unit),
      as.foldlM step new = some s → (system Unit Unit Unit).Reachable s :=
    fun as s h => ⟨new, as, rfl, LTS.Run.of_foldlM (fun _ _ _ ht => ht) h⟩
  constructor
  · exact ⟨_, hrun [.setStop, .loop, .disp (.post () .loopbreak), .disp (.signal ()), .disp .enter,
      .disp .take, .disp .call, .disp .pop, .disp .leave, .leave, .notifyAll, .ret, .join (),
      .lock (), .wait ()] _ rfl, rfl, (), true, rfl⟩
  · exact ⟨_, hrun [.setStop, .loop, .join (), .lock (), .wait (), .spurious (), .unblock ()] _ rfl,
      rfl, (), rfl⟩

end Joined
end Dispatcher
end NetService
