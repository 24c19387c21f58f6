import NetService.Lib.LTS

/-!
# `tl::Dispatcher`: `post` and `timerCB`

The threads that call `post` and the loop thread, with the locked parts of `post` and `timerCB`
as single steps.  Of libevent the model uses two things: `event_active` marks `ev_timer_` active,
and the loop clears the mark when it enters `timerCB`.

Threads are indexed by any type, so that a callback of another event that posts from the loop
thread is one of them; the callbacks run by `timerCB` post through `loopPost`.

`posted` and `executed` are histories.  A callback counts as executed from its call on.
-/

namespace NetService
namespace Dispatcher

/-- Where a thread is in `post`. -/
inductive Poster
  | outside
  /-- after the unlock, before `if (do_post)` -/
  | pushed (doPost : Bool)
deriving DecidableEq

/-- Where the loop thread is. -/
inductive LoopState (α : Type*)
  /-- in `event_base_loop` -/
  | polling
  /-- in `timerCB`, before it takes `mu_` -/
  | entered
  /-- at `while (!cbs.empty())` -/
  | batch (cbs : List α)
  /-- in `cbs.front()()`, with the callbacks behind it and where that call is in `post` -/
  | calling (rest : List α) (poster : Poster)

/-- The callbacks of the batch that have not been called. -/
def LoopState.rest {α : Type*} : LoopState α → List α
  | polling | entered => []
  | batch cbs => cbs
  | calling rest _ => rest

end Dispatcher

open Dispatcher in
/-- The dispatcher and its threads. -/
structure Dispatcher (ι α : Type*) where
  postCallbacks : List α
  active : Bool
  threads : ι → Poster
  loop : LoopState α
  posted : List α
  executed : List α

namespace Dispatcher

variable {ι α : Type*}

/-- The dispatcher after its constructor. -/
def new : Dispatcher ι α where
  postCallbacks := []
  active := false
  threads _ := .outside
  loop := .polling
  posted := []
  executed := []

/-- The locked part of `post`, without the poster. -/
def push (d : Dispatcher ι α) (f : α) : Dispatcher ι α :=
  { d with postCallbacks := d.postCallbacks ++ [f], posted := d.posted ++ [f] }

/-- `do_post`, as the poster that pushes next computes it. -/
def doPost (d : Dispatcher ι α) : Bool := d.postCallbacks.isEmpty

/-- `if (do_post) event_active(ev_timer_, 0, 0)` -/
def signal (d : Dispatcher ι α) (doPost : Bool) : Dispatcher ι α :=
  { d with active := d.active || doPost }

/-- What the threads can do next. -/
inductive Action (ι α : Type*)
  /-- a thread pushes a callback under `mu_` -/
  | post (i : ι) (f : α)
  /-- a thread leaves `post` -/
  | signal (i : ι)
  /-- the callback being run pushes a callback under `mu_` -/
  | loopPost (f : α)
  /-- the callback being run leaves `post` -/
  | loopSignal
  /-- the loop clears the mark and enters `timerCB` -/
  | enter
  /-- `timerCB` moves `post_callbacks_` into `cbs` under `mu_` -/
  | take
  /-- `cbs.front()()` starts -/
  | call
  /-- the callback returns and is popped -/
  | pop
  /-- `timerCB` returns -/
  | leave

/-- One step. -/
def step [DecidableEq ι] (d : Dispatcher ι α) : Action ι α → Option (Dispatcher ι α)
  | .post i f =>
    match d.threads i with
    | .outside =>
      some { d.push f with threads := Function.update d.threads i (.pushed d.doPost) }
    | .pushed _ => none
  | .signal i =>
    match d.threads i with
    | .pushed b => some { d.signal b with threads := Function.update d.threads i .outside }
    | .outside => none
  | .loopPost f =>
    match d.loop with
    | .calling rest .outside => some { d.push f with loop := .calling rest (.pushed d.doPost) }
    | _ => none
  | .loopSignal =>
    match d.loop with
    | .calling rest (.pushed b) => some { d.signal b with loop := .calling rest .outside }
    | _ => none
  | .enter =>
    match d.loop with
    | .polling => if d.active then some { d with active := false, loop := .entered } else none
    | _ => none
  | .take =>
    match d.loop with
    | .entered => some { d with postCallbacks := [], loop := .batch d.postCallbacks }
    | _ => none
  | .call =>
    match d.loop with
    | .batch (f :: rest) =>
      some { d with loop := .calling rest .outside, executed := d.executed ++ [f] }
    | _ => none
  | .pop =>
    match d.loop with
    | .calling rest .outside => some { d with loop := .batch rest }
    | _ => none
  | .leave =>
    match d.loop with
    | .batch [] => some { d with loop := .polling }
    | _ => none

/-- The dispatcher with callers `ι`, from its construction on. -/
def system (ι α : Type*) [DecidableEq ι] : LTS (Dispatcher ι α) (Action ι α) where
  init d := d = new
  step d a d' := d.step a = some d'

end Dispatcher
end NetService
