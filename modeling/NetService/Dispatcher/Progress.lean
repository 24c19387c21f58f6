import NetService.Dispatcher.Post
import NetService.Lib.Ranking
import NetService.Lib.Tally

/-!
# Every posted callback is executed

The loop and the posters come to rest by themselves: only a push has a price, and a run is at most
as long as the prices of its pushes.  At rest, `Awaited` leaves nothing in the queue.
-/

namespace NetService
namespace Dispatcher

open Tally

variable {ι α : Type*}

/-- What a thread in `post` has still to do; activating the event makes the loop go round once. -/
def Poster.rank : Poster → ℕ
  | .outside => 0
  | .pushed b => 1 + 3 * b.toNat

/-- The steps of the loop thread: a call and a return for each callback of the batch. -/
def LoopState.rank : LoopState α → ℕ
  | .polling => 0
  | .entered => 2
  | .batch cbs => 2 * cbs.length + 1
  | .calling rest poster => 2 * rest.length + 2 + poster.rank

def rank [Fintype ι] (d : Dispatcher ι α) : ℕ :=
  2 * d.postCallbacks.length + 3 * d.active.toNat + tally Poster.rank d.threads + d.loop.rank

/-- The prices: only a push gives work to the loop. -/
def Action.cost : Action ι α → ℕ
  | .post _ _ | .loopPost _ => 7
  | _ => 0

theorem rank_new [Fintype ι] : (new : Dispatcher ι α).rank = 0 := by
  have htally : tally Poster.rank (new : Dispatcher ι α).threads = 0 := tally_eq_zero fun _ => rfl
  unfold rank
  rw [htally]
  rfl

/-- Activating an event twice is activating it once. -/
theorem toNat_or_le (a b : Bool) : (a || b).toNat ≤ a.toNat + b.toNat := by
  cases a <;> cases b <;> decide

variable [DecidableEq ι] [Fintype ι]

theorem ranked : (system ι α).Ranked rank Action.cost := by
  intro d a d' h
  replace h : d.step a = some d' := h
  cases a with
  | post i f =>
    simp only [step] at h
    split at h
    · rename_i hi
      cases h
      have htally := tally_update Poster.rank d.threads i (.pushed d.doPost)
      rw [hi] at htally
      have hle := d.doPost.toNat_le
      simp only [Poster.rank] at htally
      simp only [rank, push, List.length_append, List.length_singleton, Action.cost]
      omega
    · cases h
  | signal i =>
    simp only [step] at h
    split at h
    · rename_i b hi
      cases h
      have htally := tally_update Poster.rank d.threads i .outside
      have hactive := toNat_or_le d.active b
      rw [hi] at htally
      simp only [Poster.rank] at htally
      simp only [rank, signal, Action.cost]
      omega
    · cases h
  | loopPost f =>
    simp only [step] at h
    split at h
    · rename_i rest hloop
      cases h
      have hle := d.doPost.toNat_le
      simp only [rank, push, hloop, LoopState.rank, List.length_append,
        List.length_singleton, Action.cost, Poster.rank]
      omega
    · cases h
  | loopSignal =>
    simp only [step] at h
    split at h
    · rename_i rest b hloop
      cases h
      have hactive := toNat_or_le d.active b
      simp only [rank, signal, hloop, LoopState.rank, Action.cost, Poster.rank]
      omega
    · cases h
  | enter =>
    simp only [step] at h
    split at h
    · rename_i hloop
      obtain ⟨hactive, heq⟩ := Option.ite_none_right_eq_some.1 h
      cases heq
      simp only [rank, hloop, hactive, LoopState.rank, Action.cost, Bool.toNat_true, Bool.toNat_false]
      omega
    · cases h
  | take =>
    simp only [step] at h
    split at h
    · rename_i hloop
      cases h
      simp only [rank, hloop, LoopState.rank, Action.cost, List.length_nil]
      omega
    · cases h
  | call =>
    simp only [step] at h
    split at h
    · rename_i f rest hloop
      cases h
      simp only [rank, hloop, LoopState.rank, Poster.rank, Action.cost, List.length_cons]
      omega
    · cases h
  | pop =>
    simp only [step] at h
    split at h
    · rename_i rest hloop
      cases h
      simp only [rank, hloop, LoopState.rank, Poster.rank, Action.cost]
      omega
    · cases h
  | leave =>
    simp only [step] at h
    split at h
    · rename_i hloop
      cases h
      simp only [rank, hloop, LoopState.rank, Action.cost, List.length_nil]
      omega
    · cases h

omit [Fintype ι] in
/-- At rest the loop waits for an event, none is active, and no thread is in `post`. -/
theorem idle_of_rest {d : Dispatcher ι α} (hrest : (system ι α).AtRest Action.cost d) :
    d.loop = .polling ∧ d.active = false ∧ ∀ i, d.threads i = .outside := by
  have hpolling : d.loop = .polling := by
    cases hloop : d.loop with
    | polling => rfl
    | entered =>
      cases hrest .take { d with postCallbacks := [], loop := .batch d.postCallbacks }
        (by simp only [system, step, hloop])
    | batch cbs =>
      cases cbs with
      | nil => cases hrest .leave { d with loop := .polling } (by simp only [system, step, hloop])
      | cons f rest =>
        cases hrest .call { d with loop := .calling rest .outside, executed := d.executed ++ [f] }
          (by simp only [system, step, hloop])
    | calling rest poster =>
      cases poster with
      | outside => cases hrest .pop { d with loop := .batch rest } (by simp only [system, step, hloop])
      | pushed b =>
        cases hrest .loopSignal { d.signal b with loop := .calling rest .outside }
          (by simp only [system, step, hloop])
  refine ⟨hpolling, ?_, fun i => ?_⟩
  · cases hactive : d.active with
    | false => rfl
    | true =>
      cases hrest .enter { d with active := false, loop := .entered }
        (by simp only [system, step, hpolling, hactive, if_true])
  · cases hi : d.threads i with
    | outside => rfl
    | pushed b =>
      cases hrest (.signal i) { d.signal b with threads := Function.update d.threads i .outside }
        (by simp only [system, step, hi])

omit [Fintype ι] in
theorem executed_of_rest {d : Dispatcher ι α} (horder : d.InOrder) (hd : d.Awaited)
    (hrest : (system ι α).AtRest Action.cost d) : d.executed = d.posted := by
  obtain ⟨hloop, hactive, hthreads⟩ := idle_of_rest hrest
  have hempty : d.postCallbacks = [] := by
    by_contra hne
    rcases hd hne with hact | hentered | ⟨i, hi⟩ | ⟨rest, hcalling⟩
    · rw [hactive] at hact
      cases hact
    · rw [hloop] at hentered
      cases hentered
    · rw [hthreads i] at hi
      cases hi
    · rw [hloop] at hcalling
      cases hcalling
  unfold InOrder at horder
  rw [hloop, hempty, LoopState.rest, List.append_nil, List.append_nil] at horder
  exact horder

/-- A run takes at most seven steps for each push, by threads or by callbacks.  When nothing but a new
push can happen, exactly the posted callbacks have been executed, in order; and the dispatcher gets
there from every state. -/
theorem every_callback_executed {acts : List (Action ι α)} {d : Dispatcher ι α}
    (h : (system ι α).Run new acts d) :
    acts.length ≤ (acts.map Action.cost).sum ∧
    ((system ι α).AtRest Action.cost d → d.executed = d.posted) ∧
    ∃ more d', (system ι α).Run d more d' ∧ (∀ a ∈ more, a.cost = 0) ∧
      (system ι α).AtRest Action.cost d' := by
  have hinv : d.InOrder ∧ d.Awaited :=
    h.invariant (I := fun d => d.InOrder ∧ d.Awaited) (fun d a d' hd hstep =>
      step_inv hd.1 hd.2 hstep) ⟨rfl, fun hne => absurd rfl hne⟩
  refine ⟨?_, executed_of_rest hinv.1 hinv.2, ranked.rests d⟩
  have hlen := ranked.length_le h
  rw [rank_new] at hlen
  omega

theorem every_callback_executed_sample :
    ∃ d : Dispatcher (Fin 2) ℕ, (system (Fin 2) ℕ).Run new sampleRun d ∧ sampleRun.length ≤ 14 ∧
      ((system (Fin 2) ℕ).AtRest Action.cost d → d.executed = d.posted) := by
  have hrun : (system (Fin 2) ℕ).Run new sampleRun ((sampleRun.foldlM step new).getD new) :=
    .of_foldlM (fun _ _ _ hstep => hstep) rfl
  obtain ⟨hlen, hrest, -⟩ := every_callback_executed hrun
  exact ⟨_, hrun, hlen, hrest⟩

end Dispatcher
end NetService
