import NetService.Dispatcher.Model

/-!
# `post` delivers every callback once, in order, and wakes the loop

Two invariants.  `InOrder`: what has been executed, what is left of the batch and what is queued,
put one after the other, are the posted callbacks in the order of their pushes.  `Awaited`: a
non-empty queue has somebody who will see to it.

Only the poster that found the queue empty activates the event, after its unlock; while it is on
its way the queue stays non-empty, so it is the one `Awaited` names until it has activated the
event or the loop has taken the queue.
-/

namespace NetService
namespace Dispatcher

variable {ι α : Type*}

/-- The callbacks executed, left in the batch and queued are those posted. -/
def InOrder (d : Dispatcher ι α) : Prop :=
  d.executed ++ d.loop.rest ++ d.postCallbacks = d.posted

/-- Some poster saw the queue empty and has not yet called `event_active`. -/
def Owed (d : Dispatcher ι α) : Prop :=
  (∃ i, d.threads i = .pushed true) ∨ ∃ rest, d.loop = .calling rest (.pushed true)

/-- A non-empty queue is on its way to be taken. -/
def Awaited (d : Dispatcher ι α) : Prop :=
  d.postCallbacks ≠ [] → d.active = true ∨ d.loop = .entered ∨ d.Owed

variable [DecidableEq ι]

/-- A push by thread `i` is seen by `i` itself if the queue was empty, and by whom it was before
otherwise. -/
theorem awaited_post {d : Dispatcher ι α} (hd : d.Awaited) {i : ι} {f : α}
    (hi : d.threads i = .outside) :
    Awaited { d.push f with threads := Function.update d.threads i (.pushed d.doPost) } := by
  intro _
  by_cases hempty : d.postCallbacks = []
  · have hdo : d.doPost = true := by simp [doPost, hempty]
    exact .inr (.inr (.inl ⟨i, by simp [hdo]⟩))
  · rcases hd hempty with hactive | hentered | ⟨j, hj⟩ | hloop
    · exact .inl hactive
    · exact .inr (.inl hentered)
    · have hne : j ≠ i := by
        rintro rfl
        rw [hi] at hj
        cases hj
      exact .inr (.inr (.inl ⟨j, by simpa [hne] using hj⟩))
    · exact .inr (.inr (.inr hloop))

/-- A thread that leaves `post` has activated the event, or was not the one waited for. -/
theorem awaited_signal {d : Dispatcher ι α} (hd : d.Awaited) {i : ι} {b : Bool}
    (hi : d.threads i = .pushed b) :
    Awaited { d.signal b with threads := Function.update d.threads i .outside } := by
  intro hne
  cases b with
  | true => exact .inl (by simp [signal])
  | false =>
    rcases hd hne with hactive | hentered | ⟨j, hj⟩ | hloop
    · exact .inl (by simp [signal, hactive])
    · exact .inr (.inl hentered)
    · have hji : j ≠ i := by
        rintro rfl
        rw [hi] at hj
        cases hj
      exact .inr (.inr (.inl ⟨j, by simpa [hji] using hj⟩))
    · exact .inr (.inr (.inr hloop))

omit [DecidableEq ι] in
/-- The loop thread may move, outside `timerCB`'s entry and outside `post`, as it likes. -/
theorem awaited_loop {d : Dispatcher ι α} (hd : d.Awaited) {l : LoopState α} {ex : List α}
    (hentered : d.loop ≠ .entered) (howes : ∀ rest, d.loop ≠ .calling rest (.pushed true)) :
    Awaited { d with loop := l, executed := ex } := by
  intro hne
  rcases hd hne with hactive | hloop | hthread | ⟨rest, hrest⟩
  · exact .inl hactive
  · exact absurd hloop hentered
  · exact .inr (.inr (.inl hthread))
  · exact absurd hrest (howes rest)

omit [DecidableEq ι] in
/-- A push from a callback, as `awaited_post`. -/
theorem awaited_loopPost {d : Dispatcher ι α} (hd : d.Awaited) {rest : List α} {f : α}
    (hloop : d.loop = .calling rest .outside) :
    Awaited { d.push f with loop := .calling rest (.pushed d.doPost) } := by
  intro _
  by_cases hempty : d.postCallbacks = []
  · have hdo : d.doPost = true := by simp [doPost, hempty]
    exact .inr (.inr (.inr ⟨rest, by simp [hdo]⟩))
  · rcases hd hempty with hactive | hentered | hthread | ⟨rest', hrest⟩
    · exact .inl hactive
    · rw [hloop] at hentered
      cases hentered
    · exact .inr (.inr (.inl hthread))
    · rw [hloop] at hrest
      cases hrest

omit [DecidableEq ι] in
/-- The end of a push from a callback, as `awaited_signal`. -/
theorem awaited_loopSignal {d : Dispatcher ι α} (hd : d.Awaited) {rest : List α} {b : Bool}
    (hloop : d.loop = .calling rest (.pushed b)) :
    Awaited { d.signal b with loop := .calling rest .outside } := by
  intro hne
  cases b with
  | true => exact .inl (by simp [signal])
  | false =>
    rcases hd hne with hactive | hentered | hthread | ⟨rest', hrest⟩
    · exact .inl (by simp [signal, hactive])
    · rw [hloop] at hentered
      cases hentered
    · exact .inr (.inr (.inl hthread))
    · rw [hloop] at hrest
      cases hrest

/-- Every step keeps both invariants. -/
theorem step_inv {d d' : Dispatcher ι α} {a : Action ι α} (horder : d.InOrder) (hd : d.Awaited)
    (h : d.step a = some d') : d'.InOrder ∧ d'.Awaited := by
  unfold InOrder at *
  cases a with
  | post i f =>
    simp only [step] at h
    split at h
    · rename_i hi
      cases h
      exact ⟨by simp [push, ← horder], awaited_post hd hi⟩
    · cases h
  | signal i =>
    simp only [step] at h
    split at h
    · rename_i b hi
      cases h
      exact ⟨horder, awaited_signal hd hi⟩
    · cases h
  | loopPost f =>
    simp only [step] at h
    split at h
    · rename_i rest hloop
      cases h
      rw [hloop] at horder
      exact ⟨by simp [push, ← horder, LoopState.rest], awaited_loopPost hd hloop⟩
    · cases h
  | loopSignal =>
    simp only [step] at h
    split at h
    · rename_i rest b hloop
      cases h
      rw [hloop] at horder
      exact ⟨horder, awaited_loopSignal hd hloop⟩
    · cases h
  | enter =>
    simp only [step] at h
    split at h
    · rename_i hloop
      obtain ⟨-, heq⟩ := Option.ite_none_right_eq_some.1 h
      cases heq
      rw [hloop] at horder
      exact ⟨horder, fun _ => .inr (.inl rfl)⟩
    · cases h
  | take =>
    simp only [step] at h
    split at h
    · rename_i hloop
      cases h
      rw [hloop] at horder
      exact ⟨by simpa [LoopState.rest] using horder, fun hne => absurd rfl hne⟩
    · cases h
  | call =>
    simp only [step] at h
    split at h
    · rename_i f rest hloop
      cases h
      rw [hloop] at horder
      refine ⟨by simpa [LoopState.rest] using horder, awaited_loop hd ?_ fun _ => ?_⟩ <;>
        simp [hloop]
    · cases h
  | pop =>
    simp only [step] at h
    split at h
    · rename_i rest hloop
      cases h
      rw [hloop] at horder
      refine ⟨horder, awaited_loop hd ?_ fun _ => ?_⟩ <;> simp [hloop]
    · cases h
  | leave =>
    simp only [step] at h
    split at h
    · rename_i hloop
      cases h
      rw [hloop] at horder
      refine ⟨horder, awaited_loop hd ?_ fun _ => ?_⟩ <;> simp [hloop]
    · cases h

/-- In every reachable state the callbacks executed, followed by the rest of the batch and by
`post_callbacks_`, are those posted, in the order of their pushes; and if `post_callbacks_` is not
empty, `ev_timer_` is active, or `timerCB` has been entered and has not taken the queue, or a
poster that saw the queue empty has still to call `event_active`. -/
theorem posts_delivered_in_order (ι α : Type*) [DecidableEq ι] {d : Dispatcher ι α}
    (h : (system ι α).Reachable d) :
    d.executed ++ d.loop.rest ++ d.postCallbacks = d.posted ∧
    (d.postCallbacks ≠ [] →
      d.active = true ∨ d.loop = .entered ∨ (∃ i, d.threads i = .pushed true) ∨
        ∃ rest, d.loop = .calling rest (.pushed true)) := by
  have hinv : d.InOrder ∧ d.Awaited := by
    refine h.invariant (I := fun d => d.InOrder ∧ d.Awaited) ?_ fun d a d' hd hstep =>
      step_inv hd.1 hd.2 hstep
    rintro _ rfl
    exact ⟨rfl, fun hne => absurd rfl hne⟩
  exact hinv

/-- Two threads post; the second finds the queue non-empty and activates nothing. -/
def sampleRun : List (Action (Fin 2) ℕ) := [.post 0 7, .post 1 8, .signal 1]

theorem posts_delivered_in_order_sample :
    ∃ d : Dispatcher (Fin 2) ℕ, (system (Fin 2) ℕ).Reachable d ∧ d.active = false ∧
      d.posted = [7, 8] ∧
      (d.active = true ∨ d.loop = .entered ∨ (∃ i, d.threads i = .pushed true) ∨
        ∃ rest, d.loop = .calling rest (.pushed true)) := by
  have hreach : (system (Fin 2) ℕ).Reachable ((sampleRun.foldlM step new).getD new) :=
    ⟨new, sampleRun, rfl, .of_foldlM (fun _ _ _ hstep => hstep) rfl⟩
  exact ⟨_, hreach, rfl, rfl, (posts_delivered_in_order (Fin 2) ℕ hreach).2 (by decide)⟩

end Dispatcher
end NetService
