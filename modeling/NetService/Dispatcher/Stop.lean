import NetService.Dispatcher.Join
import NetService.Dispatcher.Progress

/-!
# `stop` ends `dispatch`

The dispatcher with its joiners comes to rest by itself as well.  At rest the loop has executed all
callbacks; if `stop` was among them, it has been left, and `dispatch` has notified the joiners and
returned.  A joiner that blocked before that has returned too, also where some wake by themselves.
-/

namespace NetService
namespace Dispatcher
namespace Joined

open Tally

variable {ι κ β : Type*}

/-! ### The rank -/

/-- The steps a joiner can take before it is blocked or has returned. -/
def joinerRank : Joiner → ℕ
  | .outside | .waiting _ | .returned _ => 0
  | .called _ => 2
  | .locked _ | .woken _ => 1

/-- The steps of `dispatch`, which wakes at most `k` joiners. -/
def phaseRank (k : ℕ) : Phase → ℕ
  | .outside | .ready => k + 4
  | .looping => k + 3
  | .left => k + 2
  | .notified => 1
  | .returned => 0

def rank [Fintype ι] [Fintype κ] (s : Joined ι κ β) : ℕ :=
  s.disp.rank + phaseRank (Fintype.card κ) s.phase + tally joinerRank s.joiners

/-- The prices: pushes, calls of `dispatch` and `join`, and spurious wake-ups. -/
def cost : JoinAction ι κ β → ℕ
  | .disp a => a.cost
  | .setStop => 1
  | .join _ => 3
  | .spurious _ => 2
  | _ => 0

theorem rank_new [Fintype ι] [Fintype κ] :
    (new : Joined ι κ β).rank = Fintype.card κ + 4 := by
  have htally : tally joinerRank (new : Joined ι κ β).joiners = 0 := tally_eq_zero fun _ => rfl
  unfold rank
  rw [htally]
  show Dispatcher.rank (Dispatcher.new : Dispatcher ι (Callback β)) + (Fintype.card κ + 4) + 0 = _
  rw [Dispatcher.rank_new, Nat.zero_add, Nat.add_zero]

/-- `notify_all` gives every joiner at most one more step. -/
theorem tally_notify [Fintype κ] (g : κ → Joiner) :
    tally joinerRank (fun t => notify (g t)) ≤ tally joinerRank g + Fintype.card κ := by
  have hone : ∀ t, joinerRank (notify (g t)) ≤ joinerRank (g t) + 1 := by
    intro t
    cases g t <;> simp [notify, joinerRank]
  refine (Finset.sum_le_sum fun t _ => hone t).trans ?_
  rw [Finset.sum_add_distrib, Finset.sum_const, Finset.card_univ, smul_eq_mul, mul_one]
  rfl

section
variable [DecidableEq ι] [DecidableEq κ] [Fintype ι] [Fintype κ]

omit [DecidableEq ι] in
theorem rank_setJoiner (s : Joined ι κ β) (t : κ) (j : Joiner) :
    (s.setJoiner t j).rank + joinerRank (s.joiners t) = s.rank + joinerRank j := by
  have htally := tally_update joinerRank s.joiners t j
  show s.disp.rank + phaseRank (Fintype.card κ) s.phase +
    tally joinerRank (Function.update s.joiners t j) + joinerRank (s.joiners t) = _
  unfold rank
  omega

theorem ranked : (system ι κ β).Ranked rank cost := by
  intro s a s' h
  replace h : s.step a = some s' := h
  cases a with
  | disp a =>
    simp only [step] at h
    split_ifs at h
    obtain ⟨d, hd, rfl⟩ := Option.map_eq_some_iff.1 h
    have hpays := Dispatcher.ranked s.disp a d hd
    show d.rank + phaseRank (Fintype.card κ) s.phase + tally joinerRank s.joiners + 1 ≤
      s.disp.rank + phaseRank (Fintype.card κ) s.phase + tally joinerRank s.joiners + a.cost
    omega
  | setStop =>
    simp only [step] at h
    split_ifs at h with hphase
    cases h
    simp only [rank, hphase.1, phaseRank, cost]
    omega
  | loop =>
    simp only [step] at h
    split_ifs at h with hphase
    cases h
    simp only [rank, hphase, phaseRank, cost]
    omega
  | leave =>
    simp only [step] at h
    split at h
    · split_ifs at h with hphase
      cases h
      simp only [rank, hphase.1, phaseRank, cost]
      omega
    · cases h
  | notifyAll =>
    simp only [step] at h
    split_ifs at h with hphase
    cases h
    have hnotify := tally_notify s.joiners
    simp only [rank, hphase, phaseRank, cost]
    omega
  | ret =>
    simp only [step] at h
    split_ifs at h with hphase
    cases h
    simp only [rank, hphase, phaseRank, cost]
    omega
  | join t =>
    have hset := rank_setJoiner s t (.called s.phase.entered)
    simp only [step] at h
    split at h
    · rename_i ht
      cases h
      rw [ht] at hset
      simp only [joinerRank] at hset
      show _ ≤ s.rank + 3
      omega
    · rename_i ht
      cases h
      rw [ht] at hset
      simp only [joinerRank] at hset
      show _ ≤ s.rank + 3
      omega
    · cases h
  | lock t =>
    simp only [step] at h
    split at h
    · rename_i late ht
      split_ifs at h
      cases h
      have hset := rank_setJoiner s t (.locked late)
      rw [ht] at hset
      simp only [joinerRank] at hset
      show (s.setJoiner t (.locked late)).rank + 1 ≤ s.rank + 0
      omega
    · cases h
  | wait t =>
    simp only [step] at h
    split at h
    · rename_i late ht
      cases h
      have hset := rank_setJoiner s t (.waiting late)
      rw [ht] at hset
      simp only [joinerRank] at hset
      show (s.setJoiner t (.waiting late)).rank + 1 ≤ s.rank + 0
      omega
    · cases h
  | spurious t =>
    simp only [step] at h
    split at h
    · rename_i late ht
      cases h
      have hset := rank_setJoiner s t (.woken late)
      rw [ht] at hset
      simp only [joinerRank] at hset
      show _ ≤ s.rank + 2
      omega
    · cases h
  | unblock t =>
    simp only [step] at h
    split at h
    · rename_i late ht
      split_ifs at h
      cases h
      have hset := rank_setJoiner s t (.returned late)
      rw [ht] at hset
      simp only [joinerRank] at hset
      show _ ≤ s.rank + 0
      omega
    · cases h

end

/-! ### The state at rest -/

section
variable [DecidableEq ι] [DecidableEq κ]

/-- The dispatcher's own invariants; `mu_` is held by a joiner that is about to wait; and the loop has
been broken by the callback of `stop`. -/
structure Sound (s : Joined ι κ β) : Prop where
  order : s.disp.InOrder
  awaited : s.disp.Awaited
  mu : ∀ t, s.mu = some t → ∃ late, s.joiners t = .locked late
  broken : .loopbreak ∈ s.disp.executed → s.broken = true

omit [DecidableEq ι] [DecidableEq κ] in
theorem new_sound : (new : Joined ι κ β).Sound where
  order := rfl
  awaited hne := absurd rfl hne
  mu t ht := by cases ht
  broken hmem := by cases hmem

omit [DecidableEq κ] in
/-- A step executes the callback in front of the batch, or none. -/
theorem step_executed {α : Type*} {d d' : Dispatcher ι α} {a : Action ι α} (h : d.step a = some d') :
    d'.executed = d.executed ∨
      ∃ f rest, a = .call ∧ d.loop = .batch (f :: rest) ∧ d'.executed = d.executed ++ [f] := by
  cases a with
  | call =>
    simp only [Dispatcher.step] at h
    split at h
    · rename_i f rest hloop
      cases h
      exact .inr ⟨f, rest, rfl, hloop, rfl⟩
    · cases h
  | enter =>
    simp only [Dispatcher.step] at h
    split at h
    · obtain ⟨-, heq⟩ := Option.ite_none_right_eq_some.1 h
      cases heq
      exact .inl rfl
    · cases h
  | post | signal | loopPost | loopSignal | take | pop | leave =>
    simp only [Dispatcher.step] at h
    split at h
    · cases h
      exact .inl rfl
    · cases h

omit [DecidableEq ι] in
/-- A joiner that does not hold `mu_` moves. -/
theorem Sound.setJoiner {s : Joined ι κ β} (hs : s.Sound) {t : κ} (j : Joiner)
    (hfree : ∀ late, s.joiners t ≠ .locked late) : (s.setJoiner t j).Sound := by
  refine ⟨hs.order, hs.awaited, fun u hu => ?_, hs.broken⟩
  obtain ⟨late, hlate⟩ := hs.mu u hu
  have hne : u ≠ t := by
    rintro rfl
    exact hfree late hlate
  exact ⟨late, by simp [Joined.setJoiner, hne, hlate]⟩

theorem Sound.step {s s' : Joined ι κ β} {a : JoinAction ι κ β} (hs : s.Sound)
    (h : s.step a = some s') : s'.Sound := by
  cases a with
  | disp a =>
    simp only [Joined.step] at h
    split_ifs at h
    obtain ⟨d, hd, rfl⟩ := Option.map_eq_some_iff.1 h
    obtain ⟨horder, hawaited⟩ := Dispatcher.step_inv hs.order hs.awaited hd
    refine ⟨horder, hawaited, hs.mu, fun hmem => ?_⟩
    show (s.broken || breaks s.disp a) = true
    rcases step_executed hd with heq | ⟨f, rest, rfl, hloop, heq⟩
    · rw [hs.broken (by rwa [← heq]), Bool.true_or]
    · have hmem' : .loopbreak ∈ s.disp.executed ++ [f] := by rwa [← heq]
      rcases List.mem_append.1 hmem' with hold | hnew
      · rw [hs.broken hold, Bool.true_or]
      · obtain rfl := List.mem_singleton.1 hnew
        simp [breaks, hloop]
  | setStop | loop | ret =>
    simp only [Joined.step] at h
    split_ifs at h
    cases h
    exact ⟨hs.order, hs.awaited, hs.mu, hs.broken⟩
  | leave =>
    simp only [Joined.step] at h
    split at h
    · split_ifs at h
      cases h
      exact ⟨hs.order, hs.awaited, hs.mu, hs.broken⟩
    · cases h
  | notifyAll =>
    simp only [Joined.step] at h
    split_ifs at h
    cases h
    refine ⟨hs.order, hs.awaited, fun t ht => ?_, hs.broken⟩
    obtain ⟨late, hlate⟩ := hs.mu t ht
    exact ⟨late, by simp [hlate, notify]⟩
  | lock t =>
    simp only [Joined.step] at h
    split at h
    · rename_i late ht
      split_ifs at h
      cases h
      refine ⟨hs.order, hs.awaited, fun u hu => ?_, hs.broken⟩
      cases hu
      exact ⟨late, Function.update_self ..⟩
    · cases h
  | wait t =>
    simp only [Joined.step] at h
    split at h
    · cases h
      refine ⟨hs.order, hs.awaited, fun u hu => ?_, hs.broken⟩
      cases hu
    · cases h
  | join t =>
    simp only [Joined.step] at h
    split at h
    · rename_i ht
      cases h
      exact hs.setJoiner _ fun late hl => by rw [ht] at hl; cases hl
    · rename_i ht
      cases h
      exact hs.setJoiner _ fun late hl => by rw [ht] at hl; cases hl
    · cases h
  | spurious t =>
    simp only [Joined.step] at h
    split at h
    · rename_i ht
      cases h
      exact hs.setJoiner _ fun late hl => by rw [ht] at hl; cases hl
    · cases h
  | unblock t =>
    simp only [Joined.step] at h
    split at h
    · rename_i ht
      split_ifs at h
      cases h
      exact hs.setJoiner _ fun late hl => by rw [ht] at hl; cases hl
    · cases h

/-- At rest nobody holds `mu_`. -/
theorem Sound.mu_of_rest {s : Joined ι κ β} (hs : s.Sound)
    (hrest : (system ι κ β).AtRest cost s) : s.mu = none := by
  cases hmu : s.mu with
  | none => rfl
  | some t =>
    obtain ⟨late, hlate⟩ := hs.mu t hmu
    cases hrest (.wait t) { s.setJoiner t (.waiting late) with mu := none }
      (by simp only [system, Joined.step, hlate])

/-- At rest in `event_base_loop`, the dispatcher is at rest. -/
theorem disp_rests {s : Joined ι κ β} (hmu : s.mu = none) (hphase : s.phase = .looping)
    (hrest : (system ι κ β).AtRest cost s) : (Dispatcher.system ι (Callback β)).AtRest Action.cost s.disp := by
  intro a d hd
  replace hd : s.disp.step a = some d := hd
  refine hrest (.disp a) { s with disp := d, broken := s.broken || breaks s.disp a } ?_
  have hmay : (a.locks → s.mu = none) ∧ (a.inLoop → s.phase = .looping) := ⟨fun _ => hmu, fun _ => hphase⟩
  simp only [system, Joined.step]
  rw [if_pos hmay, hd, Option.map_some]

/-- At rest, with `stop` posted, `dispatch` has not been called or has returned. -/
theorem Sound.phase_of_rest {s : Joined ι κ β} (hs : s.Sound)
    (hrest : (system ι κ β).AtRest cost s) (hstop : .loopbreak ∈ s.disp.posted) :
    s.phase = .outside ∨ s.phase = .returned := by
  have hmu := hs.mu_of_rest hrest
  cases hphase : s.phase with
  | outside => exact .inl rfl
  | returned => exact .inr rfl
  | ready => cases hrest .loop { s with phase := .looping } (if_pos hphase)
  | left =>
    cases hrest .notifyAll { s with phase := .notified, joiners := fun t => notify (s.joiners t) }
      (if_pos hphase)
  | notified => cases hrest .ret { s with phase := .returned } (if_pos hphase)
  | looping =>
    -- the loop has executed everything, the callback of `stop` with it
    have hdisp := disp_rests hmu hphase hrest
    obtain ⟨hloop, -, -⟩ := idle_of_rest hdisp
    have hbroken := hs.broken (by rwa [executed_of_rest hs.order hs.awaited hdisp])
    cases hrest .leave { s with phase := .left }
      (by simp only [system, Joined.step, hloop, hphase, hbroken, and_self, if_true])

/-- At rest every joiner waits or has returned. -/
theorem joiner_of_rest {s : Joined ι κ β} (hmu : s.mu = none)
    (hrest : (system ι κ β).AtRest cost s) (t : κ) :
    s.joiners t = .outside ∨ (∃ late, s.joiners t = .returned late) ∨
      ∃ late, s.joiners t = .waiting late := by
  cases ht : s.joiners t with
  | outside => exact .inl rfl
  | returned late => exact .inr (.inl ⟨late, rfl⟩)
  | waiting late => exact .inr (.inr ⟨late, rfl⟩)
  | called late =>
    cases hrest (.lock t) { s.setJoiner t (.locked late) with mu := some t }
      (by simp only [system, Joined.step, ht, hmu, if_true])
  | locked late =>
    cases hrest (.wait t) { s.setJoiner t (.waiting late) with mu := none }
      (by simp only [system, Joined.step, ht])
  | woken late =>
    cases hrest (.unblock t) (s.setJoiner t (.returned late))
      (by simp only [system, Joined.step, ht, hmu, if_true])

/-- Where `dispatch` and every `join` have returned and no poster is in `post`, nothing is left to do. -/
theorem rests_of_returned {s : Joined ι κ β} (hphase : s.phase = .returned)
    (hjoiners : ∀ t, ∃ late, s.joiners t = .returned late)
    (hposters : ∀ i, s.disp.threads i = .outside) : (system ι κ β).AtRest cost s := by
  intro a s' hstep
  replace hstep : s.step a = some s' := hstep
  cases a with
  | disp a =>
    cases a with
    | post i f | loopPost f => exact Nat.succ_pos 6
    | signal i => simp [Joined.step, Dispatcher.step, hposters i] at hstep
    | loopSignal | enter | take | call | pop | leave =>
      simp [Joined.step, Action.inLoop, hphase] at hstep
  | setStop | join t | spurious t => exact Nat.succ_pos _
  | loop | notifyAll | ret => simp [Joined.step, hphase] at hstep
  | leave =>
    simp only [Joined.step, hphase] at hstep
    split at hstep <;> simp at hstep
  | lock t | wait t | unblock t =>
    obtain ⟨late, ht⟩ := hjoiners t
    simp [Joined.step, ht] at hstep

theorem run_sound {s : Joined ι κ β} {acts : List (JoinAction ι κ β)}
    (h : (system ι κ β).Run new acts s) : s.Sound :=
  h.invariant (fun _ _ _ hs hstep => hs.step hstep) new_sound

end

/-! ### The result -/

variable [DecidableEq ι] [DecidableEq κ] [Fintype ι] [Fintype κ]

/-- With `k` threads that may join, a run takes at most `k + 4` steps and the prices of its pushes,
calls and spurious wake-ups.  When nothing else can happen and `stop` has been called, `dispatch` has
returned if it was called; and in a run in which joiners block before `notify_all`, so has every
`join`. -/
theorem stop_ends_dispatch {acts : List (JoinAction ι κ β)} {s : Joined ι κ β}
    (h : (system ι κ β).Run new acts s) :
    acts.length ≤ Fintype.card κ + 4 + (acts.map cost).sum ∧
    ((system ι κ β).AtRest cost s → .loopbreak ∈ s.disp.posted → s.phase ≠ .outside →
      s.phase = .returned ∧
      (((system ι κ β).restrict BlocksInTime).Run new acts s →
        ∀ t, s.joiners t = .outside ∨ ∃ late, s.joiners t = .returned late)) ∧
    ∃ more s', (system ι κ β).Run s more s' ∧ (∀ a ∈ more, cost a = 0) ∧
      (system ι κ β).AtRest cost s' := by
  have hs := run_sound h
  refine ⟨?_, fun hrest hstop hcalled => ?_, ranked.rests s⟩
  · have hlen := ranked.length_le h
    rw [rank_new] at hlen
    omega
  · have hphase := (hs.phase_of_rest hrest hstop).resolve_left hcalled
    refine ⟨hphase, fun htime t => ?_⟩
    have htold : s.phase.told = true → ∀ t late, s.joiners t ≠ .waiting late := by
      refine htime.invariant
        (I := fun u => u.phase.told = true → ∀ t late, u.joiners t ≠ .waiting late) ?_ nofun
      rintro u a u' hu ⟨hallowed, hstep⟩
      exact told_step hu hallowed hstep
    rcases joiner_of_rest (hs.mu_of_rest hrest) hrest t with hout | hret | ⟨late, hwait⟩
    · exact .inl hout
    · exact .inr hret
    · exact absurd hwait (htold (by rw [hphase]; rfl) t late)

/-- Two joiners in the loop, of which one wakes by itself. -/
def stopActions : List (JoinAction Unit Bool Unit) :=
  [.setStop, .loop, .join false, .lock false, .wait false, .join true, .lock true, .wait true,
    .spurious false, .unblock false, .disp (.post () .loopbreak), .disp (.signal ()), .disp .enter,
    .disp .take, .disp .call, .disp .pop, .disp .leave, .leave, .notifyAll, .unblock true, .ret]

theorem stop_ends_dispatch_sample :
    ∃ s : Joined Unit Bool Unit, (system Unit Bool Unit).Run new stopActions s ∧
      stopActions.length ≤ 2 + 4 + (stopActions.map cost).sum ∧ s.phase = .returned ∧
      ∀ t, s.joiners t = .outside ∨ ∃ late, s.joiners t = .returned late := by
  obtain ⟨s, htime, hstop, hphase, hposter, hfirst, hsecond⟩ : ∃ s : Joined Unit Bool Unit,
      ((system Unit Bool Unit).restrict BlocksInTime).Run new stopActions s ∧
      .loopbreak ∈ s.disp.posted ∧ s.phase = .returned ∧ s.disp.threads () = .outside ∧
      s.joiners false = .returned true ∧ s.joiners true = .returned true := by
    have hrun : ((system Unit Bool Unit).restrict BlocksInTime).Run new stopActions _ :=
      .cons ⟨trivial, rfl⟩ <| .cons ⟨trivial, rfl⟩ <| .cons ⟨trivial, rfl⟩ <|
      .cons ⟨trivial, rfl⟩ <| .cons ⟨rfl, rfl⟩ <| .cons ⟨trivial, rfl⟩ <| .cons ⟨trivial, rfl⟩ <|
      .cons ⟨rfl, rfl⟩ <| .cons ⟨trivial, rfl⟩ <| .cons ⟨trivial, rfl⟩ <| .cons ⟨trivial, rfl⟩ <|
      .cons ⟨trivial, rfl⟩ <| .cons ⟨trivial, rfl⟩ <| .cons ⟨trivial, rfl⟩ <|
      .cons ⟨trivial, rfl⟩ <| .cons ⟨trivial, rfl⟩ <| .cons ⟨trivial, rfl⟩ <|
      .cons ⟨trivial, rfl⟩ <| .cons ⟨trivial, rfl⟩ <| .cons ⟨trivial, rfl⟩ <|
      .cons ⟨trivial, rfl⟩ <| .nil _
    exact ⟨_, hrun, List.mem_singleton.2 rfl, rfl, rfl, rfl, rfl⟩
  have hjoined : ∀ t, ∃ late, s.joiners t = .returned late := by
    rintro (_ | _)
    · exact ⟨true, hfirst⟩
    · exact ⟨true, hsecond⟩
  have hrest := rests_of_returned hphase hjoined fun _ => hposter
  obtain ⟨hlen, hends, -⟩ := stop_ends_dispatch htime.of_restrict
  obtain ⟨hreturned, hall⟩ := hends hrest hstop (by rw [hphase]; nofun)
  exact ⟨s, htime.of_restrict, hlen, hreturned, hall htime⟩

end Joined
end Dispatcher
end NetService
