import NetService.Lib.Stream
import NetService.Ws.Rounds

/-!
# Replies on a socket that does not take all of them

The sockets are non-blocking: `send` accepts a part of its string, or nothing.  `sendFrame` returns
what `send` returns, and `readData` looks at its sign: after a negative value it returns `-1` and
nothing more is sent, after a short count it goes on, and the rest of the reply is not sent.
-/

namespace NetService
namespace Ws

open WsStickyWrap

variable {send : ℕ → ℤ} {s s' : WsStickyWrap}

/-! ### No send has failed -/

/-- Every `send` so far has returned a value that is not negative. -/
def NoneFailed (send : ℕ → ℤ) (calls : List Call) : Prop :=
  ∀ i < (written calls).length, 0 ≤ send i

theorem NoneFailed.deliver {headsize : ℕ} (h : NoneFailed send s.calls)
    (heq : s.deliver headsize = .ok (s', true)) : NoneFailed send s'.calls := by
  unfold WsStickyWrap.deliver at heq
  simp only at heq
  split at heq
  · split at heq
    · cases heq
      unfold NoneFailed
      rw [written_append, List.length_append]
      exact h
    · cases heq
  · cases heq

/-- The loop goes on only when the reply has not failed. -/
theorem NoneFailed.afterParse (heq : afterParse send s = .ok (s', true))
    (h : NoneFailed send s.calls) : NoneFailed send s'.calls := by
  obtain ⟨rfl, -⟩ | ⟨response, rfl, hsend⟩ | ⟨o, -, -, hdeliver⟩ := afterParse_cases heq
  · exact h
  · intro i hi
    rw [length_written_snoc] at hi
    rcases Nat.lt_succ_iff_lt_or_eq.1 hi with hi | rfl
    · exact h i hi
    · exact of_decide_eq_true hsend.symm
  · exact h.deliver hdeliver

/-- A round after which the loop goes on, or returns a value that is not `-1`. -/
theorem NoneFailed.pass {realLen : ℕ} (h : NoneFailed send s.calls) :
    (pass send realLen s = .next s' → NoneFailed send s'.calls) ∧
      ∀ r, pass send realLen s = .done (r, s') → r ≠ -1 → NoneFailed send s'.calls := by
  have hcomes := pass_comes send realLen s
  constructor
  · intro hnext
    rw [hnext] at hcomes
    cases hcomes with
    | next _ after => exact NoneFailed.afterParse after h
  · intro r hdone hr
    rw [hdone] at hcomes
    cases hcomes with
    | failed => exact h
    | refused => exact absurd rfl hr
    | last _ after => exact NoneFailed.afterParse after h

/-! ### Runs -/

theorem NoneFailed.reads {chunk : Chunk} (h : NoneFailed send s.calls)
    (hreads : Reads send s chunk s') : NoneFailed send s'.calls := by
  obtain ⟨fuel, r, hread, hr⟩ := hreads
  by_cases henters : Enters s chunk
  · rw [readData_enters henters] at hread
    let Q : Except WsFault (ℤ × WsStickyWrap) → Prop
      | .ok (r, t) => r ≠ -1 → NoneFailed send t.calls
      | .error _ => True
    have hout : Q (.ok (r, s')) := by
      refine Loop.Ends.of_invariant (fun t => NoneFailed send t.calls) Q ?_ ?_ ?_ h ⟨fuel, hread⟩
      · exact fun t t' ht => ht.pass.1
      · exact fun t r ht hdone => ht.pass.2 r.1 hdone
      · exact fun _ _ _ _ => trivial
    exact hout hr
  · obtain ⟨r', hrefuses⟩ := readData_refuses send henters fuel
    cases hrefuses.symm.trans hread
    exact h

theorem reachable_noneFailed {m : ℕ → UInt8} {junk : WsHead}
    (h : (system send m junk).Reachable s) : NoneFailed send s.calls := by
  refine h.invariant (I := fun s => NoneFailed send s.calls) ?_ ?_
  · rintro _ rfl i hi
    exact absurd hi (Nat.not_lt_zero i)
  · exact fun s chunk s' hs hreads => hs.reads hreads

/-- While `readData` has not returned a negative value, no `send` has. -/
theorem Running.noneFailed {m : ℕ → UInt8} {junk : WsHead} (h : Running send m junk s) :
    NoneFailed send s.calls := by
  cases h with
  | between h => exact reachable_noneFailed h
  | within h _ hvisits =>
    refine hvisits.invariant (I := fun t => NoneFailed send t.calls) ?_ (reachable_noneFailed h)
    exact fun t t' ht => ht.pass.1

/-- Behind a reply of which `send` accepted a part, nothing is accepted. -/
def CutLast (send : ℕ → ℤ) (calls : List Call) : Prop :=
  ∀ i response, (written calls)[i]? = some response → 0 ≤ send i → send i < response.length →
    ∀ j < (written calls).length, i < j → send j ≤ 0

/-- In every run, as long as `readData` has not returned a negative value and no reply that was cut
short has been followed by another, what the socket has accepted is a prefix of the replies. -/
theorem accepted_in_order {m : ℕ → UInt8} {junk : WsHead} (h : Running send m junk s)
    (hcut : CutLast send s.calls) :
    Stream.accepted send (written s.calls) <+: (written s.calls).flatten := by
  refine Stream.accepted_prefix fun i response hi hshort => ?_
  obtain ⟨hlt, -⟩ := List.getElem?_eq_some_iff.1 hi
  exact hcut i response hi (h.noneFailed i hlt) hshort

/-- A ping with one byte of payload. -/
def pingChunk (b : UInt8) : Chunk := ⟨[137, 129, 0, 0, 0, 0, b], by show 7 < 65536; omega⟩

/-- A reply of four bytes, of which one was accepted. -/
theorem accepted_in_order_sample :
    ∃ s, Running (fun _ => 1) (fun _ => 0) ⟨none, 0, fun _ => 0⟩ s ∧
      (written s.calls).flatten = [137, 1, 65, 0] ∧
      Stream.accepted (fun _ => 1) (written s.calls) <+: (written s.calls).flatten := by
  have hrun : ∃ s, (system (fun _ => 1) (fun _ => 0) ⟨none, 0, fun _ => 0⟩).Run
      (new (fun _ => 0) ⟨none, 0, fun _ => 0⟩) [pingChunk 65] s ∧
      written s.calls = [[137, 1, 65, 0]] :=
    ⟨_, .cons ⟨4, 7, rfl, by decide⟩ (.nil _), rfl⟩
  obtain ⟨s, hs, hwritten⟩ := hrun
  have hrunning : Running (fun _ => 1) (fun _ => 0) ⟨none, 0, fun _ => 0⟩ s :=
    .between ⟨_, _, rfl, hs⟩
  refine ⟨s, hrunning, by rw [hwritten]; rfl, accepted_in_order hrunning ?_⟩
  intro i response _ _ _ j hj hij
  rw [hwritten] at hj
  exact absurd hj (by simp only [List.length_singleton]; omega)

/-- One byte of the first reply is accepted, then all of the second. -/
theorem cut_reply_followed :
    ∃ s, Running (fun i => if i = 0 then 1 else 11) (fun _ => 0) ⟨none, 0, fun _ => 0⟩ s ∧
      written s.calls = [[137, 1, 65, 0], [137, 8, 65, 137, 129, 0, 0, 0, 0, 66, 0]] ∧
      ¬ Stream.accepted (fun i => if i = 0 then 1 else 11) (written s.calls) <+:
        (written s.calls).flatten := by
  have hrun : ∃ s, (system (fun i => if i = 0 then 1 else 11) (fun _ => 0)
      ⟨none, 0, fun _ => 0⟩).Run (new (fun _ => 0) ⟨none, 0, fun _ => 0⟩)
        [pingChunk 65, pingChunk 66] s ∧
      written s.calls = [[137, 1, 65, 0], [137, 8, 65, 137, 129, 0, 0, 0, 0, 66, 0]] :=
    ⟨_, .cons ⟨4, 7, rfl, by decide⟩ (.cons ⟨4, 7, rfl, by decide⟩ (.nil _)), rfl⟩
  obtain ⟨s, hs, hwritten⟩ := hrun
  refine ⟨s, .between ⟨_, _, rfl, hs⟩, hwritten, ?_⟩
  rw [hwritten]
  decide

end Ws
end NetService
