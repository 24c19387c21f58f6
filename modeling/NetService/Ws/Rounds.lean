import NetService.Ws.Termination

/-!
# Where the loop of `WsStickyWrap::readData` comes to

The bytes say which rounds the loop makes: `visits_goes` leads from the states that a round begins in
to what the bytes say, `goes_visits` back.  A parser that waits for more bytes goes round without
leaving its place, and the rounds it makes are not those of the bytes.
-/

namespace NetService
namespace Ws

open Memory WsStickyWrap Relation

variable {send : ℕ → ℤ} {s s' : WsStickyWrap}

/-! ### Rounds as the bytes say -/

theorem View.Goes.unique {x y z : View} (hy : View.Goes send x y) (hz : View.Goes send x z) :
    y = z := by
  cases hy with
  | head | length | key =>
    cases hz
    rfl
  | data _ _ _ _ passed =>
    cases hz with
    | data _ _ _ _ passed' =>
      rw [passed] at passed'
      cases passed'
      rfl

theorem View.Goes.bytes_ne {x y : View} (h : View.Goes send x y) (hne : y.bytes ≠ []) :
    x.bytes ≠ [] := by
  cases h with
  | head => exact List.cons_ne_nil _ _
  | length | key | data =>
    rintro hnil
    simp only at hnil hne
    rw [hnil, List.drop_nil] at hne
    exact hne rfl

theorem View.bytes_ne_of_goes {x y : View} (h : ReflTransGen (View.Goes send) x y)
    (hne : y.bytes ≠ []) : x.bytes ≠ [] := by
  induction h using ReflTransGen.head_induction_on with
  | refl => exact hne
  | head hgoes _ ih => exact hgoes.bytes_ne ih

/-- A parser that waits for more bytes goes nowhere. -/
theorem Few.not_goes (h : Few s.deal) (y : View) : ¬ View.Goes send (view s) y := by
  intro hgoes
  unfold view at hgoes
  cases h with
  | head op few =>
    have hphase : phase s.deal = .head := by
      unfold phase
      rw [op]
    rw [hphase] at hgoes
    generalize unread s.deal = l at few hgoes
    cases hgoes
    simp only [List.length_cons] at few
    omega
  | @length o op wbs few =>
    have hphase : phase s.deal = .length (s.deal.pData o) (s.deal.pData (o + 1)) := by
      unfold phase
      simp only [op, wbs, Option.getD_some]
    rw [hphase] at hgoes
    cases hgoes
    omega
  | key op few =>
    have hphase : phase s.deal = .key (s.deal.pData (s.deal.head.wbs.getD 0)) s.deal.head.len.toNat := by
      unfold phase
      rw [op]
    rw [hphase] at hgoes
    cases hgoes
    omega

/-! ### After a round -/

/-- What follows `parseWsHead` leaves the parser as it is, or empties the buffer. -/
theorem afterParse_deal (h : Sane s.deal) {b : Bool} (heq : afterParse send s = .ok (s', b)) :
    s'.deal = s.deal ∨ s'.deal.dataSize = 0 ∧ s'.deal.readSize = 0 := by
  have hindex := h.index
  obtain ⟨rfl, -⟩ | ⟨_, rfl, -⟩ | ⟨o, hne, hlen, hdeliver⟩ := afterParse_cases heq
  · exact .inl rfl
  · exact .inl rfl
  · obtain ⟨rfl, -⟩ | ⟨m, calls, rfl⟩ :=
      deliver_ok h (by omega) (calFrameHeadSize_le s.deal o) hdeliver
    · exact .inl rfl
    · exact .inr ⟨rfl, rfl⟩

/-- A parser that waits for more bytes stays where it is. -/
theorem Few.next {realLen : ℕ} (h : Begins s) (hfew : Few s.deal)
    (hnext : pass send realLen s = .next s') : s'.deal = s.deal := by
  have hparse := (parse_nothing_iff h.1 h.2).2 hfew
  obtain ⟨hafter, hmore⟩ := next_after hparse hnext
  rw [h.1.taken_zero] at hafter
  rcases afterParse_deal h.1 hafter with hdeal | ⟨hzero, hzero'⟩
  · exact hdeal
  · omega

/-! ### The rounds of the loop -/

/-- The loop comes only to where the bytes lead, unless the parser waits for more of them. -/
theorem visits_goes {realLen : ℕ} (h : Begins s) {t : WsStickyWrap}
    (hvisits : Loop.Visits (pass send realLen) s t) :
    Begins t ∧ (Few t.deal ∨ ReflTransGen (View.Goes send) (view s) (view t)) := by
  refine hvisits.invariant (I := fun t =>
    Begins t ∧ (Few t.deal ∨ ReflTransGen (View.Goes send) (view s) (view t))) ?_ ⟨h, .inr .refl⟩
  rintro t t' ⟨ht, hgoes⟩ hnext
  refine ⟨ht.next hnext, ?_⟩
  rcases hgoes with hfew | hgoes
  · rw [hfew.next ht hnext]
    exact .inl hfew
  · cases turn_spec send realLen ht.1 ht.2 with
    | starved few =>
      rw [few.next ht hnext]
      exact .inl few
    | @goes d' n calls _ hpass hstep _ =>
      refine .inr (hgoes.tail ?_)
      by_cases hnil : unread (taken d' n) = []
      · rw [hpass, if_pos hnil] at hnext
        cases hnext
      · rw [hpass, if_neg hnil] at hnext
        cases hnext
        exact hstep
    | leaves _ _ hleaves => exact absurd hnext (hleaves t')

/-- The loop comes to where the bytes lead. -/
theorem goes_visits (realLen : ℕ) (h : Begins s) {y : View}
    (hgoes : ReflTransGen (View.Goes send) (view s) y) (hne : y.bytes ≠ []) :
    ∃ t, Loop.Visits (pass send realLen) s t ∧ Begins t ∧ view t = y := by
  obtain ⟨x, hx⟩ : ∃ x, x = view s := ⟨_, rfl⟩
  rw [← hx] at hgoes
  induction hgoes using ReflTransGen.head_induction_on generalizing s with
  | refl => exact ⟨s, .start, h, hx.symm⟩
  | @head x z hstep hrest ih =>
    rw [hx] at hstep
    cases turn_spec send realLen h.1 h.2 with
    | starved few => exact absurd hstep (few.not_goes z)
    | @goes d' n calls _ hpass hstep' _ =>
      have hz := hstep.unique hstep'
      have hmore : unread (taken d' n) ≠ [] := by
        have hbytes := View.bytes_ne_of_goes hrest hne
        rw [hz] at hbytes
        exact hbytes
      rw [if_neg hmore] at hpass
      obtain ⟨t, hvisits, ht⟩ := ih (h.next hpass) hz
      exact ⟨t, hvisits.head hpass, ht⟩
    | leaves _ _ _ stays => exact absurd hstep (stays z)

/-- What a call of `readData` starts from. -/
def offered (s : WsStickyWrap) (chunk : Chunk) : View :=
  ⟨(written s.calls).length, phase s.deal, unread s.deal ++ chunk.bytes⟩

theorem view_stored {chunk : Chunk} (h : Sane s.deal) (he : Enters s chunk) :
    view (stored s chunk) = offered s chunk := by
  unfold view offered
  rw [stored_phase h, stored_unread h he]
  rfl

/-! ### Runs -/

/-- The states of a run in which no `readData` has returned a negative value: between two calls, or
in the loop of a call, whether it will return or not. -/
inductive Running (send : ℕ → ℤ) (m : ℕ → UInt8) (junk : WsHead) : WsStickyWrap → Prop
  | between {s : WsStickyWrap} : (system send m junk).Reachable s → Running send m junk s
  | within {s t : WsStickyWrap} {chunk : Chunk} : (system send m junk).Reachable s →
      Enters s chunk → Loop.Visits (pass send chunk.bytes.length) (stored s chunk) t →
        Running send m junk t

end Ws
end NetService
