import NetService.MemoryBuff.Offers
import NetService.WsConnect.Model

/-!
# How far `FdBridge::read` receives

A chunk goes into the buffer as long as the buffer has room left behind it (`receives`).  When the
chunk fills the buffer, the loop goes on and follows the null pointer `_pWrite` has become
(`overflows`).
-/

namespace NetService
namespace FdBridge

open MemoryBuff

variable {len : ℕ} {c : Client} {p : Progress} {pending : List UInt8}

/-- A round while the buffer has room and the socket has bytes. -/
theorem pass_spec (hinv : Inv len c p) (hlen : 1 ≤ len) (hbyte : len < 256)
    (hroom : c.stored.length < capacity len) (hne : pending ≠ []) :
    ∃ n b p', 1 ≤ n ∧ c.stored.length + n ≤ capacity len ∧
      Inv len ⟨b, c.stored ++ pending.take n, c.consumed⟩ p' ∧
      pass (c.buff, pending) =
        if pending.length < n then .done (true, b) else .next (b, pending.drop n) := by
  obtain ⟨q, n, hget, hn, hfits⟩ := hinv.room hlen hroom
  have hpos := List.length_pos_iff.2 hne
  have htake : (pending.take n).length = min n pending.length := List.length_take
  have hpos' : 1 ≤ (pending.take n).length := by omega
  obtain ⟨b, p', hadjust, hinv'⟩ := hinv.store hlen hbyte hroom hget hpos' (by omega)
  refine ⟨n, b, p', hn, hfits, hinv', ?_⟩
  unfold pass
  simp only [hget]
  rw [if_neg (by omega)]
  unfold recv
  rw [if_neg hne]
  simp only [hadjust]
  by_cases hlt : pending.length < n
  · rw [if_pos (by omega), if_pos hlt]
  · rw [if_neg (by omega), if_neg hlt, htake, min_eq_left (by omega)]

/-- Everything is received while the buffer keeps room. -/
theorem receives (hinv : Inv len c p) (hlen : 1 ≤ len) (hbyte : len < 256)
    (hroom : c.stored.length + pending.length < capacity len) :
    ∃ b p', Loop.Ends pass (c.buff, pending) (.ok (true, b)) ∧
      Inv len ⟨b, c.stored ++ pending, c.consumed⟩ p' := by
  induction hlength : pending.length using Nat.strong_induction_on generalizing pending c p with
  | _ k ih =>
    by_cases hne : pending = []
    · -- `EAGAIN`
      subst hne
      obtain ⟨q, n, hget, hn, -⟩ := hinv.room hlen (by omega)
      refine ⟨c.buff, p, .done ?_, by rwa [List.append_nil]⟩
      unfold pass
      simp only [hget]
      rw [if_neg (by omega)]
      rfl
    · obtain ⟨n, b, p', hn, -, hinv', hpass⟩ :=
        pass_spec hinv hlen hbyte (by omega) hne
      by_cases hlt : pending.length < n
      · rw [if_pos hlt] at hpass
        rw [List.take_of_length_le hlt.le] at hinv'
        exact ⟨b, p', .done hpass, hinv'⟩
      · rw [if_neg hlt] at hpass
        have hdrop : (pending.drop n).length = pending.length - n := List.length_drop
        have htake : (pending.take n).length = n := List.length_take_of_le (by omega)
        have hlength' : (c.stored ++ pending.take n).length = c.stored.length + n := by
          rw [List.length_append, htake]
        obtain ⟨b', p'', hends, hinv''⟩ := ih (k - n) (by omega) hinv'
          (show (c.stored ++ pending.take n).length + (pending.drop n).length < capacity len by omega)
          (by omega)
        refine ⟨b', p'', hends.next hpass, ?_⟩
        rwa [List.append_assoc, List.take_append_drop] at hinv''

/-- A chunk that fills the buffer ends in a fault. -/
theorem overflows (hinv : Inv len c p) (hlen : 1 ≤ len) (hbyte : len < 256)
    (hle : c.stored.length ≤ capacity len)
    (hover : capacity len ≤ c.stored.length + pending.length) :
    Loop.Ends pass (c.buff, pending) (.error .nullDeref) := by
  induction hlength : pending.length using Nat.strong_induction_on generalizing pending c p with
  | _ k ih =>
    by_cases hfull : capacity len ≤ c.stored.length
    · refine .fault ?_
      unfold pass
      simp only [hinv.full hfull]
    · have hne : pending ≠ [] := by
        rintro rfl
        rw [List.length_nil] at hover
        omega
      obtain ⟨n, b, p', hn, hfits, hinv', hpass⟩ :=
        pass_spec hinv hlen hbyte (by omega) hne
      rw [if_neg (by omega)] at hpass
      have hdrop : (pending.drop n).length = pending.length - n := List.length_drop
      have htake : (pending.take n).length = n := List.length_take_of_le (by omega)
      have hlength' : (c.stored ++ pending.take n).length = c.stored.length + n := by
        rw [List.length_append, htake]
      have hends := ih (k - n) (by omega) hinv'
        (show (c.stored ++ pending.take n).length ≤ capacity len by omega)
        (show capacity len ≤ (c.stored ++ pending.take n).length + (pending.drop n).length by omega)
        (by omega)
      exact hends.next hpass

end FdBridge
end NetService
