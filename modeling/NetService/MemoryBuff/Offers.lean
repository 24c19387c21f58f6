import NetService.MemoryBuff.Fifo

/-!
# What a `memoryBuff` offers on a client's run

In a state of a run (`Inv`), `GetWriteBuff` offers a region as long as less than `capacity len` bytes
have been stored, and `GetReadBuff` the next of the stored bytes unless all of them have been
consumed; a client that fills no more than the region, or consumes all of it, comes to another such
state.
-/

namespace NetService
namespace MemoryBuff

variable {len : ℕ} {c : Client} {p : Progress}

/-- The region `GetWriteBuff` offers does not go beyond what the buffer takes. -/
theorem Inv.room (hinv : Inv len c p) (hlen : 1 ≤ len) (hroom : c.stored.length < capacity len) :
    ∃ q n, c.buff.getWriteBuff = .ok ((q, n), c.buff) ∧ 1 ≤ n ∧
      c.stored.length + n ≤ capacity len := by
  obtain ⟨-, -, hfifo, hshape⟩ := hinv
  have hle := hfifo.length_le
  have hcap := capacity_ge hlen
  cases hshape with
  | first htwo hlt _ hw _ _ hfirst =>
    rw [capacity_two htwo]
    exact ⟨_, _, getWriteBuff_spec hw hfirst hlt, by omega, by omega⟩
  | both htwo _ hhigh _ _ hw _ _ _ hlast =>
    have hdrop : (c.stored.drop 4096).length = c.stored.length - 4096 := List.length_drop
    rw [capacity_two htwo]
    exact ⟨_, _, getWriteBuff_spec hw hlast (by omega), by omega, by omega⟩
  | last hlt hlow hw _ _ hlast =>
    have hdrop : (c.stored.drop (capacity len - 4096)).length =
        c.stored.length - (capacity len - 4096) := List.length_drop
    exact ⟨_, _, getWriteBuff_spec hw hlast (by omega), by omega, by omega⟩
  | firstFull htwo hfull =>
    rw [capacity_two htwo] at hroom
    omega
  | lastFull hfull => omega
  | used hfull => omega

/-- A full buffer has no node to write in. -/
theorem Inv.full (hinv : Inv len c p) (hfull : capacity len ≤ c.stored.length) :
    c.buff.getWriteBuff = .error .nullDeref := by
  have hnull : c.buff.pWrite = none := by
    cases hinv.shape with
    | first htwo hlt | both htwo _ hlt =>
      rw [capacity_two htwo] at hfull
      omega
    | last hlt => omega
    | firstFull _ _ _ _ hw | lastFull _ _ _ hw | used _ _ hw => exact hw
  unfold getWriteBuff deref
  simp only [hnull]

/-- What a node with unread bytes offers, and that it is next in the stream. -/
theorem Holds.offers {b : MemoryBuff} {a r n : ℕ} {bytes stream : List UInt8} {next : Option ℕ}
    (h : b.Holds a bytes r next) (hr : b.pRead = some a) (hlt : r < bytes.length)
    (hnext : bytes.drop r <+: stream.drop n) :
    ∃ q k, b.getReadBuff = .ok (some (q, k)) ∧ k = bytes.length - r ∧
      b.load q k = (stream.drop n).take k := by
  obtain ⟨nd, hnd, hh⟩ := h
  obtain ⟨hget, hload⟩ := getReadBuff_spec hr hnd hh
  rw [if_pos hlt] at hget
  refine ⟨_, _, hget, rfl, ?_⟩
  rw [hload _ (by omega), List.prefix_iff_eq_take.1 hnext, List.length_drop, List.take_take, min_self]

/-- `GetReadBuff` offers what is next, or everything has been consumed. -/
theorem Inv.next (hinv : Inv len c p) (hlow : c.consumed.length < capacity len) :
    (c.buff.getReadBuff = .ok none ∧ c.consumed = c.stored) ∨
    ∃ q n, c.buff.getReadBuff = .ok (some (q, n)) ∧ 1 ≤ n ∧ n ≤ 4096 ∧
      c.consumed.length + n ≤ c.stored.length ∧
      c.buff.load q n = (c.stored.drop c.consumed.length).take n := by
  have hle := hinv.fifo.length_le
  -- the node that is read from, `r` of its bytes having been consumed
  obtain ⟨a, bytes, r, next, hr, hholds, hbytes, hsize, hr', hsame⟩ :
      ∃ a bytes r next, c.buff.pRead = some a ∧ c.buff.Holds a bytes r next ∧
        bytes.drop r <+: c.stored.drop c.consumed.length ∧ bytes.length ≤ 4096 ∧
        r ≤ bytes.length ∧ (r = bytes.length → c.consumed.length = c.stored.length) := by
    cases hinv.shape with
    | first htwo hlt _ _ hr _ hfirst =>
      exact ⟨_, _, _, _, hr, hfirst, List.prefix_refl _, hlt.le, hle, id⟩
    | both htwo hlow' hhigh hcons _ _ hr _ hfirst | firstFull htwo hfull hcons _ _ hr _ hfirst =>
      have htake : (c.stored.take 4096).length = 4096 := by
        rw [List.length_take]
        omega
      exact ⟨_, _, _, _, hr, hfirst, (List.take_prefix _ _).drop _, htake.le, by omega, by omega⟩
    | last hlt hlow' _ hr _ hlast | lastFull hlt hlow' _ _ hr _ hlast =>
      have hdrop : (c.stored.drop (capacity len - 4096)).length =
          c.stored.length - (capacity len - 4096) := List.length_drop
      exact ⟨_, _, _, _, hr, hlast, drop_base hlow', by omega, by omega, by omega⟩
    | used _ hused => omega
  have hlen := hbytes.length_le
  rw [List.length_drop, List.length_drop] at hlen
  by_cases hlt : r < bytes.length
  · obtain ⟨q, k, hget, rfl, hload⟩ := hholds.offers hr hlt hbytes
    exact .inr ⟨q, _, hget, by omega, by omega, by omega, hload⟩
  · obtain ⟨nd, hnd, hh⟩ := hholds
    have hget := (getReadBuff_spec hr hnd hh).1
    rw [if_neg hlt] at hget
    exact .inl ⟨hget, hinv.fifo.eq_of_length (hsame (by omega))⟩

/-- Storing in the region that is offered. -/
theorem Inv.store {q : Addr} {n : ℕ} {bs : List UInt8} (hinv : Inv len c p) (hlen : 1 ≤ len)
    (hbyte : len < 256) (hroom : c.stored.length < capacity len)
    (hget : c.buff.getWriteBuff = .ok ((q, n), c.buff)) (hpos : 1 ≤ bs.length)
    (hn : bs.length ≤ n) :
    ∃ b p', (c.buff.store q bs).adjustWriteSize bs.length = .ok b ∧
      Inv len ⟨b, c.stored ++ bs, c.consumed⟩ p' := by
  have hreach : InReach len p (.write bs) := by
    unfold InReach
    rwa [hinv.stored]
  cases hadjust : (c.buff.store q bs).adjustWriteSize bs.length with
  | error e =>
    have hstep : c.step (.write bs) = .fault e := by
      unfold Client.step
      simp only [hget, hadjust]
      rw [if_pos ⟨hpos, hn⟩]
    obtain ⟨-, granted, c', hdone, -⟩ :=
      write_advances hinv hlen hbyte hreach (by rw [hstep]; nofun)
    rw [hstep] at hdone
    cases hdone
  | ok b =>
    have hstep : c.step (.write bs) = .ok n ⟨b, c.stored ++ bs, c.consumed⟩ := by
      unfold Client.step
      simp only [hget, hadjust]
      rw [if_pos ⟨hpos, hn⟩]
    obtain ⟨-, granted, c', hdone, hinv'⟩ :=
      write_advances hinv hlen hbyte hreach (by rw [hstep]; nofun)
    rw [hstep] at hdone
    cases hdone
    exact ⟨b, _, rfl, hinv'⟩

/-- Consuming the region that is offered. -/
theorem Inv.consume {q : Addr} {n : ℕ} (hinv : Inv len c p) (hlen : 1 ≤ len) (height : len ≠ 8)
    (hlow : c.consumed.length < capacity len) (hget : c.buff.getReadBuff = .ok (some (q, n))) :
    ∃ b p', c.buff.adjustReadSize n = .ok b ∧
      Inv len ⟨b, c.stored, c.consumed ++ c.buff.load q n⟩ p' := by
  have hreach : InReach len p (.read n) := by
    unfold InReach
    rw [hinv.consumed]
    exact ⟨hlow, fun h => height h.1⟩
  cases hadjust : c.buff.adjustReadSize n with
  | error e =>
    have hstep : c.step (.read n) = .fault e := by
      unfold Client.step
      simp only [hget, hadjust, le_refl, if_true]
    obtain ⟨-, granted, c', hdone, -⟩ := read_advances hinv hlen hreach (by rw [hstep]; nofun)
    rw [hstep] at hdone
    cases hdone
  | ok b =>
    have hstep : c.step (.read n) = .ok n ⟨b, c.stored, c.consumed ++ c.buff.load q n⟩ := by
      unfold Client.step
      simp only [hget, hadjust, le_refl, if_true]
    obtain ⟨-, granted, c', hdone, hinv'⟩ :=
      read_advances hinv hlen hreach (by rw [hstep]; nofun)
    rw [hstep] at hdone
    cases hdone
    exact ⟨b, _, rfl, hinv'⟩

end MemoryBuff
end NetService
