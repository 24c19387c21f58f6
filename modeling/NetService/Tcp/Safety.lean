import NetService.Tcp.Model

/-!
# Memory safety of `TcpStickyWrap::readData`

`conn` runs a connection round by round, so that a `readData` that never returns is covered as
well.  A state is `Safe` if no round has faulted (no read of `_head` before it is set, no negative
`memcpy` length, no copy that leaves `_pData` or the region), if `_head->_len` has only decided
copies of packets whose four header bytes were there, and if the next round fails on a length
above `_Data_cap`.

No constructor sets `_head`, and every `readData` reads it: `safe_iff_nothing_received` says that
a run from construction is safe exactly as long as nothing has been received.
-/

namespace NetService
namespace Tcp

open TcpStickyWrap PackDealWith

/-- Where a connection is. -/
inductive Reader
  /-- between two `readData` calls -/
  | idle (s : TcpStickyWrap)
  /-- in the loop of `readData` -/
  | reading (s : TcpStickyWrap) (realLen : ℕ)
  /-- `readData` has returned -1 -/
  | closed (s : TcpStickyWrap)
  /-- a round has faulted -/
  | broken (e : PackFault)

/-- What happens to a connection: a segment arrives, or `readData` makes one round. -/
inductive Event
  | recv (seg : List UInt8)
  | round

/-- One step of a connection. -/
def Reader.step : Reader → Event → Option Reader
  | .idle s, .recv seg => some (.reading { s with recvBuf := s.recvBuf ++ [seg] } 0)
  | .reading s n, .round =>
      match pass (s, n) with
      | .next (s', n') => some (.reading s' n')
      | .done (r, s') => some (if r = -1 then .closed s' else .idle s')
      | .fault e => some (.broken e)
  | _, _ => none

/-- A connection whose object has been constructed with `_head` as it is. -/
def conn (head : Option ℕ) (m : ℕ → UInt8) : LTS Reader Event where
  init x := x = .idle (new head m)
  step x a y := x.step a = some y

/-- The segments received in a run. -/
def segments : List Event → List (List UInt8)
  | [] => []
  | .recv seg :: as => seg :: segments as
  | .round :: as => segments as

/-- The next round, from here, fails if the header is there and its length is above the capacity. -/
def RejectsOversize (s : TcpStickyWrap) (realLen : ℕ) : Prop :=
  ∀ p n hl, s.pack.copyHeader (s.recvBuf.headD []) = .ok (p, n) → p.headSize ≤ p.dataSize →
    p.headLen = .ok hl → p.dataCap < hl → ∃ s', pass (s, realLen) = .done (-1, s')

/-- Nothing unsafe has happened. -/
def Reader.Safe : Reader → Prop
  | .idle s => ∀ k ∈ s.decided, 4 ≤ k
  | .reading s n => (∀ k ∈ s.decided, 4 ≤ k) ∧ RejectsOversize s n
  | .closed s => ∀ k ∈ s.decided, 4 ≤ k
  | .broken _ => False

/-- Every state a connection can reach while it receives `segs` is safe. -/
def SafeRun (head : Option ℕ) (m : ℕ → UInt8) (segs : List (List UInt8)) : Prop :=
  ∀ as x, (conn head m).Run (.idle (new head m)) as x → segments as <+: segs → x.Safe

/-- The test for a packet that is too long comes before everything else `_head` is read for. -/
theorem rejectsOversize (s : TcpStickyWrap) (realLen : ℕ) : RejectsOversize s realLen := by
  intro p n hl hheader hthere hlen hbig
  refine ⟨{ s with pack := p }, ?_⟩
  have hover : p.oversize = .ok true := by
    unfold oversize
    rw [if_pos hthere, hlen]
    simp [Except.map, hbig]
  unfold TcpStickyWrap.pass
  simp only [hheader, hover]

/-- The header part of the first round is in bounds, whatever has arrived. -/
theorem copyHeader_new {p : PackDealWith} (hsize : p.dataSize = 0) (hhead : p.headSize = 4)
    (hcap : p.dataCap = packCap) (region : List UInt8) :
    ∃ p' n, p.copyHeader region = .ok (p', n) ∧ p'.head = p.head := by
  obtain ⟨n, hn, hfour, hlen⟩ : ∃ n, (if region.length > 4 - 0 then 4 - 0 else region.length) = n ∧
      n ≤ 4 ∧ n ≤ region.length := ⟨_, rfl, by split <;> omega, by split <;> omega⟩
  have hcopy : p.memcpy 0 region n =
      .ok { p with pData := Memory.store p.pData 0 (region.take n) } := by
    unfold memcpy packCap at *
    rw [hcap, if_pos ⟨by omega, by omega, by omega⟩, Int.toNat_natCast]
  unfold copyHeader
  rw [hsize, hhead, if_pos (by decide)]
  simp only [hn, hcopy]
  exact ⟨_, n, rfl, rfl⟩

/-- The first round of a connection whose `_head` has not been set reads it. -/
theorem pass_headUnset {s : TcpStickyWrap} (hnew : s.pack = PackDealWith.new s.pack.pData)
    (realLen : ℕ) : pass (s, realLen) = .fault .headUnset := by
  have hhead : s.pack.head = none := by rw [hnew]; rfl
  obtain ⟨p', n, hcopy, hp'⟩ := copyHeader_new (p := s.pack) (by rw [hnew]; rfl)
    (by rw [hnew]; rfl) (by rw [hnew]; rfl) (s.recvBuf.headD [])
  have hunset : p'.headLen = .error .headUnset := by
    unfold headLen
    rw [hp', hhead]
  unfold TcpStickyWrap.pass
  simp only [hcopy]
  unfold oversize
  by_cases hthere : p'.headSize ≤ p'.dataSize
  · simp [hthere, hunset, Except.map]
  · simp [hthere, copyBody, hunset]

/-- A run without segments stays where it starts. -/
theorem run_without_segments {head : Option ℕ} {m : ℕ → UInt8} {s : TcpStickyWrap}
    {as : List Event} {x : Reader} (h : (conn head m).Run (.idle s) as x)
    (hsegs : segments as = []) : x = .idle s := by
  cases h with
  | nil => rfl
  | @cons _ y _ a as hstep _ =>
    cases a with
    | recv seg => cases hsegs
    | round => cases hstep

/-- A connection that runs from its construction, with `_head` never set, is safe exactly if it
receives nothing. -/
theorem safe_iff_nothing_received (m : ℕ → UInt8) (segs : List (List UInt8)) :
    SafeRun none m segs ↔ segs = [] := by
  constructor
  · intro hsafe
    cases segs with
    | nil => rfl
    | cons seg segs =>
      -- the segment arrives, and the first round of `readData` reads `_head`
      have hrun : (conn none m).Run (.idle (new none m)) [.recv seg, .round]
          (.broken .headUnset) := by
        refine .cons rfl (.cons ?_ (.nil _))
        show Reader.step (.reading _ 0) .round = _
        simp only [Reader.step]
        rw [pass_headUnset rfl]
      exact absurd (hsafe _ _ hrun ⟨segs, rfl⟩) id
  · rintro rfl as x hrun hpre
    rw [run_without_segments hrun (List.prefix_nil.1 hpre)]
    exact fun k hk => nomatch hk

/-- The shortest packet, received whole by a new connection. -/
theorem first_packet_reads_unset_head : ¬ SafeRun none (fun _ => 0) [[5, 0, 1, 0, 7]] := by
  intro hsafe
  have hrun : (conn none fun _ => 0).Run (.idle (new none fun _ => 0))
      [.recv [5, 0, 1, 0, 7], .round] (.broken .headUnset) :=
    .cons rfl (.cons rfl (.nil _))
  exact hsafe _ _ hrun ⟨[], rfl⟩

end Tcp
end NetService
