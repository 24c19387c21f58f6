import NetService.Tcp.Packet
import NetService.Tcp.Safety

/-!
# When `TcpStickyWrap::readData` returns

`ahead` is what the loop of `readData` has before it: the bytes of the unfinished packet in
`_pData` and the region `GetReadBuff` hands out.  A round that goes round again has found a whole
packet in it and more behind (`Continues`).  If `_len` is above 4 the packet is delivered and is
behind the loop.  If it is 4 the packet has no body, the test `_Data_size > _headSize` fails, and
the next round finds the same bytes again.

`Stalled` says that the loop will come to such a packet; `readData_returns_iff` says that this is
what keeps it from ending.
-/

namespace NetService
namespace Tcp

open TcpStickyWrap PackDealWith Memory

/-- `_len` of the header in `l`. -/
def lenOf (l : List UInt8) : ℕ := (l.getD 0 0).toNat + 256 * (l.getD 1 0).toNat

/-- A whole packet and at least one byte behind it. -/
def Continues (l : List UInt8) : Prop := 4 ≤ lenOf l ∧ lenOf l ≤ packCap ∧ lenOf l < l.length

/-- Behind whole packets with a body there is a packet that is only a header, and a byte behind
it. -/
inductive Stalled : List UInt8 → Prop
  | here {l : List UInt8} (len : lenOf l = 4) (more : 4 < l.length) : Stalled l
  | later {l : List UInt8} (low : 4 < lenOf l) (high : lenOf l ≤ packCap)
      (rest : Stalled (l.drop (lenOf l))) : Stalled l

theorem Stalled.length {l : List UInt8} (h : Stalled l) : 4 < l.length := by
  induction h with
  | here _ more => exact more
  | later _ _ _ ih =>
    rw [List.length_drop] at ih
    omega

theorem Stalled.continues {l : List UInt8} (h : Stalled l) : Continues l := by
  cases h with
  | here len more => exact ⟨len.ge, by rw [len]; decide, len ▸ more⟩
  | later low high rest =>
    have hrest := rest.length
    rw [List.length_drop] at hrest
    exact ⟨low.le, high, by omega⟩

/-- Two bytes of a list are its length. -/
theorem lenOf_congr {l l' : List UInt8} (hpre : l <+: l') (h : 2 ≤ l.length) :
    lenOf l' = lenOf l := by
  obtain ⟨rest, rfl⟩ := hpre
  unfold lenOf
  simp only [List.getD_eq_getElem?_getD]
  rw [List.getElem?_append_left (by omega), List.getElem?_append_left (by omega)]

/-- Lists with one header have one length. -/
theorem lenOf_of_take {got l : List UInt8} (hfour : 4 ≤ got.length) (hhead : got.take 4 <+: l) :
    lenOf got = lenOf l := by
  have htake : (got.take 4).length = 4 := List.length_take_of_le hfour
  calc lenOf got = lenOf (got.take 4) := lenOf_congr (List.take_prefix 4 got) (by omega)
    _ = lenOf l := (lenOf_congr hhead (by omega)).symm

/-! ### What the loop has before it -/

/-- The bytes of the unfinished packet. -/
def pending (s : TcpStickyWrap) : List UInt8 := load s.pack.pData 0 s.pack.dataSize

/-- The unfinished packet, then the region the next round is given. -/
def ahead (s : TcpStickyWrap) : List UInt8 := pending s ++ s.recvBuf.headD []

/-- The state before a round: a packet whose header is there is not longer than its `_len`. -/
structure Ready (s : TcpStickyWrap) : Prop where
  holding : ∃ stale, s.pack.Holding stale (pending s)
  fits : 4 ≤ (pending s).length →
    (pending s).length ≤ lenOf (pending s) ∧ lenOf (pending s) ≤ packCap
  regions : ∀ r ∈ s.recvBuf, r.length < 65536

theorem Ready.region {s : TcpStickyWrap} (h : Ready s) : (s.recvBuf.headD []).length < 65536 := by
  cases hbuf : s.recvBuf with
  | nil => exact (by decide : (0 : ℕ) < 65536)
  | cons r rest => exact h.regions r (hbuf ▸ List.mem_cons_self)

theorem Ready.pending_le {s : TcpStickyWrap} (h : Ready s) : (pending s).length ≤ 4096 := by
  by_cases hfour : 4 ≤ (pending s).length
  · exact (h.fits hfour).1.trans (h.fits hfour).2
  · omega

theorem adjustReadSize_lt {regions : List (List UInt8)} (h : ∀ r ∈ regions, r.length < 65536)
    (n : ℕ) : ∀ r ∈ adjustReadSize regions n, r.length < 65536 := by
  intro r hr
  cases regions with
  | nil => exact h r hr
  | cons region rest =>
    unfold adjustReadSize at hr
    simp only at hr
    split at hr
    · rcases List.mem_cons.1 hr with rfl | hr
      · have hregion := h region List.mem_cons_self
        rw [List.length_drop]
        omega
      · exact h r (List.mem_cons_of_mem _ hr)
    · exact h r (List.mem_cons_of_mem _ hr)

theorem holding_pending {s : TcpStickyWrap} {stale : UInt8} {got : List UInt8}
    (h : s.pack.Holding stale got) : pending s = got := by
  unfold pending
  rw [h.size, h.data]

/-! ### The parts of a round -/

/-- With the length bytes there, `_head->_len` is the length. -/
theorem headLen_of_holding {p : PackDealWith} {stale : UInt8} {got : List UInt8}
    (h : p.Holding stale got) (htwo : 2 ≤ got.length) : p.headLen = .ok (lenOf got) := by
  have h0 := h.getElem? (k := 0) (by omega)
  have h1 := h.getElem? (k := 1) (by omega)
  unfold PackDealWith.headLen lenOf
  rw [h.head]
  simp only [List.getD_eq_getElem?_getD, h0, h1, Option.getD_some, Nat.zero_add]

/-- `_head` is set, so that it can be read. -/
theorem headLen_ok {p : PackDealWith} {stale : UInt8} {got : List UInt8} (h : p.Holding stale got) :
    ∃ hl, p.headLen = .ok hl := by
  unfold PackDealWith.headLen
  rw [h.head]
  exact ⟨_, rfl⟩

/-- A length below what is there makes the copy length negative. -/
theorem copyBody_negative {p : PackDealWith} {stale : UInt8} {got : List UInt8}
    (h : p.Holding stale got) {hl : ℕ} (hlen : p.headLen = .ok hl) (hlow : hl < got.length)
    {region : List UInt8} {n : ℕ} (hn : n ≤ region.length) :
    ∃ e, p.copyBody region n = .error e := by
  unfold PackDealWith.copyBody
  simp only [hlen]
  rw [if_neg (by rw [h.size]; omega)]
  unfold PackDealWith.memcpy
  rw [if_neg (by rw [h.size]; omega)]
  exact ⟨_, rfl⟩

/-- The end of a round. -/
theorem finishPack_holding {s : TcpStickyWrap} {stale : UInt8} {got : List UInt8}
    (h : s.pack.Holding stale got) :
    ∃ id, finishPack s = .ok (if 4 < got.length ∧ lenOf got = got.length then
      { s with msgs := s.msgs ++ [⟨id, got⟩], pack := { s.pack with dataSize := 0 } } else s) := by
  unfold finishPack
  rw [h.headSize, h.size]
  by_cases hfour : 4 < got.length
  · obtain ⟨id, hid⟩ : ∃ id, s.pack.headMsgId = .ok id := by
      unfold PackDealWith.headMsgId
      rw [h.head]
      exact ⟨_, rfl⟩
    refine ⟨id, ?_⟩
    rw [if_pos hfour, headLen_of_holding h (by omega), hid]
    by_cases hfull : lenOf got = got.length
    · rw [if_pos ⟨hfour, hfull⟩]
      simp only [hfull, if_true, h.data]
    · rw [if_neg (fun hc => hfull hc.2)]
      simp only [if_neg hfull]
  · exact ⟨0, by rw [if_neg hfour, if_neg (fun hc => hfour hc.1)]⟩

/-- A round whose copies succeed. -/
theorem pass_of_copies {s s' : TcpStickyWrap} (total : ℕ) {n r : ℕ} {p₁ p₂ : PackDealWith}
    (hheader : s.pack.copyHeader (s.recvBuf.headD []) = .ok (p₁, n))
    (hover : p₁.oversize = .ok false)
    (hbody : p₁.copyBody (s.recvBuf.headD []) n = .ok (p₂, r))
    (hfinish : finishPack { s with pack := p₂, recvBuf := adjustReadSize s.recvBuf r
                                   decided := s.decided ++ [p₁.dataSize] } = .ok s') :
    pass (s, total) =
      if (s.recvBuf.headD []).length ≤ r then .done ((total : ℤ) + (r : ℤ), s')
      else .next (s', total + r) := by
  unfold TcpStickyWrap.pass
  simp only [hheader, hover, hbody, hfinish]

/-- The header part of a round, seen on what the loop has before it. -/
theorem Ready.header {s : TcpStickyWrap} (h : Ready s) :
    ∃ stale p n got, s.pack.copyHeader (s.recvBuf.headD []) = .ok (p, n) ∧
      n = min (s.recvBuf.headD []).length (4 - (pending s).length) ∧ p.Holding stale got ∧
      got <+: ahead s ∧ got.length = min (max (pending s).length 4) (ahead s).length := by
  obtain ⟨stale, hold⟩ := h.holding
  obtain ⟨p, hheader, hp⟩ := hold.copyHeader h.pending_le (s.recvBuf.headD [])
  refine ⟨stale, p, _, _, hheader, rfl, hp, ?_, ?_⟩
  · exact (List.prefix_append_right_inj _).2 (List.take_prefix _ _)
  · unfold ahead
    rw [List.length_append, List.length_append, List.length_take]
    omega

/-- The packet is not longer than the length before the loop. -/
theorem Ready.pending_le_lenOf {s : TcpStickyWrap} (h : Ready s) (hlow : 4 ≤ lenOf (ahead s)) :
    (pending s).length ≤ lenOf (ahead s) := by
  by_cases hthere : 4 ≤ (pending s).length
  · have hpre : pending s <+: ahead s := List.prefix_append _ _
    rw [lenOf_congr hpre (by omega)]
    exact (h.fits hthere).1
  · omega

/-- The copies of a round that has a header with a possible length before it. -/
theorem Ready.copies {s : TcpStickyWrap} (h : Ready s) (hfour : 4 ≤ (ahead s).length)
    (hlow : 4 ≤ lenOf (ahead s)) (hhigh : lenOf (ahead s) ≤ packCap) :
    ∃ stale p₁ n p₂ got, s.pack.copyHeader (s.recvBuf.headD []) = .ok (p₁, n) ∧
      p₁.oversize = .ok false ∧
      p₁.copyBody (s.recvBuf.headD []) n =
        .ok (p₂, min (s.recvBuf.headD []).length (lenOf (ahead s) - (pending s).length)) ∧
      p₂.Holding stale got ∧ got.length = min (ahead s).length (lenOf (ahead s)) ∧
      got.take 4 <+: ahead s := by
  obtain ⟨stale, p₁, n, got, hheader, hn, h₁, hpre, hgot⟩ := h.header
  have hlen : (ahead s).length = (pending s).length + (s.recvBuf.headD []).length :=
    List.length_append
  have hpend := h.pending_le_lenOf hlow
  have hhl : p₁.headLen = .ok (lenOf (ahead s)) := by
    rw [headLen_of_holding h₁ (by omega), lenOf_congr hpre (by omega)]
  have hover : p₁.oversize = .ok false := by
    unfold PackDealWith.oversize
    rw [h₁.headSize, h₁.size, h₁.cap, if_pos (by omega), hhl]
    have hle : lenOf (ahead s) ≤ 4096 := hhigh
    simp only [Except.map, Except.ok.injEq, decide_eq_false_iff_not]
    omega
  obtain ⟨p₂, hbody, h₂⟩ := h₁.copyBody (n := n) hhl (by omega) (by omega) h.region (.inl hhigh)
  refine ⟨stale, p₁, n, p₂, _, hheader, hover, ?_, h₂, ?_, ?_⟩
  · rw [hbody]
    congr 2
    omega
  · rw [List.length_append, List.length_take]
    omega
  · rw [List.take_append_of_le_length (by omega)]
    exact (List.take_prefix 4 got).trans hpre

/-! ### A round -/

/-- A delivered packet leaves an empty one behind. -/
theorem ready_delivered {s : TcpStickyWrap} {stale : UInt8} {got : List UInt8}
    (h : s.pack.Holding stale got) (hregions : ∀ r ∈ s.recvBuf, r.length < 65536)
    (msgs : List ServerMsg) :
    Ready { s with msgs := msgs, pack := { s.pack with dataSize := 0 } } where
  holding := ⟨s.pack.pData 1, h.head, h.cap, h.headSize, rfl, rfl, fun _ => rfl⟩
  fits hfour := absurd (show 4 ≤ 0 from hfour) (by decide)
  regions := hregions

/-- A packet that is not delivered is as long as its header allows. -/
theorem ready_unfinished {s : TcpStickyWrap} {stale : UInt8} {got l : List UInt8}
    (h : s.pack.Holding stale got) (hregions : ∀ r ∈ s.recvBuf, r.length < 65536)
    (hpre : got.take 4 <+: l) (hle : got.length ≤ lenOf l) (hhigh : lenOf l ≤ packCap) :
    Ready s where
  holding := ⟨stale, holding_pending h ▸ h⟩
  fits hfour := by
    rw [holding_pending h] at hfour ⊢
    rw [lenOf_of_take hfour hpre]
    exact ⟨hle, hhigh⟩
  regions := hregions

/-- With a whole packet and more before it, a round goes round again: behind the packet if that has
a body, on the spot if not. -/
theorem pass_continues {s : TcpStickyWrap} (h : Ready s) (hc : Continues (ahead s)) (total : ℕ) :
    ∃ s' total', pass (s, total) = .next (s', total') ∧ Ready s' ∧
      (lenOf (ahead s) = 4 → ahead s' = ahead s) ∧
      (4 < lenOf (ahead s) → ahead s' = (ahead s).drop (lenOf (ahead s)) ∧
        s.msgs.length < s'.msgs.length) := by
  obtain ⟨hlow, hhigh, hmore⟩ := hc
  obtain ⟨stale, p₁, n, p₂, got, hheader, hover, hbody, hold, hgot, hhead⟩ :=
    h.copies (by omega) hlow hhigh
  have hlen : (ahead s).length = (pending s).length + (s.recvBuf.headD []).length :=
    List.length_append
  have hpend := h.pending_le_lenOf hlow
  obtain ⟨used, hused⟩ : ∃ used, used = lenOf (ahead s) - (pending s).length := ⟨_, rfl⟩
  rw [← hused, Nat.min_eq_right (by omega)] at hbody
  rw [Nat.min_eq_right hmore.le] at hgot
  -- the region is used up to the end of the packet
  obtain ⟨rest, hbuf⟩ : ∃ rest, s.recvBuf = s.recvBuf.headD [] :: rest := by
    cases hbuf : s.recvBuf with
    | nil =>
      rw [hbuf, List.headD_nil, List.length_nil] at hlen
      omega
    | cons r rest => exact ⟨rest, by rw [List.headD_cons]⟩
  have hadjust : (adjustReadSize s.recvBuf used).headD [] = (ahead s).drop (lenOf (ahead s)) := by
    have hdrop : (ahead s).drop (lenOf (ahead s)) = (s.recvBuf.headD []).drop used := by
      unfold ahead at hpend hused ⊢
      rw [List.drop_append, List.drop_of_length_le hpend, List.nil_append, hused]
    rw [hdrop, hbuf]
    simp only [adjustReadSize, List.headD_cons]
    rw [if_pos (by omega), List.headD_cons]
  have hregions := adjustReadSize_lt h.regions used
  have hlenOf : lenOf got = lenOf (ahead s) := lenOf_of_take (by omega) hhead
  let s₂ : TcpStickyWrap := { s with pack := p₂, recvBuf := adjustReadSize s.recvBuf used
                                     decided := s.decided ++ [p₁.dataSize] }
  obtain ⟨id, hfinish⟩ := finishPack_holding (s := s₂) hold
  have hpass := pass_of_copies total hheader hover hbody hfinish
  rw [if_neg (by omega)] at hpass
  refine ⟨_, _, hpass, ?_, ?_, ?_⟩
  · split
    · exact ready_delivered hold hregions _
    · exact ready_unfinished (s := s₂) hold hregions hhead hgot.le hhigh
  · intro hheaderOnly
    rw [if_neg (by omega)]
    have hall : got = (ahead s).take (lenOf (ahead s)) := by
      rw [hheaderOnly] at hgot ⊢
      rw [List.take_of_length_le hgot.le] at hhead
      rw [← hgot]
      exact List.prefix_iff_eq_take.1 hhead
    show pending s₂ ++ (adjustReadSize s.recvBuf used).headD [] = ahead s
    rw [holding_pending (s := s₂) hold, hadjust, hall, List.take_append_drop]
  · intro hbodied
    rw [if_pos ⟨by omega, by omega⟩]
    constructor
    · show [] ++ (adjustReadSize s.recvBuf used).headD [] = _
      rw [hadjust, List.nil_append]
    · show s.msgs.length < (s.msgs ++ [_]).length
      rw [List.length_append]
      exact Nat.lt_succ_self _

/-- A round whose copy length is negative. -/
theorem pass_negative {s : TcpStickyWrap} {stale : UInt8} {p : PackDealWith} {n hl total : ℕ}
    {got : List UInt8} (hheader : s.pack.copyHeader (s.recvBuf.headD []) = .ok (p, n))
    (hover : p.oversize = .ok false) (hold : p.Holding stale got) (hlen : p.headLen = .ok hl)
    (hlow : hl < got.length) (hn : n ≤ (s.recvBuf.headD []).length) :
    ∃ e, pass (s, total) = .fault e := by
  obtain ⟨e, hbody⟩ := copyBody_negative hold hlen hlow hn
  refine ⟨e, ?_⟩
  unfold TcpStickyWrap.pass
  simp only [hheader, hover, hbody]

/-- A round that uses up its region leaves the loop. -/
theorem pass_used {s : TcpStickyWrap} {stale : UInt8} {p₁ p₂ : PackDealWith} {n total : ℕ}
    {got : List UInt8} (hregions : ∀ r ∈ s.recvBuf, r.length < 65536)
    (hheader : s.pack.copyHeader (s.recvBuf.headD []) = .ok (p₁, n))
    (hover : p₁.oversize = .ok false)
    (hbody : p₁.copyBody (s.recvBuf.headD []) n = .ok (p₂, (s.recvBuf.headD []).length))
    (hold : p₂.Holding stale got)
    (hfits : 4 ≤ got.length → got.length ≤ lenOf got ∧ lenOf got ≤ packCap) :
    ∃ r s', pass (s, total) = .done (r, s') ∧ (r = -1 ∨ Ready s') := by
  let s₂ : TcpStickyWrap :=
    { s with pack := p₂, recvBuf := adjustReadSize s.recvBuf (s.recvBuf.headD []).length
             decided := s.decided ++ [p₁.dataSize] }
  have hregions₂ := adjustReadSize_lt hregions (s.recvBuf.headD []).length
  obtain ⟨id, hfinish⟩ := finishPack_holding (s := s₂) hold
  have hpass := pass_of_copies total hheader hover hbody hfinish
  rw [if_pos le_rfl] at hpass
  refine ⟨_, _, hpass, .inr ?_⟩
  split
  · exact ready_delivered hold hregions₂ _
  · refine ⟨⟨stale, holding_pending (s := s₂) hold ▸ hold⟩, ?_, hregions₂⟩
    rw [holding_pending (s := s₂) hold]
    exact hfits

/-- Otherwise it leaves the loop. -/
theorem pass_leaves {s : TcpStickyWrap} (h : Ready s) (hc : ¬ Continues (ahead s)) (total : ℕ) :
    (∃ e, pass (s, total) = .fault e) ∨
      ∃ r s', pass (s, total) = .done (r, s') ∧ (r = -1 ∨ Ready s') := by
  have hlen : (ahead s).length = (pending s).length + (s.recvBuf.headD []).length :=
    List.length_append
  obtain ⟨stale, p₁, n, got, hheader, hn, h₁, hpre, hgot⟩ := h.header
  by_cases hfour : 4 ≤ (ahead s).length
  · have hhl : p₁.headLen = .ok (lenOf (ahead s)) := by
      rw [headLen_of_holding h₁ (by omega), lenOf_congr hpre (by omega)]
    have hover : p₁.oversize = .ok (decide (packCap < lenOf (ahead s))) := by
      unfold PackDealWith.oversize
      rw [h₁.headSize, h₁.size, h₁.cap, if_pos (by omega), hhl]
      rfl
    -- a length above the capacity makes `readData` return, one below the header size faults
    by_cases hhigh : lenOf (ahead s) ≤ packCap
    · by_cases hlow : 4 ≤ lenOf (ahead s)
      · -- the packet takes all there is
        have hall : (ahead s).length ≤ lenOf (ahead s) := by
          by_contra hmore
          exact hc ⟨hlow, hhigh, by omega⟩
        obtain ⟨stale, p₁, n, p₂, got, hheader, hover, hbody, hold, hgot, hhead⟩ :=
          h.copies hfour hlow hhigh
        rw [Nat.min_eq_left hall] at hgot
        rw [Nat.min_eq_left (by omega)] at hbody
        refine .inr (pass_used h.regions hheader hover hbody hold fun hgot4 => ?_)
        rw [lenOf_of_take hgot4 hhead, hgot]
        exact ⟨hall, hhigh⟩
      · rw [decide_eq_false (by omega)] at hover
        exact .inl (pass_negative hheader hover h₁ hhl (by omega) (by omega))
    · have hthere : p₁.headSize ≤ p₁.dataSize := by
        rw [h₁.headSize, h₁.size]
        omega
      obtain ⟨s', hpass⟩ := rejectsOversize s total p₁ n _ hheader hthere hhl
        (by rw [h₁.cap]; exact Nat.not_le.1 hhigh)
      exact .inr ⟨-1, s', hpass, .inl rfl⟩
  · -- the header is not complete, and the region is used up by it
    have hover : p₁.oversize = .ok false := by
      unfold PackDealWith.oversize
      rw [h₁.headSize, h₁.size, if_neg (by omega)]
    obtain ⟨hl, hhl⟩ := headLen_ok h₁
    by_cases hlow : hl < got.length
    · exact .inl (pass_negative hheader hover h₁ hhl hlow (by omega))
    · obtain ⟨p₂, hbody, hold⟩ := h₁.copyBody (n := n) hhl (by omega) (by omega) h.region
        (.inr ⟨by omega, by omega⟩)
      have hzero : min ((s.recvBuf.headD []).length - n) (hl - got.length) = 0 := by omega
      have hall : n = (s.recvBuf.headD []).length := by omega
      rw [hzero, Nat.add_zero] at hbody
      rw [hzero, List.take_zero, List.append_nil] at hold
      rw [hall] at hbody hheader
      exact .inr (pass_used h.regions hheader hover hbody hold fun hbig => by omega)

/-! ### Runs -/

/-- Segments are received, and the `readData` after them returns and does not fail. -/
def Receives (s : TcpStickyWrap) (segs : List Segment) (s' : TcpStickyWrap) : Prop :=
  ∃ fuel r, Loop.iter pass fuel ({ s with recvBuf := s.recvBuf ++ segs.map Segment.bytes }, 0) =
    some (.ok (r, s')) ∧ r ≠ -1

/-- A connection whose `_head` is the view of the first bytes of `_pData`; any number of segments
is received before each `readData`. -/
def receiver (m : ℕ → UInt8) : LTS TcpStickyWrap (List Segment) where
  init s := s = new (some 0) m
  step := Receives

theorem new_ready (m : ℕ → UInt8) : Ready (new (some 0) m) where
  holding := ⟨m 1, new_holding m⟩
  fits hfour := absurd (show 4 ≤ 0 from hfour) (by decide)
  regions := fun _ hr => absurd hr List.not_mem_nil

theorem Ready.receive {s : TcpStickyWrap} (h : Ready s) (segs : List Segment) :
    Ready { s with recvBuf := s.recvBuf ++ segs.map Segment.bytes } where
  holding := h.holding
  fits := h.fits
  regions := by
    intro r hr
    rcases List.mem_append.1 hr with hr | hr
    · exact h.regions r hr
    · obtain ⟨seg, -, rfl⟩ := List.mem_map.1 hr
      exact seg.fits

/-- A loop that is left without failing leaves the connection ready for the next segments. -/
theorem Ready.step {s s' : TcpStickyWrap} {segs : List Segment} (h : Ready s)
    (hstep : Receives s segs s') : Ready s' := by
  obtain ⟨fuel, r, hread, hr⟩ := hstep
  let Q : Except PackFault (ℤ × TcpStickyWrap) → Prop := fun out =>
    ∀ r s', out = .ok (r, s') → r = -1 ∨ Ready s'
  have hQ : Q (.ok (r, s')) := by
    refine Loop.Ends.of_invariant (fun x => Ready x.1) Q ?_ ?_ ?_ (h.receive segs) ⟨fuel, hread⟩
    · rintro ⟨t, total⟩ ⟨t', total'⟩ ht hb
      by_cases hc : Continues (ahead t)
      · obtain ⟨u, _, hnext, hu, -⟩ := pass_continues ht hc total
        rw [hb] at hnext
        cases hnext
        exact hu
      · rcases pass_leaves ht hc total with ⟨e, hfault⟩ | ⟨r, u, hdone, -⟩
        · rw [hb] at hfault
          cases hfault
        · rw [hb] at hdone
          cases hdone
    · rintro ⟨t, total⟩ out ht hb r u hout
      cases hout
      by_cases hc : Continues (ahead t)
      · obtain ⟨_, _, hnext, -⟩ := pass_continues ht hc total
        rw [hb] at hnext
        cases hnext
      · rcases pass_leaves ht hc total with ⟨e, hfault⟩ | ⟨_, _, hdone, hu⟩
        · rw [hb] at hfault
          cases hfault
        · rw [hb] at hdone
          cases hdone
          exact hu
    · rintro _ _ _ _ _ _ ⟨⟩
  exact (hQ r s' rfl).resolve_left hr

theorem reachable_ready {m : ℕ → UInt8} {s : TcpStickyWrap} (h : (receiver m).Reachable s) :
    Ready s :=
  h.invariant (fun _ h₀ => h₀ ▸ new_ready m) fun _ _ _ hs hstep => hs.step hstep

/-! ### The result -/

/-- The unread bytes of the receive buffer. -/
def unread (s : TcpStickyWrap) : ℕ := s.recvBuf.flatten.length

/-- `readData` returns, and every round that does not leave the loop takes a byte or completes a
packet. -/
def Returns (s : TcpStickyWrap) : Prop :=
  (∃ out, Loop.Ends pass (s, 0) out) ∧
    ∀ x y, Loop.Visits pass (s, 0) x → pass x = .next y →
      unread y.1 < unread x.1 ∨ x.1.msgs.length < y.1.msgs.length

/-- A stalled loop goes round again and stays stalled. -/
theorem pass_stalled {x : TcpStickyWrap × ℕ} (h : Ready x.1) (hst : Stalled (ahead x.1)) :
    ∃ y, pass x = .next y ∧ Ready y.1 ∧ Stalled (ahead y.1) := by
  obtain ⟨s', total', hnext, hs', hsame, hbehind⟩ := pass_continues h hst.continues x.2
  refine ⟨(s', total'), hnext, hs', ?_⟩
  cases hst with
  | here len more =>
    rw [hsame len]
    exact .here len more
  | later low high rest =>
    rw [(hbehind low).1]
    exact rest

/-- A round of a loop that is not stalled, if it goes round again, has delivered a packet. -/
theorem pass_free {x y : TcpStickyWrap × ℕ} (h : Ready x.1) (hfree : ¬ Stalled (ahead x.1))
    (hb : pass x = .next y) :
    Ready y.1 ∧ ¬ Stalled (ahead y.1) ∧ (ahead y.1).length < (ahead x.1).length ∧
      x.1.msgs.length < y.1.msgs.length := by
  by_cases hc : Continues (ahead x.1)
  · obtain ⟨s', total', hnext, hs', -, hbehind⟩ := pass_continues h hc x.2
    rw [show pass x = .next (s', total') from hnext] at hb
    cases hb
    have hlow : 4 < lenOf (ahead x.1) := by
      refine lt_of_le_of_ne hc.1 fun heq => hfree (.here heq.symm ?_)
      rw [heq]
      exact hc.2.2
    obtain ⟨hdrop, hmsgs⟩ := hbehind hlow
    have hmore := hc.2.2
    refine ⟨hs', fun hst => ?_, ?_, hmsgs⟩
    · rw [hdrop] at hst
      exact hfree (.later hlow hc.2.1 hst)
    · rw [hdrop, List.length_drop]
      omega
  · rcases pass_leaves h hc x.2 with ⟨e, hfault⟩ | ⟨_, _, hdone, -⟩
    · rw [show pass x = .fault e from hfault] at hb
      cases hb
    · rw [show pass x = .done _ from hdone] at hb
      cases hb

theorem ends_iff_not_stalled {s : TcpStickyWrap} (h : Ready s) :
    (∃ out, Loop.Ends pass (s, 0) out) ↔ ¬ Stalled (ahead s) := by
  refine Loop.ends_iff pass (fun x => Ready x.1) (fun x => Stalled (ahead x.1))
    (fun x => (ahead x.1).length) ?_ ?_ h
  · exact fun x hx hst => pass_stalled hx hst
  · intro x hx hfree y hb
    obtain ⟨hy, hfree', hlt, -⟩ := pass_free hx hfree hb
    exact ⟨hy, hfree', hlt⟩

/-- In every reachable state and for everything the receive buffer may hold, `readData` returns, with
progress in every round, exactly if the loop does not come to a packet that is only a header and has
a byte behind it. -/
theorem readData_returns_iff (m : ℕ → UInt8) {s : TcpStickyWrap} (h : (receiver m).Reachable s)
    (segs : List Segment) :
    Returns { s with recvBuf := s.recvBuf ++ segs.map Segment.bytes } ↔
      ¬ Stalled (ahead { s with recvBuf := s.recvBuf ++ segs.map Segment.bytes }) := by
  have hready := (reachable_ready h).receive segs
  constructor
  · rintro ⟨hends, -⟩
    exact (ends_iff_not_stalled hready).1 hends
  · intro hfree
    refine ⟨(ends_iff_not_stalled hready).2 hfree, fun x y hx hb => .inr ?_⟩
    have hinv : Ready x.1 ∧ ¬ Stalled (ahead x.1) := by
      refine hx.invariant (I := fun x => Ready x.1 ∧ ¬ Stalled (ahead x.1)) ?_ ⟨hready, hfree⟩
      rintro u v ⟨hu, hfr⟩ huv
      obtain ⟨hv, hfr', -⟩ := pass_free hu hfr huv
      exact ⟨hv, hfr'⟩
    exact (pass_free hinv.1 hinv.2 hb).2.2.2

/-- A fresh connection and a packet with one body byte. -/
theorem readData_returns_iff_sample :
    Returns { new (some 0) (fun _ => 0) with recvBuf := [[5, 0, 1, 0, 7]] } := by
  refine (readData_returns_iff (fun _ => 0) ⟨_, [], rfl, .nil _⟩
    [⟨[5, 0, 1, 0, 7], by decide, by decide⟩]).2 fun hst => ?_
  exact absurd hst.continues.2.2 (by decide)

/-- A fresh connection and a packet that is only a header, with one byte behind it. -/
theorem header_only_hangs :
    (receiver fun _ => 0).Reachable (new (some 0) fun _ => 0) ∧
      ∀ fuel, (new (some 0) fun _ => 0).readData fuel [4, 0, 1, 0, 5] = none := by
  refine ⟨⟨_, [], rfl, .nil _⟩, Loop.diverges_of_not_ends fun hends => ?_⟩
  have hready := (new_ready fun _ => 0).receive [⟨[4, 0, 1, 0, 5], by decide, by decide⟩]
  exact (ends_iff_not_stalled hready).1 hends (.here (by decide) (by decide))

end Tcp
end NetService
