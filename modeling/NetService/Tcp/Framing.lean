import NetService.Tcp.Unread

/-!
# Packet boundaries

The bytes of a packet that was cut are not copied as they are, but its header is, and with it the
length at which the packet ends.  `Splits` cuts what a connection has read at the length fields, into
whole packets and an unfinished one.  `messages_framed` says that the calls of `MakeServerMsg` follow
it, whatever the bytes are and however they arrive.

A `readData` may also fault, fail or go round for ever.  `Refused` says for which bytes it does; it
returns for all others.
-/

namespace NetService
namespace Tcp

open TcpStickyWrap PackDealWith Memory

/-- `_msgId` of the header in `l`. -/
def idOf (l : List UInt8) : ℕ := (l.getD 2 0).toNat + 256 * (l.getD 3 0).toNat

/-- As long as `l`, with the header of `l`. -/
structure Alike (got l : List UInt8) : Prop where
  length : got.length = l.length
  header : got.take 4 = l.take 4

theorem Alike.refl (l : List UInt8) : Alike l l := ⟨rfl, rfl⟩

theorem Alike.trans {l₁ l₂ l₃ : List UInt8} (h : Alike l₁ l₂) (h' : Alike l₂ l₃) : Alike l₁ l₃ :=
  ⟨h.length.trans h'.length, h.header.trans h'.header⟩

theorem Alike.append {got l : List UInt8} (h : Alike got l) (r : List UInt8) :
    Alike (got ++ r) (l ++ r) where
  length := by rw [List.length_append, List.length_append, h.length]
  header := by rw [List.take_append, List.take_append, h.header, h.length]

theorem Alike.take {got l : List UInt8} (h : Alike got l) (n : ℕ) :
    Alike (got.take n) (l.take n) where
  length := by rw [List.length_take, List.length_take, h.length]
  header := by rw [List.take_take, List.take_take, min_comm, ← List.take_take, h.header,
    List.take_take]

/-- A byte of the header. -/
theorem Alike.getD {got l : List UInt8} (h : Alike got l) {k : ℕ} (hk : k < 4) :
    got.getD k 0 = l.getD k 0 := by
  rw [List.getD_eq_getElem?_getD, List.getD_eq_getElem?_getD, ← List.getElem?_take_of_lt hk,
    h.header, List.getElem?_take_of_lt hk]

theorem Alike.lenOf {got l : List UInt8} (h : Alike got l) : lenOf got = lenOf l := by
  unfold Tcp.lenOf
  rw [h.getD (by decide), h.getD (by decide)]

theorem Alike.idOf {got l : List UInt8} (h : Alike got l) : idOf got = idOf l := by
  unfold Tcp.idOf
  rw [h.getD (by decide), h.getD (by decide)]

/-! ### A round -/

/-- The message id, once the header is there. -/
theorem headMsgId_of_holding {p : PackDealWith} {stale : UInt8} {got : List UInt8}
    (h : p.Holding stale got) (hfour : 4 ≤ got.length) : p.headMsgId = .ok (idOf got) := by
  have h2 := h.getElem? (k := 2) (by omega)
  have h3 := h.getElem? (k := 3) (by omega)
  unfold PackDealWith.headMsgId idOf
  rw [h.head]
  simp only [List.getD_eq_getElem?_getD, h2, h3, Option.getD_some, Nat.zero_add]

/-- The end of a round. -/
theorem finishPack_eq {s : TcpStickyWrap} {stale : UInt8} {got : List UInt8}
    (h : s.pack.Holding stale got) :
    finishPack s = .ok (if 4 < got.length ∧ lenOf got = got.length then
      { s with msgs := s.msgs ++ [⟨idOf got, got⟩], pack := { s.pack with dataSize := 0 } }
      else s) := by
  unfold finishPack
  rw [h.headSize, h.size]
  by_cases hfour : 4 < got.length
  · rw [if_pos hfour, headLen_of_holding h (by omega), headMsgId_of_holding h (by omega)]
    by_cases hfull : lenOf got = got.length
    · simp only [hfull, hfour, true_and, if_true, h.data]
    · simp only [hfull, and_false, if_false]
  · rw [if_neg hfour, if_neg (fun hc => hfour hc.1)]

/-- With two bytes there, nothing is left over at index 1. -/
theorem holding_of_two {p : PackDealWith} {stale stale' : UInt8} {got : List UInt8}
    (h : p.Holding stale got) (htwo : 2 ≤ got.length) : p.Holding stale' got :=
  ⟨h.head, h.cap, h.headSize, h.size, h.data, fun hlt => absurd hlt (by omega)⟩

/-- A delivered packet leaves its second byte at index 1. -/
theorem holding_delivered {p : PackDealWith} {stale : UInt8} {got : List UInt8}
    (h : p.Holding stale got) (htwo : 2 ≤ got.length) :
    Holding { p with dataSize := 0 } (got.getD 1 0) [] := by
  refine ⟨h.head, h.cap, h.headSize, rfl, rfl, fun _ => ?_⟩
  rw [List.getD_eq_getElem?_getD, h.getElem? (by omega), Option.getD_some]

/-- What a round takes of the region, when a possible length is before it. -/
def used (s : TcpStickyWrap) : ℕ :=
  min (s.recvBuf.headD []).length (lenOf (ahead s) - (pending s).length)

/-- What such a round leaves behind: a whole packet with a body is delivered, another one is kept. -/
structure Taken (s s' : TcpStickyWrap) : Prop where
  recvBuf : s'.recvBuf = adjustReadSize s.recvBuf (used s)
  ready : Ready s'
  whole : 4 < lenOf (ahead s) → lenOf (ahead s) ≤ (ahead s).length →
    s'.pack.Holding ((ahead s).getD 1 0) [] ∧
    ∃ got, s'.msgs = s.msgs ++ [⟨idOf (ahead s), got⟩] ∧
      Alike got ((ahead s).take (lenOf (ahead s)))
  part : ¬ (4 < lenOf (ahead s) ∧ lenOf (ahead s) ≤ (ahead s).length) →
    s'.msgs = s.msgs ∧ Alike (pending s') ((ahead s).take (lenOf (ahead s))) ∧
    ∀ stale, s'.pack.Holding stale (pending s')

/-- A round that has a header with a possible length before it. -/
theorem Ready.round {s : TcpStickyWrap} (h : Ready s) (hfour : 4 ≤ (ahead s).length)
    (hlow : 4 ≤ lenOf (ahead s)) (hhigh : lenOf (ahead s) ≤ packCap) (total : ℕ) :
    ∃ s', Taken s s' ∧
      pass (s, total) =
        if (s.recvBuf.headD []).length ≤ used s then .done ((total : ℤ) + (used s : ℤ), s')
        else .next (s', total + used s) := by
  obtain ⟨stale, p₁, n, p₂, got, hheader, hover, hbody, hold, hgot, hhead⟩ :=
    h.copies hfour hlow hhigh
  have hregions := adjustReadSize_lt h.regions (used s)
  let s₂ : TcpStickyWrap := { s with pack := p₂, recvBuf := adjustReadSize s.recvBuf (used s)
                                     decided := s.decided ++ [p₁.dataSize] }
  have hfinish := finishPack_eq (s := s₂) hold
  have hlike : Alike got ((ahead s).take (lenOf (ahead s))) := by
    refine ⟨by rw [hgot, List.length_take, min_comm], ?_⟩
    rw [List.take_take, min_eq_left hlow]
    have heq := List.prefix_iff_eq_take.1 hhead
    rwa [List.length_take, min_eq_left (by omega)] at heq
  have hlen : lenOf got = lenOf (ahead s) := lenOf_of_take (by omega) hhead
  have hid : idOf got = idOf (ahead s) := by
    rw [hlike.idOf]
    unfold idOf
    simp only [List.getD_eq_getElem?_getD]
    rw [List.getElem?_take_of_lt (by omega), List.getElem?_take_of_lt (by omega)]
  have hone : got.getD 1 0 = (ahead s).getD 1 0 := by
    rw [hlike.getD (by decide), List.getD_eq_getElem?_getD, List.getD_eq_getElem?_getD,
      List.getElem?_take_of_lt (by omega)]
  by_cases hwhole : 4 < lenOf (ahead s) ∧ lenOf (ahead s) ≤ (ahead s).length
  · rw [if_pos ⟨by omega, by omega⟩] at hfinish
    have hpass := pass_of_copies total hheader hover hbody hfinish
    refine ⟨_, ⟨rfl, ready_delivered (s := s₂) hold hregions _, fun _ _ => ⟨?_, got, ?_, hlike⟩,
      fun hpart => absurd hwhole hpart⟩, hpass⟩
    · rw [← hone]
      exact holding_delivered hold (by omega)
    · rw [← hid]
  · rw [if_neg (by omega)] at hfinish
    have hpass := pass_of_copies total hheader hover hbody hfinish
    have hpend : pending s₂ = got := holding_pending hold
    refine ⟨s₂, ⟨rfl, ?_, fun h₁ h₂ => absurd ⟨h₁, h₂⟩ hwhole, fun _ => ⟨rfl, hpend ▸ hlike, ?_⟩⟩,
      hpass⟩
    · exact ready_unfinished (s := s₂) hold hregions hhead (by omega) hhigh
    · rw [hpend]
      exact fun _ => holding_of_two hold (by omega)

/-- A round that has a header with an impossible length before it. -/
theorem Ready.round_impossible {s : TcpStickyWrap} (h : Ready s) (hfour : 4 ≤ (ahead s).length)
    (hlen : lenOf (ahead s) < 4 ∨ packCap < lenOf (ahead s)) (total : ℕ) :
    (∃ e, pass (s, total) = .fault e) ∨ ∃ s', pass (s, total) = .done (-1, s') := by
  obtain ⟨stale, p, n, got, hheader, hn, hold, hpre, hgot⟩ := h.header
  have hhl : p.headLen = .ok (lenOf (ahead s)) := by
    rw [headLen_of_holding hold (by omega), lenOf_congr hpre (by omega)]
  have hover : p.oversize = .ok (decide (packCap < lenOf (ahead s))) := by
    unfold PackDealWith.oversize
    rw [hold.headSize, hold.size, hold.cap, if_pos (by omega), hhl]
    rfl
  by_cases hhigh : packCap < lenOf (ahead s)
  · have hthere : p.headSize ≤ p.dataSize := by
      rw [hold.headSize, hold.size]
      omega
    exact .inr (rejectsOversize s total p n _ hheader hthere hhl (by rwa [hold.cap]))
  · rw [decide_eq_false hhigh] at hover
    exact .inl (pass_negative hheader hover hold hhl (by omega) (by omega))

/-- A round that uses up its region before the header is there. -/
theorem Ready.round_short {s : TcpStickyWrap} (h : Ready s) {stale : UInt8}
    (hold : s.pack.Holding stale (pending s)) (hshort : (ahead s).length < 4) (total : ℕ) :
    ∃ (p : PackDealWith) (hl : ℕ), p.Holding stale (ahead s) ∧ p.headLen = .ok hl ∧
      (hl < (ahead s).length → ∃ e, pass (s, total) = .fault e) ∧
      ((ahead s).length ≤ hl → ∃ s', pass (s, total) =
          .done ((total : ℤ) + ((s.recvBuf.headD []).length : ℤ), s') ∧
        s'.recvBuf = adjustReadSize s.recvBuf (s.recvBuf.headD []).length ∧ s'.msgs = s.msgs ∧
        Ready s' ∧ s'.pack.Holding stale (ahead s)) := by
  have hlen : (ahead s).length = (pending s).length + (s.recvBuf.headD []).length :=
    List.length_append
  obtain ⟨p, hheader, hp⟩ := hold.copyHeader h.pending_le (s.recvBuf.headD [])
  rw [Nat.min_eq_left (by omega)] at hheader
  rw [List.take_of_length_le (by omega)] at hp
  have hhold : p.Holding stale (ahead s) := hp
  have hover : p.oversize = .ok false := by
    unfold PackDealWith.oversize
    rw [hhold.headSize, hhold.size, if_neg (by omega)]
  obtain ⟨hl, hhl⟩ := headLen_ok hhold
  refine ⟨p, hl, hhold, hhl, fun hlow => pass_negative hheader hover hhold hhl hlow le_rfl,
    fun hle => ?_⟩
  obtain ⟨p₂, hbody, hold₂⟩ := hhold.copyBody (n := (s.recvBuf.headD []).length) hhl hle le_rfl
    h.region (.inr ⟨rfl, by omega⟩)
  rw [Nat.sub_self, Nat.zero_min, Nat.add_zero] at hbody
  rw [Nat.sub_self, Nat.zero_min, List.take_zero, List.append_nil] at hold₂
  have hregions := adjustReadSize_lt h.regions (s.recvBuf.headD []).length
  let s₂ : TcpStickyWrap :=
    { s with pack := p₂, recvBuf := adjustReadSize s.recvBuf (s.recvBuf.headD []).length
             decided := s.decided ++ [p.dataSize] }
  have hfinish := finishPack_eq (s := s₂) hold₂
  rw [if_neg (by omega)] at hfinish
  have hpass := pass_of_copies total hheader hover hbody hfinish
  rw [if_pos le_rfl] at hpass
  have hpend : pending s₂ = ahead s := holding_pending hold₂
  refine ⟨s₂, hpass, rfl, rfl, ⟨⟨stale, hpend ▸ hold₂⟩, fun hfour => ?_, hregions⟩, hold₂⟩
  rw [hpend] at hfour
  omega

/-! ### Where the packets end -/

/-- A packet with a body, and nothing else. -/
structure Whole (p : List UInt8) : Prop where
  len : lenOf p = p.length
  body : 4 < p.length
  cap : p.length ≤ packCap

/-- The first bytes of a packet with which `readData` may return; `stale` is the byte left at
index 1. -/
structure Unfinished (stale : UInt8) (l : List UInt8) : Prop where
  fits : 2 ≤ l.length → l.length ≤ lenOf l
  cap : 4 ≤ l.length → lenOf l ≤ packCap
  bare : lenOf l = l.length → l.length ≤ 4
  lone : l = [0] → stale ≠ 0

/-- `l` is the packets `parts`, and an unfinished one. -/
inductive Splits : UInt8 → List UInt8 → List (List UInt8) → UInt8 → List UInt8 → Prop
  | rest {stale : UInt8} {l : List UInt8} (h : Unfinished stale l) : Splits stale l [] stale l
  | whole {stale stale' : UInt8} {p l rest : List UInt8} {parts : List (List UInt8)} (h : Whole p)
      (hrest : Splits (p.getD 1 0) l parts stale' rest) :
      Splits stale (p ++ l) (p :: parts) stale' rest

/-- Bytes with which `readData` does not return, or fails. -/
inductive Refused : UInt8 → List UInt8 → Prop
  /-- the copy length is taken from a length of which the second byte has not arrived -/
  | lone : Refused 0 [0]
  /-- the copy length is negative -/
  | low {stale : UInt8} {l : List UInt8} (two : 2 ≤ l.length) (len : lenOf l < min l.length 4) :
      Refused stale l
  /-- the packet is too long -/
  | high {stale : UInt8} {l : List UInt8} (four : 4 ≤ l.length) (len : packCap < lenOf l) :
      Refused stale l
  /-- the loop does not come past a packet without a body -/
  | stall {stale : UInt8} {l : List UInt8} (len : lenOf l = 4) (more : 4 < l.length) :
      Refused stale l
  | later {stale : UInt8} {l : List UInt8} (low : 4 < lenOf l) (high : lenOf l ≤ packCap)
      (rest : Refused (l.getD 1 0) (l.drop (lenOf l))) : Refused stale l

theorem unfinished_nil (stale : UInt8) : Unfinished stale [] :=
  ⟨fun h => absurd h (by decide), fun h => absurd h (by decide), fun _ => by decide, nofun⟩

theorem Refused.ne_nil {stale : UInt8} {l : List UInt8} (h : Refused stale l) : l ≠ [] := by
  rintro rfl
  cases h with
  | low two _ => exact absurd two (by decide)
  | high four _ => exact absurd four (by decide)
  | stall _ more => exact absurd more (by decide)
  | later low _ _ => exact absurd low (by decide)

theorem Whole.lenOf_append {p : List UInt8} (h : Whole p) (l : List UInt8) :
    lenOf (p ++ l) = p.length := by
  have hbody := h.body
  rw [lenOf_congr (List.prefix_append p l) (by omega), h.len]

/-- Behind a whole packet bytes are refused as they are by themselves. -/
theorem Whole.refused_iff {p : List UInt8} (h : Whole p) (stale : UInt8) (l : List UInt8) :
    Refused stale (p ++ l) ↔ Refused (p.getD 1 0) l := by
  have hbody := h.body
  have hlen := h.lenOf_append l
  have hone : (p ++ l).getD 1 0 = p.getD 1 0 := by
    rw [List.getD_eq_getElem?_getD, List.getElem?_append_left (by omega),
      ← List.getD_eq_getElem?_getD]
  constructor
  · intro hrefused
    generalize hl : p ++ l = l' at hrefused hlen hone
    have hlength := congrArg List.length hl
    rw [List.length_append] at hlength
    cases hrefused with
    | lone =>
      rw [List.length_singleton] at hlength
      omega
    | low _ hlow => omega
    | high _ hhigh => exact absurd h.cap (by omega)
    | stall hfour _ => omega
    | later _ _ hrest => rwa [hone, hlen, ← hl, List.drop_left] at hrest
  · intro hrefused
    have hcap := h.cap
    refine .later (by omega) (by omega) ?_
    rwa [hone, hlen, List.drop_left]

/-- Bytes behind those that are split are refused as they are behind what is left of them. -/
theorem Splits.refused_iff {stale stale' : UInt8} {l rest : List UInt8} {parts : List (List UInt8)}
    (h : Splits stale l parts stale' rest) (l' : List UInt8) :
    Refused stale (l ++ l') ↔ Refused stale' (rest ++ l') := by
  induction h with
  | rest => rfl
  | whole hp _ ih => rw [List.append_assoc, hp.refused_iff, ih]

/-- The first bytes of a packet are not refused. -/
theorem Unfinished.not_refused {stale : UInt8} {l : List UInt8} (h : Unfinished stale l) :
    ¬ Refused stale l := by
  intro hrefused
  cases hrefused with
  | lone => exact h.lone rfl rfl
  | low two len =>
    have hfits := h.fits two
    omega
  | high four len => exact absurd (h.cap four) (Nat.not_le.2 len)
  | stall len more =>
    have hfits := h.fits (by omega)
    omega
  | later low _ hrest =>
    have hpos := List.length_pos_iff.2 hrest.ne_nil
    rw [List.length_drop] at hpos
    have hfits := h.fits (by omega)
    omega

/-- Bytes that are split are not refused. -/
theorem Splits.not_refused {stale stale' : UInt8} {l rest : List UInt8} {parts : List (List UInt8)}
    (h : Splits stale l parts stale' rest) : ¬ Refused stale l := by
  induction h with
  | rest hu => exact hu.not_refused
  | whole hp _ ih => rwa [hp.refused_iff]

/-- Bytes behind those that are split are split with what is left of them. -/
theorem Splits.append {stale stale' stale'' : UInt8} {l rest l' rest' : List UInt8}
    {parts parts' : List (List UInt8)} (h : Splits stale l parts stale' rest)
    (h' : Splits stale' (rest ++ l') parts' stale'' rest') :
    Splits stale (l ++ l') (parts ++ parts') stale'' rest' := by
  induction h with
  | rest => exact h'
  | whole hp _ ih =>
    rw [List.append_assoc, List.cons_append]
    exact .whole hp (ih h')

/-- The packets and the rest are all of the bytes. -/
theorem Splits.flatten {stale stale' : UInt8} {l rest : List UInt8} {parts : List (List UInt8)}
    (h : Splits stale l parts stale' rest) : l = parts.flatten ++ rest := by
  induction h with
  | rest => rfl
  | whole _ _ ih => rw [List.flatten_cons, List.append_assoc, ← ih]

theorem Splits.unfinished {stale stale' : UInt8} {l rest : List UInt8} {parts : List (List UInt8)}
    (h : Splits stale l parts stale' rest) :
    (∀ p ∈ parts, Whole p) ∧ Unfinished stale' rest := by
  induction h with
  | rest hu => exact ⟨fun p hp => absurd hp List.not_mem_nil, hu⟩
  | whole hp _ ih => exact ⟨List.forall_mem_cons.2 ⟨hp, ih.1⟩, ih.2⟩

/-! ### The rounds of a `readData` -/

/-- A call of `MakeServerMsg` for the packet `p`. -/
structure Delivers (msg : ServerMsg) (p : List UInt8) : Prop where
  msgId : msg.msgId = idOf p
  data : Alike msg.data p

/-- `s'` has delivered the packets of `l`, which `s` had before it, and holds the rest. -/
structure Advances (s s' : TcpStickyWrap) (stale : UInt8) (l : List UInt8) : Prop where
  ready : Ready s'
  recvBuf : s'.recvBuf = s.recvBuf.tail
  splits : ∃ parts stale' rest ms, Splits stale l parts stale' rest ∧ s'.msgs = s.msgs ++ ms ∧
    List.Forall₂ Delivers ms parts ∧ Alike (pending s') rest ∧
    s'.pack.Holding stale' (pending s')

/-- A round behind which nothing is delivered. -/
theorem Advances.rest {s s' : TcpStickyWrap} {stale : UInt8} {l : List UInt8} (h : Ready s')
    (hbuf : s'.recvBuf = s.recvBuf.tail) (hmsgs : s'.msgs = s.msgs) (hu : Unfinished stale l)
    (hlike : Alike (pending s') l) (hold : s'.pack.Holding stale (pending s')) :
    Advances s s' stale l :=
  ⟨h, hbuf, [], stale, l, [], .rest hu, by rw [hmsgs, List.append_nil], .nil, hlike, hold⟩

/-- A packet that is whole at the beginning of the bytes. -/
theorem Whole.of_take {l : List UInt8} (hlow : 4 < lenOf l) (hhigh : lenOf l ≤ packCap)
    (hle : lenOf l ≤ l.length) : Whole (l.take (lenOf l)) := by
  have hlen : (l.take (lenOf l)).length = lenOf l := List.length_take_of_le hle
  refine ⟨?_, by omega, by omega⟩
  rw [hlen]
  exact (lenOf_congr (List.take_prefix _ _) (by omega)).symm

/-- The header in front of the bytes. -/
theorem getD_take {l : List UInt8} {k n : ℕ} (h : k < n) : (l.take n).getD k 0 = l.getD k 0 := by
  rw [List.getD_eq_getElem?_getD, List.getElem?_take_of_lt h, ← List.getD_eq_getElem?_getD]

/-- The first round of a loop that has less than a header before it. -/
theorem Ready.loop_short {s : TcpStickyWrap} (h : Ready s) {stale : UInt8} {t : List UInt8}
    (hold : s.pack.Holding stale (pending s)) (ht : Alike (pending s) t)
    (hshort : (ahead s).length < 4) (total : ℕ) :
    (∃ r s', Loop.Ends pass (s, total) (.ok (r, s')) ∧ 0 ≤ r ∧
        Advances s s' stale (t ++ s.recvBuf.headD [])) ∨
      Refused stale (t ++ s.recvBuf.headD []) ∧
        ∀ r s', Loop.Ends pass (s, total) (.ok (r, s')) → r = -1 := by
  have hlike : Alike (ahead s) (t ++ s.recvBuf.headD []) := ht.append _
  have heq : ahead s = t ++ s.recvBuf.headD [] := by
    have hhead := hlike.header
    have hlen := hlike.length
    rwa [List.take_of_length_le (by omega), List.take_of_length_le (by omega)] at hhead
  rw [← heq]
  obtain ⟨p, hl, hp, hhl, hfault, hdone⟩ := h.round_short hold hshort total
  -- one byte is a length with what is left over behind it, two are the length
  have hread : (2 ≤ (ahead s).length → hl = lenOf (ahead s)) ∧
      ∀ b, ahead s = [b] → hl = b.toNat + 256 * stale.toNat := by
    constructor
    · intro htwo
      rw [headLen_of_holding hp htwo] at hhl
      exact (Except.ok.inj hhl).symm
    · intro b hb
      rw [hb] at hp
      rw [hp.headLen_one] at hhl
      exact (Except.ok.inj hhl).symm
  by_cases hlow : hl < (ahead s).length
  · right
    obtain ⟨e, hpass⟩ := hfault hlow
    refine ⟨?_, fun r s' hends => ?_⟩
    · by_cases htwo : 2 ≤ (ahead s).length
      · refine .low htwo ?_
        rw [← hread.1 htwo]
        omega
      · obtain ⟨b, hb⟩ := List.length_eq_one_iff.1 (by omega : (ahead s).length = 1)
        have hsum := hread.2 b hb
        have hb0 : b = 0 := UInt8.toNat_inj.1 (by show b.toNat = 0; omega)
        have hst0 : stale = 0 := UInt8.toNat_inj.1 (by show stale.toNat = 0; omega)
        rw [hb, hb0, hst0]
        exact .lone
    · cases hends.unique (.fault hpass)
  · left
    obtain ⟨s', hpass, hbuf, hmsgs, hready, hhold⟩ := hdone (by omega)
    have hpend : pending s' = ahead s := holding_pending hhold
    rw [adjustReadSize_all] at hbuf
    refine ⟨_, s', .done hpass, by omega, .rest hready hbuf hmsgs ?_ ?_ (hpend ▸ hhold)⟩
    · refine ⟨fun htwo => ?_, fun hfour => by omega, fun _ => by omega, ?_⟩
      · rw [← hread.1 htwo]
        omega
      · rintro hzero rfl
        have hsum := hread.2 0 hzero
        rw [hzero] at hlow
        exact hlow (by rw [hsum]; decide)
    · rw [hpend]
      exact Alike.refl _

/-- A loop that comes to a packet without a body, with a byte behind it, goes round for ever. -/
theorem Ready.stalls {s : TcpStickyWrap} (h : Ready s) (hlen : lenOf (ahead s) = 4)
    (hmore : 4 < (ahead s).length) (total : ℕ) :
    ∀ out, ¬ Loop.Ends pass (s, total) out := by
  refine Loop.Diverges.not_ends (Loop.diverges_of_invariant pass
    (fun x => Ready x.1 ∧ Stalled (ahead x.1)) ?_ ⟨h, .here hlen hmore⟩)
  rintro x ⟨hx, hst⟩
  exact pass_stalled hx hst

/-- A round with a whole packet before it delivers the packet; it goes round again if there is more. -/
theorem Ready.delivers {s : TcpStickyWrap} (h : Ready s) {t l : List UInt8}
    (ht : Alike (pending s) t) (hl : l = t ++ s.recvBuf.headD []) (hbody : 4 < lenOf l)
    (hhigh : lenOf l ≤ packCap) (hle : lenOf l ≤ l.length) (total : ℕ) :
    ∃ s₁ msg, Ready s₁ ∧ s₁.pack.Holding ((l.take (lenOf l)).getD 1 0) [] ∧
      s₁.msgs = s.msgs ++ [msg] ∧ Delivers msg (l.take (lenOf l)) ∧
      (lenOf l = l.length ∧ s₁.recvBuf = s.recvBuf.tail ∧
          pass (s, total) = .done ((total : ℤ) + (used s : ℤ), s₁) ∨
        lenOf l < l.length ∧ s₁.recvBuf = l.drop (lenOf l) :: s.recvBuf.tail ∧
          pass (s, total) = .next (s₁, total + used s)) := by
  have hlike : Alike (ahead s) l := hl ▸ ht.append _
  have hlenl := hlike.length
  have hlen : lenOf (ahead s) = lenOf l := hlike.lenOf
  have hpend := h.pending_le_lenOf (by omega)
  have hsum : (ahead s).length = (pending s).length + (s.recvBuf.headD []).length :=
    List.length_append
  obtain ⟨s₁, htaken, hpass⟩ := h.round (by omega) (by omega) (by omega) total
  obtain ⟨hold₁, got, hmsgs, hgot⟩ := htaken.whole (by omega) (by omega)
  have hbuf := htaken.recvBuf
  have hone : (l.take (lenOf l)).getD 1 0 = (ahead s).getD 1 0 := by
    rw [getD_take (by omega), hlike.getD (by decide)]
  have hdeliver : Delivers ⟨idOf (ahead s), got⟩ (l.take (lenOf l)) := by
    refine ⟨?_, hgot.trans (hlen ▸ hlike.take _)⟩
    show idOf (ahead s) = _
    rw [hlike.idOf]
    unfold idOf
    rw [getD_take (by omega), getD_take (by omega)]
  have hused : used s = lenOf l - t.length := by
    unfold used
    rw [← ht.length]
    omega
  refine ⟨s₁, _, htaken.ready, hone ▸ hold₁, hmsgs, hdeliver, ?_⟩
  by_cases hall : (s.recvBuf.headD []).length ≤ used s
  · rw [if_pos hall] at hpass
    have hregion : used s = (s.recvBuf.headD []).length := le_antisymm (Nat.min_le_left _ _) hall
    rw [hregion, adjustReadSize_all] at hbuf
    exact .inl ⟨by rw [← ht.length] at hused; omega, hbuf, hpass⟩
  · rw [if_neg hall] at hpass
    have hbehind : l.drop (lenOf l) = (s.recvBuf.headD []).drop (used s) := by
      rw [hused, hl, List.drop_append, List.drop_of_length_le (by rw [← ht.length, ← hl]; omega),
        List.nil_append]
    rw [adjustReadSize_part (Nat.not_le.1 hall), ← hbehind] at hbuf
    exact .inr ⟨by rw [← ht.length] at hused; omega, hbuf, hpass⟩

/-- The loop from a state with the bytes `t` of an unfinished packet: it takes the whole packets and
keeps the rest, or the bytes are refused. -/
theorem Ready.loop {s : TcpStickyWrap} (h : Ready s) {stale : UInt8} {t : List UInt8}
    (hold : s.pack.Holding stale (pending s)) (ht : Alike (pending s) t) (total : ℕ) :
    (∃ r s', Loop.Ends pass (s, total) (.ok (r, s')) ∧ 0 ≤ r ∧
        Advances s s' stale (t ++ s.recvBuf.headD [])) ∨
      Refused stale (t ++ s.recvBuf.headD []) ∧
        ∀ r s', Loop.Ends pass (s, total) (.ok (r, s')) → r = -1 := by
  -- on the bytes before the loop: behind a whole packet there are fewer
  obtain ⟨l, hl⟩ : ∃ l, l = t ++ s.recvBuf.headD [] := ⟨_, rfl⟩
  induction hn : l.length using Nat.strong_induction_on generalizing s stale t l total with
  | _ n ih =>
    by_cases hshort : (ahead s).length < 4
    · exact h.loop_short hold ht hshort total
    have hfour : 4 ≤ (ahead s).length := Nat.not_lt.1 hshort
    have hlike : Alike (ahead s) l := hl ▸ ht.append _
    have hlenl := hlike.length
    have hlen : lenOf (ahead s) = lenOf l := hlike.lenOf
    rw [← hl]
    by_cases himp : lenOf (ahead s) < 4 ∨ packCap < lenOf (ahead s)
    · right
      constructor
      · rcases himp with hlow | hhigh
        · exact .low (by omega) (by omega)
        · exact .high (by omega) (by omega)
      · intro r s' hends
        rcases h.round_impossible hfour himp total with ⟨e, hpass⟩ | ⟨s₁, hpass⟩
        · cases hends.unique (.fault hpass)
        · cases hends.unique (.done hpass)
          rfl
    rw [not_or, Nat.not_lt, Nat.not_lt] at himp
    obtain ⟨hlow, hhigh⟩ := himp
    by_cases hstall : lenOf (ahead s) = 4 ∧ 4 < (ahead s).length
    · right
      exact ⟨.stall (by omega) (by omega),
        fun r s' hends => absurd hends (h.stalls hstall.1 hstall.2 total _)⟩
    by_cases hwhole : 4 < lenOf (ahead s) ∧ lenOf (ahead s) ≤ (ahead s).length
    · obtain ⟨s₁, msg, hready, hold₁, hmsgs, hdeliver, hgoes⟩ :=
        h.delivers ht hl (by omega) (by omega) (by omega) total
      have hp : Whole (l.take (lenOf l)) := .of_take (by omega) (by omega) (by omega)
      have hpend₁ : pending s₁ = [] := holding_pending hold₁
      rcases hgoes with ⟨hall, hbuf, hpass⟩ | ⟨hmore, hbuf, hpass⟩
      · left
        rw [hall, List.take_length] at hp hold₁ hdeliver
        refine ⟨_, s₁, .done hpass, by omega, hready, hbuf, [l], _, [], _, ?_, hmsgs,
          .cons hdeliver .nil, hpend₁ ▸ Alike.refl _, hpend₁ ▸ hold₁⟩
        have hsplit : Splits stale (l ++ []) [l] (l.getD 1 0) [] :=
          .whole hp (.rest (unfinished_nil _))
        rwa [List.append_nil] at hsplit
      · have hnone : Alike (pending s₁) [] := hpend₁ ▸ Alike.refl []
        have hnext := ih (l.drop (lenOf l)).length (by rw [List.length_drop]; omega) hready
          (hpend₁ ▸ hold₁) hnone (total + used s) (l.drop (lenOf l))
          (by rw [hbuf, List.headD_cons, List.nil_append]) rfl
        rw [List.nil_append, hbuf, List.headD_cons] at hnext
        rcases hnext with ⟨r, s', hends, hr, hadv⟩ | ⟨hrefused, hno⟩
        · left
          obtain ⟨parts, stale', rest, ms, hsplit, hmsgs', hall', hrest, hhold⟩ := hadv.splits
          refine ⟨r, s', hends.next hpass, hr, hadv.ready, ?_, _ :: parts, stale', rest, msg :: ms,
            ?_, ?_, .cons hdeliver hall', hrest, hhold⟩
          · rw [hadv.recvBuf, hbuf, List.tail_cons]
          · have hsplits : Splits stale (l.take (lenOf l) ++ l.drop (lenOf l))
                (l.take (lenOf l) :: parts) stale' rest := .whole hp hsplit
            rwa [List.take_append_drop] at hsplits
          · rw [hmsgs', hmsgs, List.append_assoc, List.singleton_append]
        · right
          refine ⟨.later (by omega) (by omega) ?_, fun r s' hends => ?_⟩
          · rwa [getD_take (by omega)] at hrefused
          · obtain ⟨fuel, hf⟩ := hends
            cases fuel with
            | zero => cases hf
            | succ fuel => exact hno r s' ⟨fuel, by rwa [Loop.iter_next hpass] at hf⟩
    · -- the packet takes all there is
      left
      have hpend := h.pending_le_lenOf hlow
      have hsum : (ahead s).length = (pending s).length + (s.recvBuf.headD []).length :=
        List.length_append
      obtain ⟨s₁, htaken, hpass⟩ := h.round hfour hlow hhigh total
      obtain ⟨hmsgs, hkept, hhold⟩ := htaken.part hwhole
      have hregion : used s = (s.recvBuf.headD []).length := by
        unfold used
        omega
      have hbuf := htaken.recvBuf
      rw [hregion, adjustReadSize_all] at hbuf
      rw [if_pos hregion.ge] at hpass
      have hrest : Alike (pending s₁) l := by
        rw [List.take_of_length_le (by omega)] at hkept
        exact hkept.trans hlike
      refine ⟨_, s₁, .done hpass, by omega, .rest htaken.ready hbuf hmsgs ?_ hrest (hhold stale)⟩
      refine ⟨fun _ => by omega, fun _ => by omega, fun _ => by omega, fun hzero => ?_⟩
      rw [hzero, List.length_singleton] at hlenl
      omega

/-! ### Runs -/

theorem flatten_put (x : List (List UInt8) × ℕ) (b : UInt8) :
    (put x b).1.flatten = x.1.flatten ++ [b] := by
  obtain ⟨regions, free⟩ := x
  cases free with
  | zero => simp [put]
  | succ free =>
    unfold put
    simp only
    cases hlast : regions.getLast? with
    | none => simp [List.getLast?_eq_none_iff.1 hlast]
    | some r =>
      obtain ⟨inner, rfl⟩ := List.getLast?_eq_some_iff.1 hlast
      simp

theorem flatten_foldl_put (bs : List UInt8) (x : List (List UInt8) × ℕ) :
    (bs.foldl put x).1.flatten = x.1.flatten ++ bs := by
  induction bs generalizing x with
  | nil => exact (List.append_nil _).symm
  | cons b bs ih => rw [List.foldl_cons, ih, flatten_put, List.append_assoc, List.singleton_append]

/-- What is received is behind what is unread. -/
theorem Link.flatten_receive (l : Link) (bs : List UInt8) :
    (l.receive bs).wrap.recvBuf.flatten = l.wrap.recvBuf.flatten ++ bs :=
  flatten_foldl_put bs (l.wrap.recvBuf, l.free)

theorem headD_append_tail (regions : List (List UInt8)) :
    regions.headD [] ++ regions.tail.flatten = regions.flatten := by
  cases regions <;> rfl

/-- A connection that has received these bytes: the ones read are split into packets, each of which
has been delivered, and the beginning of the next one. -/
structure Framed (first : UInt8) (l : Link) (received : List UInt8) : Prop where
  ready : Ready l.wrap
  nodes : Nodes (l.wrap.recvBuf, l.free)
  splits : ∃ read parts stale rest, received = read ++ l.wrap.recvBuf.flatten ∧
    Splits first read parts stale rest ∧ List.Forall₂ Delivers l.wrap.msgs parts ∧
    Alike (pending l.wrap) rest ∧ l.wrap.pack.Holding stale (pending l.wrap)

theorem framed_new (m : ℕ → UInt8) : Framed (m 1) ⟨new (some 0) m, 0⟩ [] where
  ready := new_ready m
  nodes := reachable_nodes ⟨_, [], rfl, .nil _⟩
  splits := ⟨[], [], m 1, [], rfl, .rest (unfinished_nil _), .nil, Alike.refl _, new_holding m⟩

/-- What a `readData` does after the bytes `bs`. -/
theorem Framed.step {first : UInt8} {l : Link} {received : List UInt8} (h : Framed first l received)
    (m : ℕ → UInt8) (bs : List UInt8) {read : List UInt8}
    (hread : received = read ++ l.wrap.recvBuf.flatten) :
    (¬ Refused first (read ++ (l.receive bs).wrap.recvBuf.headD []) ∧
      ∃ l', (∀ l'', (linkSys m).step l bs l'' ↔ l'' = l') ∧ Framed first l' (received ++ bs)) ∨
    Refused first (read ++ (l.receive bs).wrap.recvBuf.headD []) ∧
      ∀ l', ¬ (linkSys m).step l bs l' := by
  obtain ⟨read', parts, stale, rest, hread', hsplit, hmsgs, hpending, hold⟩ := h.splits
  obtain rfl : read = read' := List.append_cancel_right (hread.symm.trans hread')
  have hnodes := h.nodes.receive bs
  have hready : Ready (l.receive bs).wrap :=
    ⟨h.ready.holding, h.ready.fits, fun r hr => (hnodes.cap r hr).trans_lt (by decide)⟩
  rw [hsplit.refused_iff]
  rcases hready.loop hold hpending 0 with ⟨r, s', hends, hr, hadv⟩ | ⟨hrefused, hno⟩
  · left
    obtain ⟨parts', stale', rest', ms, hsplit', hmsgs', hdelivers, hrest, hhold⟩ := hadv.splits
    refine ⟨hsplit'.not_refused, ⟨s', (l.receive bs).free⟩, fun l'' => ⟨?_, ?_⟩, hadv.ready, ?_,
      _, parts ++ parts', stale', rest', ?_, hsplit.append hsplit', ?_, hrest, hhold⟩
    · rintro ⟨fuel, r', hread, -, hfree⟩
      cases hends.unique ⟨fuel, hread⟩
      exact congrArg (Link.mk l''.wrap) hfree
    · rintro rfl
      obtain ⟨fuel, hread⟩ := hends
      exact ⟨fuel, r, hread, by omega, rfl⟩
    · show Nodes (s'.recvBuf, _)
      rw [hadv.recvBuf]
      exact hnodes.tail
    · show _ = _ ++ s'.recvBuf.flatten
      rw [hadv.recvBuf, List.append_assoc, headD_append_tail, l.flatten_receive, ← List.append_assoc,
        ← hread]
    · show List.Forall₂ Delivers s'.msgs _
      rw [hmsgs']
      exact List.rel_append hmsgs hdelivers
  · right
    refine ⟨hrefused, fun l' => ?_⟩
    rintro ⟨fuel, r, hread, hr, -⟩
    exact hr (hno r _ ⟨fuel, hread⟩)

/-- A run of `readData` calls keeps to the packets of the bytes received. -/
theorem Framed.run {m : ℕ → UInt8} {l l' : Link} {calls : List (List UInt8)} {first : UInt8}
    {received : List UInt8} (hl : Framed first l received) (h : (linkSys m).Run l calls l') :
    Framed first l' (received ++ calls.flatten) := by
  induction h generalizing received with
  | nil => rwa [List.flatten_nil, List.append_nil]
  | @cons l u _ bs calls hstep _ ih =>
    obtain ⟨read, _, _, _, hread, -⟩ := hl.splits
    rcases hl.step m bs hread with ⟨-, l'', hiff, hl''⟩ | ⟨-, hno⟩
    · obtain rfl := (hiff u).1 hstep
      rw [List.flatten_cons, ← List.append_assoc]
      exact ih hl''
    · exact absurd hstep (hno u)

/-- Whatever is received and however it is cut: the bytes read so far are whole packets and the first
bytes of another one, with one call of `MakeServerMsg` for each of the packets, in order, with its id,
its length and its header; and the next `readData` returns without failing exactly if these bytes with
the region before it are not refused. -/
theorem messages_framed (m : ℕ → UInt8) {calls : List (List UInt8)} {l : Link}
    (h : (linkSys m).Run ⟨new (some 0) m, 0⟩ calls l) :
    ∃ read parts stale rest, calls.flatten = read ++ l.wrap.recvBuf.flatten ∧
      Splits (m 1) read parts stale rest ∧ List.Forall₂ Delivers l.wrap.msgs parts ∧
      Alike (pending l.wrap) rest ∧
      ∀ bs, (∃ l', (linkSys m).step l bs l') ↔
        ¬ Refused (m 1) (read ++ (l.receive bs).wrap.recvBuf.headD []) := by
  have hframed : Framed (m 1) l calls.flatten := (framed_new m).run h
  obtain ⟨read, parts, stale, rest, hread, hsplit, hmsgs, hpending, -⟩ := hframed.splits
  refine ⟨read, parts, stale, rest, hread, hsplit, hmsgs, hpending, fun bs => ?_⟩
  rcases hframed.step m bs hread with ⟨hfree, l', hiff, -⟩ | ⟨hrefused, hno⟩
  · exact iff_of_true ⟨l', (hiff l').2 rfl⟩ hfree
  · exact iff_of_false (fun ⟨l', hstep⟩ => hno l' hstep) (fun hfree => hfree hrefused)

/-- A packet and the first byte of the next one. -/
def sampleBytes : List UInt8 := [5, 0, 1, 0, 7, 6]

theorem sample_run :
    ∃ l, (linkSys fun _ => 0).Run ⟨new (some 0) fun _ => 0, 0⟩ [sampleBytes] l ∧
      l.wrap.recvBuf = [] ∧ l.wrap.msgs = [⟨1, [5, 0, 1, 0, 5]⟩] ∧ pending l.wrap = [6] := by
  obtain ⟨l, hstep, hl⟩ : ∃ l, (linkSys fun _ => 0).step ⟨new (some 0) fun _ => 0, 0⟩ sampleBytes l ∧
      l.wrap.recvBuf = [] ∧ l.wrap.msgs = [⟨1, [5, 0, 1, 0, 5]⟩] ∧ pending l.wrap = [6] :=
    ⟨⟨_, _⟩, ⟨3, 6, rfl, by decide, rfl⟩, rfl, by decide, by decide⟩
  exact ⟨l, .cons hstep (.nil l), hl⟩

theorem messages_framed_sample :
    ∃ parts stale rest, Splits 0 [5, 0, 1, 0, 7, 6] parts stale rest ∧
      List.Forall₂ Delivers [⟨1, [5, 0, 1, 0, 5]⟩] parts ∧ Alike [6] rest := by
  obtain ⟨l, hrun, hbuf, hmsgs, hpending⟩ := sample_run
  obtain ⟨read, parts, stale, rest, hread, hsplit, hdelivers, hrest, -⟩ := messages_framed _ hrun
  rw [hbuf, List.flatten_nil, List.append_nil] at hread
  rw [← show [sampleBytes].flatten = [5, 0, 1, 0, 7, 6] from rfl, hread]
  rw [hmsgs] at hdelivers
  rw [hpending] at hrest
  exact ⟨parts, stale, rest, hsplit, hdelivers, hrest⟩

end Tcp
end NetService
