import NetService.Tcp.Reassembly
import NetService.Tcp.Termination
import NetService.Ws.Model

/-!
# `WsStickyWrap::finishParse`

The payloads of data frames are put together to packets in `_pack`, in the way of
`TcpStickyWrap::readData`, with `_pack._head` as the view of the first bytes of `_pack._pData`.  The
loop is left only where a packet is found too long.  It does not go on in the payload, and the length
of a packet is compared with the `_Data_size` of the frame parser, which it also writes.

A payload that begins with the header of a possible packet never comes back (`new_diverges`), and
`-1` is the only result there is (`finishParse_fails`).  `finishParse_meets_iff` says what is left of
the reassembly: only a packet that is too long, if it comes first, is treated as it should be.
-/

namespace NetService
namespace Ws

open Memory

/-- The object as `finishParse` sees it: the fields of the frame parser, `_pack`, and the calls of
`MakeServerMsg`. -/
structure Inner where
  deal : WsDealWith
  pack : PackDealWith
  msgs : List ServerMsg

namespace Inner

/-- The object before the first message, with the frame parser in any state. -/
def new (d : WsDealWith) (m : ℕ → UInt8) : Inner where
  deal := d
  pack := { PackDealWith.new m with head := some 0 }
  msgs := []

/-- The body part of a round, and the new `readlen`.  The second branch changes the `_Data_size` of
the frame parser. -/
def copyBody (s : Inner) (payload : List UInt8) (readlen : ℕ) : Except PackFault (Inner × ℤ) :=
  let size : ℤ := payload.length
  match s.pack.headLen with
  | .error e => .error e
  | .ok hl =>
      if (hl : ℤ) ≥ s.pack.dataSize + (size - readlen) then
        (s.pack.memcpy s.pack.dataSize (payload.drop readlen) (size - readlen)).map fun p =>
          ({ s with pack := { p with dataSize := u16 (p.dataSize + (size - readlen)) } }, size)
      else
        (s.pack.memcpy s.pack.dataSize (payload.drop readlen) ((hl : ℤ) - s.pack.dataSize)).map
          fun p =>
            ({ s with
                pack := p
                deal := { s.deal with
                  dataSize := u16 (s.deal.dataSize + ((hl : ℤ) - s.deal.dataSize)) } },
              readlen + ((hl : ℤ) - s.deal.dataSize))

/-- The end of a round: the test for a complete packet. -/
def finishPack (s : Inner) : Except PackFault Inner :=
  if s.pack.headSize < s.pack.dataSize then
    match s.pack.headLen, s.pack.headMsgId with
    | .ok hl, .ok id =>
        if hl = s.deal.dataSize then
          .ok { s with
            msgs := s.msgs ++ [⟨id, load s.pack.pData 0 hl⟩]
            deal := { s.deal with dataSize := 0 } }
        else .ok s
    | .error e, _ => .error e
    | _, .error e => .error e
  else .ok s

/-- One round of the `while (true)` of `finishParse`, with `realLen`. -/
def pass (payload : List UInt8) (x : Inner × ℤ) :
    Loop.Pass (Inner × ℤ) (ℤ × Inner) PackFault :=
  match x.1.pack.copyHeader payload with
  | .error e => .fault e
  | .ok (p, readlen) =>
      match p.oversize with
      | .error e => .fault e
      | .ok true => .done (-1, { x.1 with pack := p })
      | .ok false =>
          match copyBody { x.1 with pack := p } payload readlen with
          | .error e => .fault e
          | .ok (s, readlen) =>
              match s.finishPack with
              | .error e => .fault e
              | .ok s => .next (s, x.2 + readlen)

/-- `finishParse(pData, size)`, with the `size` bytes at `pData`. -/
def finishParse (fuel : ℕ) (s : Inner) (payload : List UInt8) :
    Option (Except PackFault (ℤ × Inner)) :=
  Loop.iter (pass payload) fuel (s, 0)

/-- A call that returns with all bytes consumed. -/
def Takes (s : Inner) (payload : List UInt8) (s' : Inner) : Prop :=
  ∃ fuel, s.finishParse fuel payload = some (.ok (payload.length, s'))

/-- Calls of `finishParse` that consume their payloads. -/
def receiver (d : WsDealWith) (m : ℕ → UInt8) : LTS Inner (List UInt8) where
  init s := s = new d m
  step := Takes

/-! ### What is asked of it -/

/-- After every payload the messages are those of the packets completed so far, and the frame parser
is as it was. -/
def Exact (d : WsDealWith) (m : ℕ → UInt8) (ps : List Packet) (cut : List (List UInt8)) : Prop :=
  ∀ pre post, cut = pre ++ post → ∃ s, (receiver d m).Run (new d m) pre s ∧
    s.msgs = (Tcp.completed ps pre.flatten.length).map Packet.msg ∧ s.deal = d

/-- The call that is given the last header byte of the packet behind `ps` returns `-1`, and those
before it consume their payloads. -/
def Rejects (d : WsDealWith) (m : ℕ → UInt8) (ps : List Packet) (cut : List (List UInt8)) : Prop :=
  ∃ pre payload post, cut = pre ++ payload :: post ∧
    pre.flatten.length < (Tcp.stream ps).length + 4 ∧
    (Tcp.stream ps).length + 4 ≤ pre.flatten.length + payload.length ∧
    ∃ s, (receiver d m).Run (new d m) pre s ∧
      ∃ fuel s', s.finishParse fuel payload = some (.ok (-1, s'))

/-- A packet that is too long, as far as it has been sent. -/
def TooLong (big : List UInt8) : Prop := 4 ≤ big.length ∧ packCap < Tcp.lenOf big

/-! ### The way out of the loop -/

theorem pass_done {payload : List UInt8} {x : Inner × ℤ} {r : ℤ} {s : Inner}
    (h : pass payload x = .done (r, s)) : r = -1 := by
  unfold pass at h
  split at h
  · cases h
  · split at h
    · cases h
    · cases h
      rfl
    · split at h
      · cases h
      · split at h
        · cases h
        · cases h

/-- `finishParse` returns nothing but `-1`. -/
theorem finishParse_fails {fuel : ℕ} {s s' : Inner} {payload : List UInt8} {r : ℤ}
    (h : s.finishParse fuel payload = some (.ok (r, s'))) : r = -1 := by
  let Q : Except PackFault (ℤ × Inner) → Prop := fun out => ∀ r t, out = .ok (r, t) → r = -1
  have hQ : Q (.ok (r, s')) := by
    refine Loop.Ends.of_invariant (fun _ => True) Q ?_ ?_ ?_ trivial ⟨fuel, h⟩
    · exact fun _ _ _ _ => trivial
    · rintro x ⟨r, t⟩ - hdone r' t' hout
      cases hout
      exact pass_done hdone
    · rintro _ _ _ _ _ _ ⟨⟩
  exact hQ r s' rfl

theorem not_takes (s : Inner) (payload : List UInt8) (s' : Inner) : ¬ Takes s payload s' := by
  rintro ⟨fuel, h⟩
  have hneg := finishParse_fails h
  omega

theorem run_nil {d : WsDealWith} {m : ℕ → UInt8} {s s' : Inner} {cut : List (List UInt8)}
    (h : (receiver d m).Run s cut s') : cut = [] ∧ s' = s := by
  cases h with
  | nil => exact ⟨rfl, rfl⟩
  | cons hstep _ => exact absurd hstep (not_takes _ _ _)

/-! ### Payloads that begin with a header -/

/-- The header of a possible packet is there, and no more than the packet. -/
def Turns (s : Inner) : Prop :=
  ∃ stale got, s.pack.Holding stale got ∧ 4 ≤ got.length ∧ got.length ≤ Tcp.lenOf got ∧
    Tcp.lenOf got ≤ 4096

/-- Bytes behind the header do not change the length. -/
theorem Turns.append {s : Inner} {stale : UInt8} {got more : List UInt8}
    (h : s.pack.Holding stale (got ++ more)) (hfour : 4 ≤ got.length)
    (hle : got.length + more.length ≤ Tcp.lenOf got) (hhigh : Tcp.lenOf got ≤ 4096) :
    Turns s := by
  have hlen := Tcp.lenOf_congr (List.prefix_append got more) (by omega)
  refine ⟨stale, got ++ more, h, ?_, ?_, ?_⟩
  · rw [List.length_append]
    omega
  · rw [hlen, List.length_append]
    exact hle
  · rw [hlen]
    exact hhigh

/-- Without the bytes behind `got` that `_Data_size` does not count. -/
theorem holding_shrink {p : PackDealWith} {stale : UInt8} {got more : List UInt8} {n : ℕ}
    (h : PackDealWith.Holding { p with dataSize := n } stale (got ++ more))
    (hsize : p.dataSize = got.length) (htwo : 2 ≤ got.length) : p.Holding stale got := by
  refine ⟨h.head, h.cap, h.headSize, hsize, ?_, fun hlt => absurd hlt (by omega)⟩
  have hdata := congrArg (List.take got.length) h.data
  rw [take_load _ _ _ _ (by rw [List.length_append]; omega), List.take_left] at hdata
  exact hdata

theorem Turns.copyBody {s : Inner} (h : Turns s) (payload : List UInt8) {readlen : ℕ}
    (hread : readlen ≤ payload.length) :
    ∃ s' r, s.copyBody payload readlen = .ok (s', r) ∧ Turns s' := by
  obtain ⟨stale, got, hold, hfour, hle, hhigh⟩ := h
  have hlen := Tcp.headLen_of_holding hold (by omega)
  have hdrop : (payload.drop readlen).length = payload.length - readlen := List.length_drop
  unfold Inner.copyBody
  simp only [hlen]
  by_cases hall : (Tcp.lenOf got : ℤ) ≥
      s.pack.dataSize + ((payload.length : ℤ) - readlen)
  · -- the payload ends before the packet, or with it
    have hdiff : (payload.length : ℤ) - readlen = (payload.length - readlen : ℕ) := by omega
    rw [hold.size] at hall
    obtain ⟨m, hcopy, hm⟩ := hold.memcpy (payload.drop readlen)
      (n := payload.length - readlen) (by omega) (by omega)
    have hu : u16 ((s.pack.dataSize : ℤ) + (payload.length - readlen : ℕ)) =
        got.length + (payload.length - readlen) := by
      rw [hold.size, ← Nat.cast_add]
      exact u16_natCast (by omega)
    rw [if_pos (by rw [hold.size]; exact hall), hdiff, hcopy]
    simp only [Except.map, hu]
    refine ⟨_, _, rfl, Turns.append hm hfour ?_ hhigh⟩
    rw [List.length_take]
    omega
  · -- the packet ends before the payload; `_pack._Data_size` stays as it is
    rw [hold.size] at hall
    have hdiff : (Tcp.lenOf got : ℤ) - s.pack.dataSize = (Tcp.lenOf got - got.length : ℕ) := by
      rw [hold.size]
      omega
    obtain ⟨m, hcopy, hm⟩ := hold.memcpy (payload.drop readlen)
      (n := Tcp.lenOf got - got.length) (by omega) (by omega)
    rw [if_neg (by rw [hold.size]; exact hall), hdiff, hcopy]
    refine ⟨_, _, rfl, stale, got, holding_shrink hm hold.size (by omega), hfour, hle, hhigh⟩

theorem Turns.finishPack {s : Inner} (h : Turns s) : ∃ s', s.finishPack = .ok s' ∧ Turns s' := by
  obtain ⟨stale, got, hold, hrest⟩ := h
  obtain ⟨hl, hlen⟩ := Tcp.headLen_ok hold
  have hid : ∃ id, s.pack.headMsgId = .ok id := by
    unfold PackDealWith.headMsgId
    rw [hold.head]
    exact ⟨_, rfl⟩
  obtain ⟨id, hid⟩ := hid
  unfold Inner.finishPack
  simp only [hlen, hid]
  split_ifs
  · exact ⟨_, rfl, stale, got, hold, hrest⟩
  · exact ⟨_, rfl, stale, got, hold, hrest⟩
  · exact ⟨_, rfl, stale, got, hold, hrest⟩

/-- A round that has the header of a possible packet goes round again, and so does the next one. -/
theorem pass_turns {payload : List UInt8} {s : Inner} {p : PackDealWith} {readlen : ℕ}
    (hheader : s.pack.copyHeader payload = .ok (p, readlen)) (hread : readlen ≤ payload.length)
    (h : Turns { s with pack := p }) (total : ℤ) :
    ∃ y, pass payload (s, total) = .next y ∧ Turns y.1 := by
  have hover : p.oversize = .ok false := by
    obtain ⟨stale, got, hold, hfour, -, hhigh⟩ := h
    have hlen : p.headLen = .ok (Tcp.lenOf got) := Tcp.headLen_of_holding hold (by omega)
    have hsize : p.dataSize = got.length := hold.size
    have hcap : p.dataCap = 4096 := hold.cap
    have hhead : p.headSize = 4 := hold.headSize
    unfold PackDealWith.oversize
    rw [if_pos (by omega), hlen, hcap]
    exact congrArg Except.ok (decide_eq_false (by omega))
  obtain ⟨s₁, r, hbody, h₁⟩ := h.copyBody payload hread
  obtain ⟨s₂, hfinish, h₂⟩ := h₁.finishPack
  refine ⟨(s₂, total + r), ?_, h₂⟩
  unfold Inner.pass
  simp only [hheader, hover, hbody, hfinish]

theorem Turns.diverges {s : Inner} (h : Turns s) (payload : List UInt8) (total : ℤ) :
    Loop.Diverges (pass payload) (s, total) := by
  refine Loop.diverges_of_invariant _ (fun x => Turns x.1) ?_ h
  rintro ⟨t, total⟩ ht
  obtain ⟨stale, got, hold, hfour, hle, hhigh⟩ := ht
  obtain ⟨p, hheader, hp⟩ := hold.copyHeader (by omega) payload
  rw [Nat.sub_eq_zero_of_le hfour, List.take_zero, List.append_nil] at hp
  rw [Nat.sub_eq_zero_of_le hfour, Nat.min_zero] at hheader
  exact pass_turns hheader (Nat.zero_le _) ⟨stale, got, hp, hfour, hle, hhigh⟩ total

/-- The header part of the first round. -/
theorem new_copyHeader (d : WsDealWith) (m : ℕ → UInt8) {payload : List UInt8}
    (hfour : 4 ≤ payload.length) :
    ∃ p, (new d m).pack.copyHeader payload = .ok (p, 4) ∧ p.Holding (m 1) (payload.take 4) ∧
      (payload.take 4).length = 4 ∧ Tcp.lenOf (payload.take 4) = Tcp.lenOf payload := by
  have hnew : (new d m).pack.Holding (m 1) [] := PackDealWith.new_holding m
  obtain ⟨p, hheader, hp⟩ := hnew.copyHeader (Nat.zero_le _) payload
  have htake : (payload.take 4).length = 4 := by
    rw [List.length_take]
    omega
  have hmin : min payload.length (4 - ([] : List UInt8).length) = 4 := Nat.min_eq_right hfour
  rw [hmin] at hheader
  exact ⟨p, hheader, hp, htake, (Tcp.lenOf_congr (List.take_prefix 4 payload) (by omega)).symm⟩

/-- A payload that begins with the header of a possible packet never comes back. -/
theorem new_diverges (d : WsDealWith) (m : ℕ → UInt8) {payload : List UInt8}
    (hfour : 4 ≤ payload.length) (hlow : 4 ≤ Tcp.lenOf payload) (hhigh : Tcp.lenOf payload ≤ 4096) :
    Loop.Diverges (pass payload) (new d m, 0) := by
  obtain ⟨p, hheader, hp, htake, hlen⟩ := new_copyHeader d m hfour
  have hturns : Turns { new d m with pack := p } :=
    ⟨m 1, payload.take 4, hp, by omega, by omega, by omega⟩
  obtain ⟨y, hpass, hy⟩ := pass_turns (s := new d m) hheader hfour hturns 0
  exact Loop.Diverges.of_visits (.next .start hpass) (hy.diverges payload y.2)

/-- A payload that begins with the header of a packet that is too long is refused. -/
theorem new_rejects (d : WsDealWith) (m : ℕ → UInt8) {payload : List UInt8}
    (hfour : 4 ≤ payload.length) (hbig : packCap < Tcp.lenOf payload) :
    ∃ s', (new d m).finishParse 1 payload = some (.ok (-1, s')) := by
  obtain ⟨p, hheader, hp, htake, hlen⟩ := new_copyHeader d m hfour
  have hover : p.oversize = .ok true := by
    have hread := Tcp.headLen_of_holding hp (by omega)
    unfold PackDealWith.oversize
    rw [if_pos (by rw [hp.headSize, hp.size, htake]), hread, hp.cap, hlen]
    exact congrArg Except.ok (decide_eq_true hbig)
  refine ⟨{ new d m with pack := p }, ?_⟩
  have hpass : pass payload (new d m, 0) = .done (-1, { new d m with pack := p }) := by
    unfold Inner.pass
    simp only [hheader, hover]
  exact Loop.iter_done hpass 0

/-! ### The result -/

theorem lenOf_packet (pk : Packet) : Tcp.lenOf pk.bytes = pk.size := by
  have hle := pk.size_le
  exact le16_decode (by omega)

/-- For every list of packets, every cut of their bytes into payloads and every state of the frame
parser, `finishParse` does what is asked of it if there is no payload; a packet that is too long is
refused if it is the first one and its header is in one payload, and not otherwise. -/
theorem finishParse_meets_iff (d : WsDealWith) (m : ℕ → UInt8) (ps : List Packet)
    (cut : List (List UInt8)) :
    (cut.flatten = Tcp.stream ps → (Exact d m ps cut ↔ cut = [])) ∧
      ∀ big, TooLong big → cut.flatten = Tcp.stream ps ++ big →
        (Rejects d m ps cut ↔ ps = [] ∧ 4 ≤ (cut.headD []).length) := by
  constructor
  · intro hcut
    constructor
    · intro hexact
      obtain ⟨s, hrun, -⟩ := hexact cut [] (List.append_nil cut).symm
      exact (run_nil hrun).1
    · rintro rfl pre post heq
      obtain ⟨rfl, rfl⟩ := List.append_eq_nil_iff.1 heq.symm
      have hnone : Tcp.completed ps 0 = [] := by
        cases ps with
        | nil => rfl
        | cons pk ps => exact Tcp.completed_of_lt (by have := pk.size_gt; omega)
      exact ⟨new d m, .nil _, by rw [List.flatten_nil, List.length_nil, hnone]; rfl, rfl⟩
  · intro big hbig hcut
    constructor
    · rintro ⟨pre, payload, post, rfl, -, hheader, s, hrun, fuel, s', hread⟩
      obtain ⟨rfl, rfl⟩ := run_nil hrun
      rw [List.flatten_nil, List.length_nil, Nat.zero_add] at hheader
      refine ⟨?_, by show 4 ≤ payload.length; omega⟩
      cases ps with
      | nil => rfl
      | cons pk ps =>
        -- the first packet keeps the loop going
        exfalso
        have hsplit : payload ++ post.flatten = pk.bytes ++ (Tcp.stream ps ++ big) := by
          rw [← List.append_assoc]
          exact hcut
        have hpre : pk.bytes <+: payload := by
          refine List.prefix_of_prefix_length_le (List.prefix_append _ _)
            (hsplit ▸ List.prefix_append payload post.flatten) ?_
          have hstream : (Tcp.stream (pk :: ps)).length =
              pk.bytes.length + (Tcp.stream ps).length := List.length_append
          omega
        have hsize := pk.size_gt
        have hlen := Tcp.lenOf_congr hpre (by rw [pk.length_bytes]; omega)
        have hle := hpre.length_le
        rw [pk.length_bytes] at hle
        rw [lenOf_packet] at hlen
        have hdiv := @new_diverges d m payload (by omega) (by omega) (by rw [hlen]; exact pk.size_le)
        rw [finishParse, hdiv fuel] at hread
        cases hread
    · rintro ⟨rfl, hfour⟩
      cases cut with
      | nil => exact absurd hfour (by decide)
      | cons payload post =>
        have hfour' : 4 ≤ payload.length := hfour
        have hlen : Tcp.lenOf big = Tcp.lenOf payload := by
          have hpre : payload <+: big := ⟨post.flatten, hcut⟩
          exact Tcp.lenOf_congr hpre (by omega)
        obtain ⟨s', hread⟩ := new_rejects d m hfour' (hlen ▸ hbig.2)
        refine ⟨[], payload, post, rfl, ?_, ?_, new d m, .nil _, 1, s', hread⟩
        · exact (by decide : 0 < 0 + 4)
        · show 0 + 4 ≤ 0 + payload.length
          omega

/-- The frame parser of a new connection. -/
def freshDeal : WsDealWith := .new (fun _ => 0) ⟨none, 0, fun _ => 0⟩

/-- A packet cut behind its header is not put together; one that is too long and comes first is
refused. -/
theorem finishParse_meets_iff_sample :
    ¬ Exact freshDeal (fun _ => 0) [Tcp.samplePacket] [[5, 0, 1, 0], [7]] ∧
      ¬ Rejects freshDeal (fun _ => 0) [] [[1, 16], [0, 0]] ∧
      Rejects freshDeal (fun _ => 0) [] [[1, 16, 0, 0]] := by
  refine ⟨fun hexact => ?_, fun hrejects => ?_, ?_⟩
  · have hnil := ((finishParse_meets_iff freshDeal (fun _ => 0) [Tcp.samplePacket]
      [[5, 0, 1, 0], [7]]).1 (by decide)).1 hexact
    cases hnil
  · have hfour := (((finishParse_meets_iff freshDeal (fun _ => 0) [] [[1, 16], [0, 0]]).2
      [1, 16, 0, 0] ⟨by decide, by decide⟩ (by decide)).1 hrejects).2
    exact absurd hfour (by decide)
  · exact ((finishParse_meets_iff freshDeal (fun _ => 0) [] [[1, 16, 0, 0]]).2 [1, 16, 0, 0]
      ⟨by decide, by decide⟩ (by decide)).2 ⟨rfl, by decide⟩

/-- A packet in one payload: the call does not come back. -/
theorem whole_packet_hangs :
    Tcp.stream [Tcp.samplePacket] = [5, 0, 1, 0, 7] ∧
      (∀ fuel, (new freshDeal fun _ => 0).finishParse fuel [5, 0, 1, 0, 7] = none) ∧
      ¬ Exact freshDeal (fun _ => 0) [Tcp.samplePacket] [[5, 0, 1, 0, 7]] := by
  refine ⟨by decide, ?_, fun hexact => ?_⟩
  · exact new_diverges freshDeal (fun _ => 0) (by decide) (by decide) (by decide)
  · obtain ⟨s, hrun, -⟩ := hexact [[5, 0, 1, 0, 7]] [] rfl
    exact absurd (run_nil hrun).1 (List.cons_ne_nil _ _)

end Inner
end Ws
end NetService
