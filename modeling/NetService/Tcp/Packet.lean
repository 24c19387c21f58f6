import NetService.Lib.Stream
import NetService.Tcp.Model

/-!
# One round of `readData` on a well-formed packet

`Packet` is a packet as a client sends it: a length that fits, and at least one body byte.

A round that starts with `got` bytes of the packet in `_pData` takes what the region has of the
rest, `piece`, and adds `copied` to `_pData`.  The header bytes of the piece are copied as they
are; its body bytes are copied from the start of the piece, because the second `memcpy` does not
skip the header bytes the first one has used.  `pass_spec` is this, for the states `Holding`
describes; `pass_trap` is the round that reads a length before its second byte has arrived and
computes a negative copy length.
-/

namespace NetService

/-- Two bytes, the low one first. -/
def le16 (n : ℕ) : List UInt8 := [UInt8.ofNat n, UInt8.ofNat (n / 256)]

/-- A packet with `4 < _len ≤ 4096`. -/
structure Packet where
  msgId : UInt16
  body : List UInt8
  body_ne : body ≠ []
  fits : body.length + 4 ≤ packCap

namespace Packet

/-- `_len` -/
def size (p : Packet) : ℕ := p.body.length + 4

/-- The packet on the wire. -/
def bytes (p : Packet) : List UInt8 := le16 p.size ++ le16 p.msgId.toNat ++ p.body

/-- The call of `MakeServerMsg` the packet asks for. -/
def msg (p : Packet) : ServerMsg := ⟨p.msgId.toNat, p.bytes⟩

/-- The high byte of `_len`, which stays in `_pData[1]` after the packet. -/
def high (p : Packet) : UInt8 := UInt8.ofNat (p.size / 256)

@[simp] theorem length_bytes (p : Packet) : p.bytes.length = p.size := by
  simp [bytes, le16, size]

theorem size_gt (p : Packet) : 4 < p.size := by
  have hpos := List.length_pos_iff.2 p.body_ne
  unfold size
  omega

theorem size_le (p : Packet) : p.size ≤ 4096 := p.fits

end Packet

/-- Reading back what `le16` wrote. -/
theorem le16_decode {n : ℕ} (h : n < 65536) :
    (UInt8.ofNat n).toNat + 256 * (UInt8.ofNat (n / 256)).toNat = n := by
  rw [UInt8.toNat_ofNat', UInt8.toNat_ofNat']
  omega

/-- What a round adds to `_pData` for `piece`, when `n` bytes of the packet are there. -/
def copied (n : ℕ) (piece : List UInt8) : List UInt8 :=
  piece.take (4 - n) ++ piece.take (piece.length - (4 - n))

@[simp] theorem length_copied (n : ℕ) (piece : List UInt8) :
    (copied n piece).length = piece.length := by
  simp [copied]
  omega

/-- `copied` in terms of the region the piece is cut from. -/
theorem copied_take {n k : ℕ} (region : List UInt8) (h : 4 - n ≤ k) :
    copied n (region.take k) =
      region.take (4 - n) ++ region.take (min k region.length - (4 - n)) := by
  unfold copied
  rw [List.take_take, List.take_take, List.length_take, min_eq_left h, min_eq_left (by omega)]

/-- The header bytes of a piece continue the header. -/
theorem header_prefix {l got x : List UInt8} (hpre : got.take 4 <+: l)
    (hx : x.take (4 - got.length) <+: l.drop got.length) :
    (got ++ x.take (4 - got.length)).take 4 <+: l := by
  by_cases hg : 4 ≤ got.length
  · rw [Nat.sub_eq_zero_of_le hg, List.take_zero, List.append_nil]
    exact hpre
  · rw [List.take_of_length_le (by omega)] at hpre
    exact (List.take_prefix 4 _).trans (Stream.append_prefix hpre hx)

/-- Whatever is copied of the body, the header bytes are right. -/
theorem header_copied {l got piece : List UInt8} (hpre : got.take 4 <+: l)
    (hpiece : piece <+: l.drop got.length) :
    (got ++ copied got.length piece).take 4 <+: l := by
  have hhead := header_prefix hpre ((List.take_prefix (4 - got.length) piece).trans hpiece)
  unfold copied
  rw [← List.append_assoc]
  by_cases hshort : piece.length ≤ 4 - got.length
  · rw [Nat.sub_eq_zero_of_le hshort, List.take_zero, List.append_nil]
    exact hhead
  · rw [List.take_append_of_le_length (by rw [List.length_append, List.length_take]; omega)]
    exact hhead

namespace PackDealWith

/-- `_pData` holds `got` of the unfinished packet, seen through a `_head` that has been set;
`stale` is the byte at index 1 while no byte of the packet is there. -/
structure Holding (p : PackDealWith) (stale : UInt8) (got : List UInt8) : Prop where
  head : p.head = some 0
  cap : p.dataCap = 4096
  headSize : p.headSize = 4
  size : p.dataSize = got.length
  data : Memory.load p.pData 0 got.length = got
  stale : got.length < 2 → p.pData 1 = stale

variable {p : PackDealWith} {stale : UInt8} {got : List UInt8}

theorem new_holding (m : ℕ → UInt8) :
    Holding { PackDealWith.new m with head := some 0 } (m 1) [] :=
  ⟨rfl, rfl, rfl, rfl, rfl, fun _ => rfl⟩

/-- The bytes of `_pData` that are of the packet. -/
theorem Holding.getElem? (h : p.Holding stale got) {k : ℕ} (hk : k < got.length) :
    got[k]? = some (p.pData k) := by
  rw [← h.data, Memory.getElem?_load, if_pos hk, Nat.zero_add]

/-- Behind the bytes that are there a `memcpy` appends, if it stays in `_pData` and the region. -/
theorem Holding.memcpy (h : p.Holding stale got) (src : List UInt8) {n : ℕ}
    (hn : n ≤ src.length) (hcap : got.length + n ≤ 4096) :
    ∃ m, p.memcpy p.dataSize src n = .ok { p with pData := m } ∧
      Holding { p with pData := m, dataSize := got.length + n } stale (got ++ src.take n) := by
  have htake : (src.take n).length = n := by
    rw [List.length_take, min_eq_left hn]
  refine ⟨Memory.store p.pData got.length (src.take n), ?_, h.head, h.cap, h.headSize, ?_, ?_, ?_⟩
  · unfold PackDealWith.memcpy
    rw [if_pos ⟨by omega, by rw [h.size, h.cap]; omega, by omega⟩, h.size, Int.toNat_natCast]
  · rw [List.length_append, htake]
  · have happend := Memory.load_store_append p.pData 0 got.length (src.take n)
    rw [Nat.zero_add, h.data] at happend
    rw [List.length_append]
    exact happend
  · intro hlt
    rw [List.length_append, htake] at hlt
    -- with fewer than two bytes there, index 1 has not been written
    show Memory.store p.pData got.length (src.take n) 1 = stale
    rw [Memory.store_above _ _ (by rw [htake]; omega)]
    exact h.stale (by omega)

/-- The header part of a round. -/
theorem Holding.copyHeader (h : p.Holding stale got) (hlt : got.length ≤ 4096)
    (region : List UInt8) :
    ∃ p', p.copyHeader region = .ok (p', min region.length (4 - got.length)) ∧
      p'.Holding stale (got ++ region.take (4 - got.length)) := by
  have htake : region.take (4 - got.length) = region.take (min region.length (4 - got.length)) := by
    rw [min_comm, ← List.take_take, List.take_length]
  unfold PackDealWith.copyHeader
  by_cases hhead : p.dataSize < p.headSize
  · have hsmall : got.length < 4 := by
      rw [h.size, h.headSize] at hhead
      exact hhead
    have hmin : (if region.length > p.headSize - p.dataSize then p.headSize - p.dataSize
        else region.length) = min region.length (4 - got.length) := by
      rw [h.size, h.headSize]
      split <;> omega
    obtain ⟨m, hcopy, hm⟩ := h.memcpy region
      (n := min region.length (4 - got.length)) (by omega) (by omega)
    refine ⟨_, ?_, htake ▸ hm⟩
    have hu : u16 ((p.dataSize : ℤ) + (min region.length (4 - got.length) : ℕ)) =
        got.length + min region.length (4 - got.length) := by
      rw [h.size, ← Nat.cast_add, u16_natCast (by omega)]
    simp only [if_pos hhead, hmin, hcopy, Except.map, hu]
  · have hbig : 4 ≤ got.length := by
      rw [h.size, h.headSize] at hhead
      omega
    refine ⟨p, ?_, ?_⟩
    · simp [if_neg hhead, Nat.sub_eq_zero_of_le hbig]
    · simpa [Nat.sub_eq_zero_of_le hbig] using h

/-- The body part of a round, when the length read is not below what is there. -/
theorem Holding.copyBody (h : p.Holding stale got) {region : List UInt8} {n hl : ℕ}
    (hlen : p.headLen = .ok hl) (hle : got.length ≤ hl) (hn : n ≤ region.length)
    (hregion : region.length < 65536)
    (hcap : hl ≤ 4096 ∨ n = region.length ∧ got.length ≤ 4096) :
    ∃ p', p.copyBody region n =
        .ok (p', n + min (region.length - n) (hl - got.length)) ∧
      p'.Holding stale (got ++ region.take (min (region.length - n) (hl - got.length))) := by
  obtain ⟨k, hk⟩ : ∃ k, k = min (region.length - n) (hl - got.length) := ⟨_, rfl⟩
  rw [← hk]
  obtain ⟨m, hcopy, hm⟩ := h.memcpy region (n := k) (by omega) (by omega)
  refine ⟨_, ?_, hm⟩
  have husize : u16 ((got.length : ℤ) + (k : ℕ)) = got.length + k := by
    rw [← Nat.cast_add]
    exact u16_natCast (by omega)
  have huread : u16 ((n : ℤ) + (k : ℕ)) = n + k := by
    rw [← Nat.cast_add]
    exact u16_natCast (by omega)
  unfold PackDealWith.copyBody
  rw [h.size] at hcopy
  simp only [hlen, h.size]
  by_cases hall : (hl : ℤ) ≥ got.length + ((region.length : ℤ) - n)
  · have hdiff : (region.length : ℤ) - n = (k : ℕ) := by omega
    have hend : n + k = region.length := by omega
    rw [if_pos hall, hdiff, hcopy]
    simp only [Except.map, husize, u16_natCast hregion, hend]
  · have hdiff : (hl : ℤ) - got.length = (k : ℕ) := by omega
    rw [if_neg hall, hdiff, hcopy]
    simp only [Except.map, hdiff, husize, huread]

/-- With one byte there, and a zero length read, the copy length is negative. -/
theorem Holding.copyBody_fault (h : p.Holding stale got) (region : List UInt8)
    (hlen : p.headLen = .ok 0) (hgot : got ≠ []) (n : ℕ) (hn : n ≤ region.length) :
    p.copyBody region n = .error (.badCopy got.length region.length (-got.length)) := by
  have hpos := List.length_pos_iff.2 hgot
  unfold PackDealWith.copyBody
  simp only [hlen]
  rw [if_neg (by rw [h.size]; omega)]
  unfold PackDealWith.memcpy
  rw [if_neg (by rw [h.size]; omega), h.size]
  simp [Except.map]

/-! ### The header fields -/

/-- The header bytes of `pk` that are there. -/
theorem Holding.headByte (h : p.Holding stale got) {pk : Packet} (hpre : got.take 4 <+: pk.bytes)
    {k : ℕ} (hk : k < 4) (hgot : k < got.length) : some (p.pData k) = pk.bytes[k]? := by
  have hlen : k < (got.take 4).length := by
    rw [List.length_take]
    omega
  rw [← h.getElem? hgot, ← List.getElem?_take_of_lt hk, List.prefix_iff_eq_take.1 hpre,
    List.getElem?_take_of_lt hlen]

/-- With both length bytes of `pk` there, the length read is its size. -/
theorem Holding.headLen (h : p.Holding stale got) {pk : Packet} (hpre : got.take 4 <+: pk.bytes)
    (hgot : 2 ≤ got.length) : p.headLen = .ok pk.size := by
  have h0 := h.headByte hpre (k := 0) (by omega) (by omega)
  have h1 := h.headByte hpre (k := 1) (by omega) (by omega)
  simp only [Packet.bytes, le16, List.cons_append, List.getElem?_cons_zero,
    List.getElem?_cons_succ, Option.some.injEq] at h0 h1
  have hle := pk.size_le
  unfold PackDealWith.headLen
  rw [h.head]
  simp only [Nat.zero_add, h0, h1]
  exact congrArg _ (le16_decode (by omega))

/-- With only the low length byte there, the high one is what an earlier packet left. -/
theorem Holding.headLen_one {b : UInt8} (h : p.Holding stale [b]) :
    p.headLen = .ok (b.toNat + 256 * stale.toNat) := by
  have hb : p.pData 0 = b := by
    have hget := h.getElem? (k := 0) (by simp)
    simpa using hget.symm
  unfold PackDealWith.headLen
  rw [h.head]
  simp only [Nat.zero_add, hb, h.stale (by simp)]

/-- The message id, once the header is there. -/
theorem Holding.headMsgId (h : p.Holding stale got) {pk : Packet} (hpre : got.take 4 <+: pk.bytes)
    (hgot : 4 ≤ got.length) : p.headMsgId = .ok pk.msgId.toNat := by
  have h2 := h.headByte hpre (k := 2) (by omega) (by omega)
  have h3 := h.headByte hpre (k := 3) (by omega) (by omega)
  simp only [Packet.bytes, le16, List.cons_append, List.nil_append, List.getElem?_cons_zero,
    List.getElem?_cons_succ, Option.some.injEq] at h2 h3
  unfold PackDealWith.headMsgId
  rw [h.head]
  simp only [Nat.zero_add, h2, h3]
  exact congrArg _ (le16_decode (UInt16.toNat_lt _))

/-- A packet is not found too long. -/
theorem Holding.oversize (h : p.Holding stale got) {pk : Packet}
    (hpre : got.take 4 <+: pk.bytes) : p.oversize = .ok false := by
  unfold PackDealWith.oversize
  rw [h.headSize, h.size, h.cap]
  by_cases hgot : 4 ≤ got.length
  · rw [if_pos hgot, h.headLen hpre (by omega)]
    have hle := pk.size_le
    simp only [Except.map, Except.ok.injEq, decide_eq_false_iff_not]
    omega
  · rw [if_neg hgot]

/-! ### A round -/

/-- The round that takes one zero byte, with a zero left over behind it. -/
def Trap (stale : UInt8) (got piece : List UInt8) : Prop := got = [] ∧ piece = [0] ∧ stale = 0

instance (stale : UInt8) (got piece : List UInt8) : Decidable (Trap stale got piece) :=
  inferInstanceAs (Decidable (_ ∧ _ ∧ _))

/-- Outside the trap the length read is not below what is there, and right if more than one byte
is there. -/
theorem Holding.headLen_read (h : p.Holding stale got) {pk : Packet} (hpre : got.take 4 <+: pk.bytes)
    (hne : got ≠ []) (hle : got.length ≤ pk.size) (htrap : ¬ (got = [0] ∧ stale = 0)) :
    ∃ hl, p.headLen = .ok hl ∧ got.length ≤ hl ∧ (hl = pk.size ∨ got.length = 1) := by
  by_cases htwo : 2 ≤ got.length
  · exact ⟨pk.size, h.headLen hpre htwo, hle, .inl rfl⟩
  · have hpos := List.length_pos_iff.2 hne
    obtain ⟨b, rfl⟩ := List.length_eq_one_iff.1 (by omega : got.length = 1)
    refine ⟨_, h.headLen_one, ?_, .inr rfl⟩
    rw [List.length_singleton]
    by_contra hlow
    have hb : b.toNat = (0 : UInt8).toNat := by
      show b.toNat = 0
      omega
    have hst : stale.toNat = (0 : UInt8).toNat := by
      show stale.toNat = 0
      omega
    exact htrap ⟨by rw [UInt8.toNat_inj.1 hb], UInt8.toNat_inj.1 hst⟩

/-- One byte after the header copy is all of the region. -/
theorem only_byte {g r : ℕ} (hpos : 0 < r) (hone : g + min r (4 - g) = 1) : g = 0 ∧ r = 1 := by
  omega

/-- The body copy takes what the piece has behind the header. -/
theorem left_to_copy {g r size hl : ℕ} (hgt : 4 < size) (hlt : g < size) (hpos : 0 < r)
    (hright : hl = size ∨ g + min r (4 - g) = 1) :
    min (r - min r (4 - g)) (hl - (g + min r (4 - g))) = min (size - g) r - (4 - g) := by
  rcases hright with rfl | hone
  · omega
  · obtain ⟨rfl, rfl⟩ := only_byte hpos hone
    rw [show min 1 (4 - 0) = 1 from rfl, Nat.sub_self, Nat.zero_min]
    omega

/-- The two copies take the piece. -/
theorem header_add_body {g size : ℕ} (r : ℕ) (hgt : 4 < size) :
    min r (4 - g) + (min (size - g) r - (4 - g)) = min (size - g) r := by
  omega

/-- The two copies of a round, outside the trap. -/
theorem Holding.round (h : p.Holding stale got) {pk : Packet} (hpre : got.take 4 <+: pk.bytes)
    (hlt : got.length < pk.size) {region : List UInt8} (hne : region ≠ [])
    (hregion : region.length < 65536)
    (hpiece : region.take (pk.size - got.length) <+: pk.bytes.drop got.length)
    (htrap : ¬ Trap stale got (region.take (pk.size - got.length))) :
    ∃ p₁ n p₂, p.copyHeader region = .ok (p₁, n) ∧ p₁.oversize = .ok false ∧
      p₁.copyBody region n = .ok (p₂, (region.take (pk.size - got.length)).length) ∧
      p₂.Holding stale (got ++ copied got.length (region.take (pk.size - got.length))) := by
  have hgt := pk.size_gt
  have hle := pk.size_le
  have hpos := List.length_pos_iff.2 hne
  obtain ⟨p₁, hheader, h₁⟩ := h.copyHeader (by omega) region
  have hlen₁ : (got ++ region.take (4 - got.length)).length =
      got.length + min region.length (4 - got.length) := by
    rw [List.length_append, List.length_take, min_comm]
  have hlenp : (region.take (pk.size - got.length)).length =
      min (pk.size - got.length) region.length := List.length_take
  -- the header bytes of the region are bytes of `pk`
  have hpre₁ : (got ++ region.take (4 - got.length)).take 4 <+: pk.bytes :=
    header_prefix hpre ((List.take_prefix_take_left (by omega)).trans hpiece)
  have hne₁ : got ++ region.take (4 - got.length) ≠ [] := by
    rw [← List.length_pos_iff, hlen₁]
    omega
  have hle₁ : (got ++ region.take (4 - got.length)).length ≤ pk.size := by
    rw [hlen₁]
    omega
  have htrap₁ : ¬ (got ++ region.take (4 - got.length) = [0] ∧ stale = 0) := by
    rintro ⟨hzero, hstale⟩
    have hone : got.length + min region.length (4 - got.length) = 1 := by
      rw [← hlen₁, hzero]
      rfl
    obtain ⟨hgot, hregion⟩ := only_byte hpos hone
    obtain rfl := List.length_eq_zero_iff.1 hgot
    rw [List.nil_append, List.length_nil, List.take_of_length_le (by omega)] at hzero
    rw [hzero, List.length_nil, List.take_of_length_le (by rw [List.length_singleton]; omega)] at htrap
    exact htrap ⟨rfl, rfl, hstale⟩
  obtain ⟨hl, hhl, hlow, hright⟩ := h₁.headLen_read hpre₁ hne₁ hle₁ htrap₁
  rw [hlen₁] at hlow hright
  have hcap : hl ≤ 4096 ∨ min region.length (4 - got.length) = region.length ∧
      (got ++ region.take (4 - got.length)).length ≤ 4096 := by
    rcases hright with rfl | hone
    · exact .inl hle
    · obtain ⟨hgot, hregion⟩ := only_byte hpos hone
      rw [hlen₁, hone, hgot, hregion]
      exact .inr ⟨rfl, by decide⟩
  obtain ⟨p₂, hbody, h₂⟩ := h₁.copyBody (n := min region.length (4 - got.length)) hhl
    (by omega) (by omega) hregion hcap
  have hm : min (region.length - min region.length (4 - got.length))
      (hl - (got ++ region.take (4 - got.length)).length) =
      min (pk.size - got.length) region.length - (4 - got.length) := by
    rw [hlen₁]
    exact left_to_copy hgt hlt hpos hright
  have hcopied := copied_take region (show 4 - got.length ≤ pk.size - got.length by omega)
  rw [hm, List.append_assoc, ← hcopied] at h₂
  refine ⟨p₁, _, p₂, hheader, h₁.oversize hpre₁, ?_, h₂⟩
  rw [hbody, hm, hlenp, header_add_body region.length hgt]

end PackDealWith

namespace TcpStickyWrap

open PackDealWith

variable {s : TcpStickyWrap} {stale : UInt8} {got : List UInt8} {pk : Packet}

/-- The end of a round delivers a packet that is complete, and nothing else. -/
theorem finishPack_spec (h : s.pack.Holding stale got) (hpre : got.take 4 <+: pk.bytes) :
    finishPack s =
      .ok (if got.length = pk.size then
        { s with msgs := s.msgs ++ [⟨pk.msgId.toNat, got⟩], pack := { s.pack with dataSize := 0 } }
      else s) := by
  have hgt := pk.size_gt
  unfold finishPack
  rw [h.headSize, h.size]
  by_cases hfour : 4 < got.length
  · rw [if_pos hfour, h.headLen hpre (by omega), h.headMsgId hpre (by omega)]
    by_cases hfull : got.length = pk.size
    · rw [if_pos hfull]
      simp only [hfull.symm, if_true, h.data]
    · simp only [if_neg hfull, if_neg (Ne.symm hfull)]
  · rw [if_neg hfour, if_neg (by omega)]

/-- A delivered packet leaves the high byte of its length behind. -/
theorem delivered_holding {p : PackDealWith} (h : p.Holding stale got)
    (hpre : got.take 4 <+: pk.bytes) (hfull : got.length = pk.size) :
    Holding { p with dataSize := 0 } pk.high [] := by
  have hgt := pk.size_gt
  have h1 := h.headByte hpre (k := 1) (by omega) (by omega)
  simp only [Packet.bytes, le16, List.cons_append, List.getElem?_cons_zero,
    List.getElem?_cons_succ, Option.some.injEq] at h1
  exact ⟨h.head, h.cap, h.headSize, rfl, rfl, fun _ => h1⟩

/-- A round outside the trap takes the piece and adds `copied` to the packet. -/
theorem pass_spec (h : s.pack.Holding stale got) (hpre : got.take 4 <+: pk.bytes)
    (hlt : got.length < pk.size) {region : List UInt8} (hbuf : s.recvBuf = [region])
    (hne : region ≠ []) (hregion : region.length < 65536) {piece : List UInt8}
    (heq : piece = region.take (pk.size - got.length)) (hpiece : piece <+: pk.bytes.drop got.length)
    (htrap : ¬ Trap stale got piece) (total : ℕ) :
    ∃ s' : TcpStickyWrap,
      pass (s, total) =
        (if region.length ≤ piece.length then .done ((total : ℤ) + (piece.length : ℤ), s')
         else .next (s', total + piece.length)) ∧
      s'.recvBuf = (if region.length ≤ piece.length then [] else [region.drop piece.length]) ∧
      (if got.length + piece.length = pk.size then
        s'.msgs = s.msgs ++ [⟨pk.msgId.toNat, got ++ copied got.length piece⟩] ∧
          s'.pack.Holding pk.high []
       else s'.msgs = s.msgs ∧ s'.pack.Holding stale (got ++ copied got.length piece)) := by
  have hround := h.round hpre hlt hne hregion (heq ▸ hpiece) (heq ▸ htrap)
  rw [← heq] at hround
  obtain ⟨p₁, n, p₂, hheader, hover, hbody, h₂⟩ := hround
  have hpre₂ := header_copied hpre hpiece
  have hlen₂ : (got ++ copied got.length piece).length = got.length + piece.length := by
    rw [List.length_append, length_copied]
  -- the object between the two copies and the test for a whole packet
  let s₂ : TcpStickyWrap := { s with pack := p₂, recvBuf := adjustReadSize s.recvBuf piece.length
                                     decided := s.decided ++ [p₁.dataSize] }
  have hfinish := finishPack_spec (s := s₂) h₂ hpre₂
  rw [hlen₂] at hfinish
  obtain ⟨s', hs'⟩ : ∃ s', finishPack s₂ = .ok s' := ⟨_, hfinish⟩
  rw [hs', Except.ok.injEq] at hfinish
  have hadjust : adjustReadSize s.recvBuf piece.length =
      if region.length ≤ piece.length then [] else [region.drop piece.length] := by
    rw [hbuf]
    unfold adjustReadSize
    by_cases hall : region.length ≤ piece.length
    · simp [hall, Nat.not_lt.2 hall]
    · simp [hall, Nat.not_le.1 hall]
  refine ⟨s', ?_, ?_, ?_⟩
  · have hregion' : s.recvBuf.headD [] = region := by rw [hbuf, List.headD_cons]
    unfold pass
    simp only [hregion', hheader, hover, hbody]
    rw [show finishPack _ = _ from hs']
  · rw [hfinish, ← hadjust]
    split <;> rfl
  · rw [hfinish]
    by_cases hfull : got.length + piece.length = pk.size
    · rw [if_pos hfull, if_pos hfull]
      exact ⟨rfl, delivered_holding h₂ hpre₂ (hlen₂.trans hfull)⟩
    · rw [if_neg hfull, if_neg hfull]
      exact ⟨rfl, h₂⟩

/-- A round in the trap computes a negative copy length. -/
theorem pass_trap (h : s.pack.Holding 0 []) (hbuf : s.recvBuf = [[0]]) (total : ℕ) :
    pass (s, total) = .fault (.badCopy 1 1 (-1)) := by
  obtain ⟨p₁, hheader, h₁⟩ := h.copyHeader (by simp) [0]
  have hlen : p₁.headLen = .ok 0 := h₁.headLen_one
  have hover : p₁.oversize = .ok false := by
    unfold PackDealWith.oversize
    rw [h₁.headSize, h₁.size, if_neg (by simp)]
  have hbody := h₁.copyBody_fault [0] hlen (by simp) 1 (by simp)
  have hregion : s.recvBuf.headD [] = [0] := by rw [hbuf, List.headD_cons]
  unfold pass
  simp only [hregion, hheader, hover]
  rw [show p₁.copyBody [0] (min ([0] : List UInt8).length (4 - ([] : List UInt8).length)) = _
    from hbody]
  rfl

end TcpStickyWrap
end NetService
