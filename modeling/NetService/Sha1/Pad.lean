import NetService.Sha1.Block

/-!
# `SHA1PadMessage` and the bytes of the digest

`filled` is the part of `Message_Block` in front of the index.  Everything that is put into the block
appends to it (`Filled`), so that at the end of `SHA1PadMessage` the blocks that have been processed
are those of the padded message.
-/

namespace NetService
namespace Sha1

open BlockHash (hash rest)

/-! ### Bytes of a word -/

theorem ofNat_shiftRight (w : UInt32) {n : ℕ} (hn : n < 32) :
    (w >>> UInt32.ofNat n).toUInt8 = UInt8.ofNat (w.toNat / 2 ^ n) := by
  have hmod : n % 2 ^ 32 % 32 = n := by omega
  apply UInt8.toNat_inj.1
  rw [UInt32.toNat_toUInt8, UInt32.toNat_shiftRight, UInt32.toNat_ofNat', hmod,
    Nat.shiftRight_eq_div_pow, UInt8.toNat_ofNat']

theorem bigEndian_four (w : UInt32) :
    Word.bigEndian 4 w.toNat =
      [(w >>> 24).toUInt8, (w >>> 16).toUInt8, (w >>> 8).toUInt8, w.toUInt8] := by
  have h24 : (w >>> 24).toUInt8 = UInt8.ofNat (w.toNat / 256 ^ 3) := ofNat_shiftRight w (n := 24) (by decide)
  have h16 : (w >>> 16).toUInt8 = UInt8.ofNat (w.toNat / 256 ^ 2) := ofNat_shiftRight w (n := 16) (by decide)
  have h8 : (w >>> 8).toUInt8 = UInt8.ofNat (w.toNat / 256 ^ 1) := ofNat_shiftRight w (n := 8) (by decide)
  have h0 : w.toUInt8 = UInt8.ofNat (w.toNat / 256 ^ 0) := by
    rw [pow_zero, Nat.div_one]
    rfl
  rw [h24, h16, h8, h0]
  rfl

/-- The two words of the length. -/
theorem bigEndian_eight (high low : UInt32) :
    Word.bigEndian 8 (high.toNat * 2 ^ 32 + low.toNat) =
      Word.bigEndian 4 high.toNat ++ Word.bigEndian 4 low.toNat := by
  have hlow := low.toNat_lt
  have hbyte : ∀ j < 4, UInt8.ofNat ((high.toNat * 2 ^ 32 + low.toNat) / 256 ^ j) =
      UInt8.ofNat (low.toNat / 256 ^ j) := by
    intro j hj
    apply UInt8.toNat_inj.1
    rw [UInt8.toNat_ofNat', UInt8.toNat_ofNat']
    interval_cases j <;> omega
  have hbyte' : ∀ j < 4, (high.toNat * 2 ^ 32 + low.toNat) / 256 ^ (j + 4) = high.toNat / 256 ^ j := by
    intro j hj
    interval_cases j <;> omega
  simp only [Word.bigEndian, List.cons_append, List.nil_append]
  rw [hbyte 0 (by decide), hbyte 1 (by decide), hbyte 2 (by decide), hbyte 3 (by decide),
    ← hbyte' 0 (by decide), ← hbyte' 1 (by decide), ← hbyte' 2 (by decide), ← hbyte' 3 (by decide)]

/-- What `SHA1Result` copies out are the bytes of the value. -/
theorem digest_eq (c : SHA1Context) : c.digest = bytes c.intermediateHash := by
  obtain ⟨⟨⟨ws⟩, hws⟩, hvalue⟩ : ∃ h : Value, c.intermediateHash = h := ⟨_, rfl⟩
  obtain ⟨a, b, d, e, g, rfl⟩ : ∃ a b d e g, ws = [a, b, d, e, g] := by
    match ws, hws with
    | [a, b, d, e, g], _ => exact ⟨a, b, d, e, g, rfl⟩
  have hbytes : ∀ w : UInt32, Word.bigEndian 4 w.toNat =
      [(w >>> 24).toUInt8, (w >>> 16).toUInt8, (w >>> 8).toUInt8, (w >>> 0).toUInt8] := by
    intro w
    rw [bigEndian_four]
    simp
  simp only [SHA1Context.digest, bytes, hvalue, List.flatMap_cons, List.flatMap_nil, hbytes,
    Vector.toList_mk]
  rfl

/-! ### Filling the block -/

/-- The part of the block in front of the index. -/
def SHA1Context.filled (c : SHA1Context) : List UInt8 := c.messageBlock.toList.take c.messageBlockIndex

/-- A full block. -/
theorem SHA1Context.filled_of_full {c : SHA1Context} (h : c.messageBlockIndex = 64) :
    c.filled = c.messageBlock.toList := by
  apply List.take_of_length_le
  rw [Vector.length_toList, h]

/-- `c'` is `c` with `bs` put into the block. -/
structure Filled (c : SHA1Context) (bs : List UInt8) (c' : SHA1Context) : Prop where
  filled : c'.filled = c.filled ++ bs
  index : c'.messageBlockIndex = c.messageBlockIndex + bs.length
  value : c'.intermediateHash = c.intermediateHash
  low : c'.lengthLow = c.lengthLow
  high : c'.lengthHigh = c.lengthHigh
  computed : c'.computed = c.computed
  corrupted : c'.corrupted = c.corrupted

theorem Filled.refl (c : SHA1Context) : Filled c [] c where
  filled := (List.append_nil _).symm
  index := rfl
  value := rfl
  low := rfl
  high := rfl
  computed := rfl
  corrupted := rfl

theorem Filled.trans {c d e : SHA1Context} {bs bs' : List UInt8} (h : Filled c bs d)
    (h' : Filled d bs' e) : Filled c (bs ++ bs') e where
  filled := by rw [h'.filled, h.filled, List.append_assoc]
  index := by rw [h'.index, h.index, List.length_append, Nat.add_assoc]
  value := h'.value.trans h.value
  low := h'.low.trans h.low
  high := h'.high.trans h.high
  computed := h'.computed.trans h.computed
  corrupted := h'.corrupted.trans h.corrupted

theorem take_succ_set {l : List UInt8} {i : ℕ} (h : i < l.length) (b : UInt8) :
    (l.set i b).take (i + 1) = l.take i ++ [b] := by
  rw [List.take_succ_eq_append_getElem (by rwa [List.length_set]), List.getElem_set_self,
    List.take_set_of_le (Nat.le_refl i)]

theorem put_spec {c : SHA1Context} (h : c.messageBlockIndex < 64) (b : UInt8) :
    ∃ c', c.put b = some c' ∧ Filled c [b] c' := by
  refine ⟨_, dif_pos h, ?_, rfl, rfl, rfl, rfl, rfl, rfl⟩
  unfold SHA1Context.filled
  rw [Vector.toList_set, take_succ_set (by rwa [Vector.length_toList])]

theorem putZeros_spec {n : ℕ} {c : SHA1Context} (h : c.messageBlockIndex + n ≤ 64) :
    ∃ c', SHA1Context.putZeros n c = some c' ∧ Filled c (List.replicate n 0) c' := by
  induction n generalizing c with
  | zero => exact ⟨c, rfl, .refl c⟩
  | succ n ih =>
    obtain ⟨d, hput, hd⟩ := put_spec (c := c) (by omega) 0
    have hroom : d.messageBlockIndex + n ≤ 64 := by
      rw [hd.index, List.length_singleton]
      omega
    obtain ⟨e, hzeros, he⟩ := ih hroom
    refine ⟨e, ?_, hd.trans he⟩
    rw [SHA1Context.putZeros, hput, Option.bind_some, hzeros]

theorem zeroUpTo_spec {limit : ℕ} {c : SHA1Context} (h : c.messageBlockIndex ≤ limit)
    (hlimit : limit ≤ 64) : ∃ c', c.zeroUpTo limit = some c' ∧
      Filled c (List.replicate (limit - c.messageBlockIndex) 0) c' ∧
      c'.messageBlockIndex = limit := by
  obtain ⟨c', hzeros, hc'⟩ := putZeros_spec (n := limit - c.messageBlockIndex) (c := c) (by omega)
  refine ⟨c', hzeros, hc', ?_⟩
  rw [hc'.index, List.length_replicate]
  omega

/-- The length goes into the last 8 bytes. -/
theorem storeLength_block {c : SHA1Context} (h : c.messageBlockIndex = 56) :
    c.storeLength.messageBlock.toList =
      c.filled ++ Word.bigEndian 8 (c.lengthHigh.toNat * 2 ^ 32 + c.lengthLow.toNat) := by
  have hlen : c.messageBlock.toList.length = 64 := Vector.length_toList
  have hall : c.storeLength.messageBlock.toList.take 64 = c.storeLength.messageBlock.toList := by
    apply List.take_of_length_le
    rw [Vector.length_toList]
  rw [← hall, SHA1Context.filled, h, bigEndian_eight, bigEndian_four, bigEndian_four]
  simp only [SHA1Context.storeLength, Vector.toList_set]
  rw [take_succ_set (by simp [hlen]), take_succ_set (by simp [hlen]), take_succ_set (by simp [hlen]),
    take_succ_set (by simp [hlen]), take_succ_set (by simp [hlen]), take_succ_set (by simp [hlen]),
    take_succ_set (by simp [hlen]), take_succ_set (by simp [hlen])]
  simp only [List.append_assoc, List.cons_append, List.nil_append]

/-! ### Blocks -/

/-- The blocks that have been processed and the part of a block in front of the index are those of
the message. -/
structure Blocks (c : SHA1Context) (msg : List UInt8) : Prop where
  value : c.intermediateHash = hash compress 64 start msg
  filled : c.filled = rest 64 msg
  index : c.messageBlockIndex = msg.length % 64

theorem Blocks.index_lt {c : SHA1Context} {msg : List UInt8} (h : Blocks c msg) :
    c.messageBlockIndex < 64 := by
  rw [h.index]
  exact Nat.mod_lt _ (by decide)

/-- Put into a block that does not become full. -/
theorem Blocks.put {c c' : SHA1Context} {msg bs : List UInt8} (h : Blocks c msg)
    (hfilled : c'.filled = c.filled ++ bs)
    (hindex : c'.messageBlockIndex = c.messageBlockIndex + bs.length)
    (hvalue : c'.intermediateHash = c.intermediateHash) (hlt : msg.length % 64 + bs.length < 64) :
    Blocks c' (msg ++ bs) where
  value := by rw [hvalue, h.value, BlockHash.hash_append_of_lt hlt]
  filled := by rw [hfilled, h.filled, BlockHash.rest_append_of_lt hlt]
  index := by
    rw [hindex, h.index, List.length_append]
    omega

/-- Put into a block that becomes full and is processed. -/
theorem Blocks.process {c c' : SHA1Context} {msg bs : List UInt8} (h : Blocks c msg)
    (hblock : c'.messageBlock.toList = c.filled ++ bs) (hvalue : c'.intermediateHash = c.intermediateHash)
    (hfull : msg.length % 64 + bs.length = 64) : Blocks (sha1ProcessMessageBlock c') (msg ++ bs) where
  value := by
    rw [sha1ProcessMessageBlock_hash, hblock, hvalue, h.value, h.filled,
      BlockHash.hash_append_of_eq (by decide) hfull]
  filled := by
    rw [BlockHash.rest_append_of_eq hfull, SHA1Context.filled, sha1ProcessMessageBlock_index,
      List.take_zero]
  index := by rw [sha1ProcessMessageBlock_index, BlockHash.length_append_full hfull, Nat.mul_mod_right]

theorem Filled.block {c c' : SHA1Context} {bs : List UInt8} (h : Filled c bs c')
    (hfull : c'.messageBlockIndex = 64) : c'.messageBlock.toList = c.filled ++ bs := by
  rw [← SHA1Context.filled_of_full hfull, h.filled]

/-! ### `SHA1PadMessage` -/

/-- The context has taken in the message and the digest has not been asked for. -/
structure Absorbed (c : SHA1Context) (msg : List UInt8) : Prop where
  blocks : Blocks c msg
  length : c.lengthHigh.toNat * 2 ^ 32 + c.lengthLow.toNat = 8 * msg.length
  computed : c.computed = false
  corrupted : c.corrupted = 0

/-- The length counters hold less than 2 ^ 64 bits. -/
theorem Absorbed.length_lt {c : SHA1Context} {msg : List UInt8} (h : Absorbed c msg) :
    msg.length < 2 ^ 61 := by
  have hlow := c.lengthLow.toNat_lt
  have hhigh := c.lengthHigh.toNat_lt
  have hlength := h.length
  omega

/-- The end of the padding, when there is room for the length: zeros, the length, and the block is
processed. -/
theorem finish_spec {c : SHA1Context} {msg : List UInt8} (h : Blocks c msg)
    (hle : msg.length % 64 ≤ 56) :
    ∃ c', c.zeroUpTo 56 = some c' ∧ c'.corrupted = c.corrupted ∧
      Blocks (sha1ProcessMessageBlock c'.storeLength)
        (msg ++ (List.replicate (56 - msg.length % 64) 0 ++
          Word.bigEndian 8 (c.lengthHigh.toNat * 2 ^ 32 + c.lengthLow.toNat))) := by
  have hi := h.index
  obtain ⟨d, hzeros, hd, hd56⟩ := zeroUpTo_spec (show c.messageBlockIndex ≤ 56 by omega) (by decide)
  refine ⟨d, hzeros, hd.corrupted, h.process ?_ hd.value ?_⟩
  · rw [storeLength_block hd56, hd.filled, hd.low, hd.high, h.index, List.append_assoc]
  · rw [List.length_append, List.length_replicate, Word.length_bigEndian]
    omega

/-- There is room for the length in the block. -/
theorem sha1PadMessage_short {c : SHA1Context} {msg : List UInt8} (h : Blocks c msg)
    (hi : ¬ c.messageBlockIndex > 55) :
    ∃ c', sha1PadMessage c = some c' ∧ c'.corrupted = c.corrupted ∧
      Blocks c' (msg ++ [0x80] ++ (List.replicate (56 - (msg ++ [0x80]).length % 64) 0 ++
        Word.bigEndian 8 (c.lengthHigh.toNat * 2 ^ 32 + c.lengthLow.toNat))) := by
  have hindex := h.index
  obtain ⟨d, hput, hd⟩ := put_spec h.index_lt 0x80
  have hblocks : Blocks d (msg ++ [0x80]) := by
    apply h.put hd.filled hd.index hd.value
    rw [List.length_singleton]
    omega
  have hle : (msg ++ [0x80]).length % 64 ≤ 56 := by
    rw [List.length_append, List.length_singleton]
    omega
  obtain ⟨e, hzeros, hcorr, he⟩ := finish_spec hblocks hle
  refine ⟨sha1ProcessMessageBlock e.storeLength, ?_, hcorr.trans hd.corrupted, ?_⟩
  · rw [sha1PadMessage, if_neg hi, hput, Option.bind_eq_bind, Option.bind_some, hzeros]
    rfl
  · rwa [hd.low, hd.high] at he

/-- There is none: the block is completed with zeros and the next one is all padding. -/
theorem sha1PadMessage_long {c : SHA1Context} {msg : List UInt8} (h : Blocks c msg)
    (hi : c.messageBlockIndex > 55) :
    ∃ c', sha1PadMessage c = some c' ∧ c'.corrupted = c.corrupted ∧
      Blocks c' (msg ++ ([0x80] ++ List.replicate (63 - msg.length % 64) 0) ++
        (List.replicate 56 0 ++
          Word.bigEndian 8 (c.lengthHigh.toNat * 2 ^ 32 + c.lengthLow.toNat))) := by
  have hindex := h.index
  have hmod := h.index_lt
  obtain ⟨d, hput, hd⟩ := put_spec hmod 0x80
  have hdindex : d.messageBlockIndex = msg.length % 64 + 1 := by
    rw [hd.index, hindex, List.length_singleton]
  obtain ⟨e, hzeros, he, he64⟩ :=
    zeroUpTo_spec (show d.messageBlockIndex ≤ 64 by omega) (Nat.le_refl _)
  have hfilled := hd.trans he
  have hn : 64 - d.messageBlockIndex = 63 - msg.length % 64 := by omega
  rw [hn] at hfilled
  have hfull : msg.length % 64 +
      ([0x80] ++ List.replicate (63 - msg.length % 64) (0 : UInt8)).length = 64 := by
    rw [List.length_append, List.length_replicate, List.length_singleton]
    omega
  have hblocks := h.process (hfilled.block he64) hfilled.value hfull
  have hmod0 : (msg ++ ([0x80] ++ List.replicate (63 - msg.length % 64) (0 : UInt8))).length % 64 = 0 := by
    rw [← hblocks.index, sha1ProcessMessageBlock_index]
  obtain ⟨g, hzeros', hcorr, hg⟩ := finish_spec hblocks (by omega)
  refine ⟨sha1ProcessMessageBlock g.storeLength, ?_, ?_, ?_⟩
  · rw [sha1PadMessage, if_pos hi, hput, Option.bind_eq_bind, Option.bind_some, hzeros,
      Option.bind_some, hzeros']
    rfl
  · rw [sha1ProcessMessageBlock_corrupted] at hcorr
    exact hcorr.trans hfilled.corrupted
  · rwa [hmod0, Nat.sub_zero, sha1ProcessMessageBlock_low, sha1ProcessMessageBlock_high, hfilled.low,
      hfilled.high] at hg

/-- Either way the message is padded as the standard says, and every block is processed. -/
theorem sha1PadMessage_spec {c : SHA1Context} {msg : List UInt8} (h : Absorbed c msg) :
    ∃ c', sha1PadMessage c = some c' ∧ c'.corrupted = 0 ∧
      c'.intermediateHash = hash compress 64 start (msg ++ padding msg.length) := by
  have hindex := h.blocks.index
  have hmod := h.blocks.index_lt
  by_cases hi : c.messageBlockIndex > 55
  · obtain ⟨c', hpad, hcorr, hc'⟩ := sha1PadMessage_long h.blocks hi
    refine ⟨c', hpad, hcorr.trans h.corrupted, ?_⟩
    have hzeros : zeros msg.length = 63 - msg.length % 64 + 56 := by
      unfold zeros
      omega
    rw [hc'.value, h.length, padding, hzeros, ← List.replicate_append_replicate]
    simp only [List.append_assoc, List.cons_append, List.nil_append]
  · obtain ⟨c', hpad, hcorr, hc'⟩ := sha1PadMessage_short h.blocks hi
    refine ⟨c', hpad, hcorr.trans h.corrupted, ?_⟩
    have hzeros : 56 - (msg ++ [0x80]).length % 64 = zeros msg.length := by
      unfold zeros
      rw [List.length_append, List.length_singleton]
      omega
    rw [hc'.value, h.length, hzeros, padding]
    simp only [List.append_assoc, List.cons_append, List.nil_append]

end Sha1
end NetService
