import NetService.Lib.OrBytes
import NetService.Ws.Frame
import NetService.Ws.StickyWrap

/-!
# The header `sendFrame` builds, read back

`frameHead_eq` writes the header as a base header and the big-endian bytes of the length.
`header_read` follows `parseWsHead` over it: the decoder takes exactly the header, and finds `fin`,
the opcode and the length that `StickyWrap::headLen` finds as well.  That length is the size when no
byte with its highest bit set comes behind a byte other than `0xFF` (`headLen_eq_iff`).
-/

namespace NetService
namespace Ws

open Memory

/-! ### Lengths from signed bytes -/

theorem extLen16_toBitVec (p : ℕ → UInt8) :
    (extLen16 p).toBitVec = Word.orBytes (BitVec.signExtend 64) [p 0, p 1] := by
  simp [extLen16, charToU64, Word.orBytes]

theorem extLen64_toBitVec (p : ℕ → UInt8) :
    (extLen64 p).toBitVec =
      Word.orBytes (BitVec.signExtend 64) [p 0, p 1, p 2, p 3, p 4, p 5, p 6, p 7] := by
  simp [extLen64, charToU64, Word.orBytes, BitVec.or_assoc]

/-- A size is the word of its bytes. -/
theorem toBitVec_eq_orBytes {size : UInt64} {k : ℕ} (hk : k ≤ 8) (h : size.toNat < 256 ^ k) :
    size.toBitVec = Word.orBytes (BitVec.setWidth 64) (Word.bigEndian k size.toNat) := by
  refine BitVec.eq_of_toNat_eq ?_
  have hlen := Word.length_bigEndian k size.toNat
  rw [Word.toNat_orBytes_zero (by omega), Word.joined_bigEndian h]
  rfl

/-- A size of 16 bits: all that is behind its leading zero bytes must have the highest bit clear. -/
theorem covered_short {n : ℕ} (h : n < 65536) :
    (Word.bigEndian 8 n).Pairwise Word.Covered ↔ ∀ b ∈ Word.bigEndian 2 n, Word.high b = false := by
  have hlead : ∀ k, Word.bigEndian (k + 3) n = 0 :: Word.bigEndian (k + 2) n := by
    intro k
    have hlt : n < 256 ^ (k + 2) := by
      calc n < 256 ^ 2 := h
        _ ≤ 256 ^ (k + 2) := Nat.pow_le_pow_right (by decide) (by omega)
    rw [Word.bigEndian, Nat.div_eq_of_lt hlt]
    rfl
  have hhigh : Word.high 0 = false := by decide
  rw [hlead 5, Word.pairwise_zero_cons, hlead 4, hlead 3, hlead 2, hlead 1, hlead 0]
  simp only [List.forall_mem_cons, hhigh, true_and]

/-! ### The header -/

/-- `payLoad` of the header. -/
def headPayLoad (size : UInt64) : ℕ :=
  if size.toNat ≤ 125 then size.toNat else if size.toNat < 65535 then 126 else 127

/-- The extended length of the header. -/
def headExt (size : UInt64) : List UInt8 :=
  if size.toNat ≤ 125 then []
  else if size.toNat < 65535 then Word.bigEndian 2 size.toNat
  else Word.bigEndian 8 size.toNat

theorem byte_of_shift (size : UInt64) {s : UInt64} {k : ℕ} (hs : s.toNat = 8 * k) (hk : k < 8) :
    (size >>> s).toUInt8 = UInt8.ofNat (size.toNat / 256 ^ k) := by
  refine UInt8.toNat_inj.1 ?_
  have hpow : (256 : ℕ) ^ k = 2 ^ (8 * k) := by
    rw [pow_mul]
    rfl
  rw [UInt64.toNat_toUInt8, UInt64.toNat_shiftRight, hs, Nat.mod_eq_of_lt (show 8 * k < 64 by omega),
    Nat.shiftRight_eq_div_pow, UInt8.toNat_ofNat', hpow]

theorem byte_of_size (size : UInt64) : size.toUInt8 = UInt8.ofNat (size.toNat / 256 ^ 0) := by
  rw [pow_zero, Nat.div_one]
  exact UInt8.toNat_inj.1 (by rw [UInt64.toNat_toUInt8, UInt8.toNat_ofNat'])

/-- The header is a base header and the extended length. -/
theorem frameHead_eq (size : UInt64) (type : ℕ) :
    frameHead size type =
      UInt8.ofNat (128 ||| type) :: UInt8.ofNat (headPayLoad size) :: headExt size := by
  unfold frameHead headPayLoad headExt
  by_cases hshort : size.toNat ≤ 125
  · have hmask : size.toUInt8 &&& 0x7F = UInt8.ofNat size.toNat := by
      refine UInt8.toNat_inj.1 ?_
      rw [UInt8.toNat_and, UInt64.toNat_toUInt8, UInt8.toNat_ofNat']
      show size.toNat % 2 ^ 8 &&& (2 ^ 7 - 1) = _
      rw [Nat.and_two_pow_sub_one_eq_mod]
      omega
    rw [if_pos (UInt64.le_iff_toNat_le.2 hshort), if_pos hshort, if_pos hshort, hmask]
  · rw [if_neg (fun h => hshort (UInt64.le_iff_toNat_le.1 h)), if_neg hshort, if_neg hshort]
    by_cases hext : size.toNat < 65535
    · have hrange : 126 ≤ size ∧ size < 65535 :=
        ⟨UInt64.le_iff_toNat_le.2 (show 126 ≤ size.toNat by omega), UInt64.lt_iff_toNat_lt.2 hext⟩
      rw [if_pos hrange, if_pos hext, if_pos hext, Word.bigEndian, Word.bigEndian, Word.bigEndian,
        byte_of_shift size (k := 1) (by decide) (by decide), byte_of_size]
      rfl
    · have hrange : ¬ (126 ≤ size ∧ size < 65535) := fun h =>
        hext (UInt64.lt_iff_toNat_lt.1 h.2)
      rw [if_neg hrange, if_neg hext, if_neg hext]
      simp only [Word.bigEndian]
      rw [byte_of_shift size (k := 7) (by decide) (by decide),
        byte_of_shift size (k := 6) (by decide) (by decide),
        byte_of_shift size (k := 5) (by decide) (by decide),
        byte_of_shift size (k := 4) (by decide) (by decide),
        byte_of_shift size (k := 3) (by decide) (by decide),
        byte_of_shift size (k := 2) (by decide) (by decide),
        byte_of_shift size (k := 1) (by decide) (by decide), byte_of_size]
      rfl

theorem headPayLoad_lt (size : UInt64) : headPayLoad size < 128 := by
  unfold headPayLoad
  split_ifs <;> omega

/-- How many length bytes `payLoad` announces. -/
theorem length_headExt (size : UInt64) :
    (headExt size).length =
      if headPayLoad size < 126 then 0 else if headPayLoad size = 126 then 2 else 8 := by
  unfold headExt headPayLoad
  by_cases hshort : size.toNat ≤ 125
  · rw [if_pos hshort, if_pos hshort, if_pos (by omega)]
    rfl
  · rw [if_neg hshort, if_neg hshort]
    by_cases hext : size.toNat < 65535
    · rw [if_pos hext, if_pos hext, if_neg (by decide), if_pos rfl, Word.length_bigEndian]
    · rw [if_neg hext, if_neg hext, if_neg (by decide), if_neg (by decide), Word.length_bigEndian]

theorem payLoad_head (size : UInt64) : payLoad (UInt8.ofNat (headPayLoad size)) = headPayLoad size := by
  have h := headPayLoad_lt size
  unfold payLoad
  rw [UInt8.toNat_ofNat']
  omega

/-- The first byte has `fin` set and holds the type. -/
theorem first_byte {type : ℕ} (h : type < 16) :
    fin (UInt8.ofNat (128 ||| type)) = true ∧ opcod (UInt8.ofNat (128 ||| type)) = type := by
  have hsum : 128 ||| type = 128 + type := Word.or_eq_add (k := 7) ⟨1, rfl⟩ (by omega)
  unfold fin opcod
  rw [UInt8.toNat_ofNat', hsum, decide_eq_true_eq]
  omega

/-! ### The decoder -/

/-- The parser before a frame, with the header of `sendFrame` and the bytes `rest` at `pbuff`. -/
structure AtHeader (d : WsDealWith) (pbuff : ℕ) (size : UInt64) (type : ℕ) (rest : List UInt8) :
    Prop where
  op : d.op = .initHead
  headSize : d.headSize = 2
  bytes : load d.pData pbuff ((frameHead size type).length + rest.length) =
    frameHead size type ++ rest
  more : 4 ≤ rest.length

/-- The bytes of the header at `p`. -/
structure HeaderBytes (p : ℕ → UInt8) (size : UInt64) (type : ℕ) : Prop where
  first : p 0 = UInt8.ofNat (128 ||| type)
  second : p 1 = UInt8.ofNat (headPayLoad size)
  ext : load p 2 (headExt size).length = headExt size

variable {d : WsDealWith} {pbuff : ℕ} {size : UInt64} {type : ℕ} {rest : List UInt8}

theorem AtHeader.header (h : AtHeader d pbuff size type rest) :
    HeaderBytes (fun i => d.pData (pbuff + i)) size type := by
  have hlen : (frameHead size type).length = 2 + (headExt size).length := by
    rw [frameHead_eq, List.length_cons, List.length_cons]
    omega
  have hhead : load d.pData pbuff (2 + (headExt size).length) = frameHead size type := by
    rw [← hlen, ← take_load _ _ _ _ (Nat.le_add_right _ rest.length), h.bytes, List.take_left]
  rw [load_add, frameHead_eq] at hhead
  have hcells : [d.pData pbuff, d.pData (pbuff + 1)] ++ load d.pData (pbuff + 2) (headExt size).length =
      UInt8.ofNat (128 ||| type) :: UInt8.ofNat (headPayLoad size) :: headExt size := hhead
  injection hcells with hfirst htail
  injection htail with hsecond hext
  refine ⟨hfirst, hsecond, Eq.trans ?_ (show load d.pData (pbuff + 2) _ = _ from hext)⟩
  refine List.ext_getElem (by simp) fun i _ _ => ?_
  rw [getElem_load, getElem_load, Nat.add_assoc]

/-- The length read from the header is the size, unless a byte with its highest bit set comes behind
one that is not all ones. -/
theorem headLen_eq_iff {p : ℕ → UInt8} (h : HeaderBytes p size type) :
    (StickyWrap.headLen p).1 = size ↔
      (Word.bigEndian 8 size.toNat).Pairwise Word.Covered := by
  have hsize := size.toNat_lt
  have hpay : payLoad (p 1) = headPayLoad size := by rw [h.second, payLoad_head]
  have hext := h.ext
  unfold StickyWrap.headLen
  simp only [hpay]
  -- the length is joined from signed bytes, so each form comes down to which bytes are high
  by_cases hshort : size.toNat ≤ 125
  · have hpl : headPayLoad size = size.toNat := if_pos hshort
    rw [if_pos (by omega), hpl, UInt64.ofNat_toNat, covered_short (by omega)]
    have hzero : size.toNat / 256 ^ 1 = 0 := Nat.div_eq_of_lt (by omega)
    have hlow : Word.high (UInt8.ofNat size.toNat) = false := by
      rw [Bool.eq_false_iff, ne_eq, Word.high_iff, UInt8.toNat_ofNat']
      omega
    simp only [Word.bigEndian, List.forall_mem_cons, hzero, pow_zero, Nat.div_one, hlow]
    exact iff_of_true trivial ⟨by decide, trivial, by simp⟩
  · by_cases hmid : size.toNat < 65535
    · have hpl : headPayLoad size = 126 := by rw [headPayLoad, if_neg hshort, if_pos hmid]
      have hbytes : headExt size = Word.bigEndian 2 size.toNat := by
        rw [headExt, if_neg hshort, if_pos hmid]
      have hpair : [p (2 + 0), p (2 + 1)] = Word.bigEndian 2 size.toNat := by
        rw [← hbytes, ← hext, hbytes]
        rfl
      rw [if_neg (by omega), if_pos hpl, covered_short (by omega), ← UInt64.toBitVec_inj,
        extLen16_toBitVec, hpair, toBitVec_eq_orBytes (k := 2) (by decide) (by omega),
        Word.orBytes_sign_eq_iff (by simp)]
      constructor
      · intro hno
        exact hno.2 (by simp)
      · intro hno
        refine ⟨List.pairwise_of_forall_mem_list fun a _ b hb hhigh => ?_, fun _ => hno⟩
        exact absurd hhigh (Bool.eq_false_iff.1 (hno b hb))
    · have hpl : headPayLoad size = 127 := by rw [headPayLoad, if_neg hshort, if_neg hmid]
      have hbytes : headExt size = Word.bigEndian 8 size.toNat := by
        rw [headExt, if_neg hshort, if_neg hmid]
      have hall : [p (2 + 0), p (2 + 1), p (2 + 2), p (2 + 3), p (2 + 4), p (2 + 5), p (2 + 6),
          p (2 + 7)] = Word.bigEndian 8 size.toNat := by
        rw [← hbytes, ← hext, hbytes]
        rfl
      rw [if_neg (by omega), if_neg (by omega), ← UInt64.toBitVec_inj, extLen64_toBitVec, hall,
        toBitVec_eq_orBytes (k := 8) (by decide) (by omega), Word.orBytes_sign_eq_iff (by simp)]
      constructor
      · exact fun hcov => hcov.1
      · intro hcov
        exact ⟨hcov, fun hlt => absurd hlt (by simp)⟩

/-- The parser behind the base header at `pbuff`. -/
def opened (d : WsDealWith) (pbuff : ℕ) : WsDealWith :=
  { d with head := ⟨some pbuff, 0, fun _ => 0⟩, op := .readPayload, parseIndex := 0 }

/-- The first call takes the base header. -/
theorem base_read {n : ℕ} (hop : d.op = .initHead) (hsize : d.headSize = 2) (hn : 2 ≤ n) :
    d.parseWsHead pbuff n = .ok (opened d pbuff, some 2) :=
  (parse_initHead hop (by omega)).trans
    (congrArg (fun l => Except.ok (opened d pbuff, some l)) hsize)

/-- The second call finds the length the older parser finds, if all of it is there. -/
theorem length_read {n : ℤ} (hn : 0 < n)
    (hext : ((StickyWrap.headLen fun i => d.pData (pbuff + i)).2 : ℤ) ≤ n) :
    (opened d pbuff).parseWsHead (pbuff + 2) n =
      .ok ({ opened d pbuff with
          head := { (opened d pbuff).head with
            len := (StickyWrap.headLen fun i => d.pData (pbuff + i)).1 }
          op := .readMaskKey }, some (StickyWrap.headLen fun i => d.pData (pbuff + i)).2) := by
  have hlt : payLoad (d.pData (pbuff + 1)) < 128 := Nat.mod_lt _ (by decide)
  unfold StickyWrap.headLen at hext ⊢
  simp only [← Nat.add_assoc] at hext ⊢
  by_cases hshort : payLoad (d.pData (pbuff + 1)) < 126
  · rw [if_pos hshort]
    exact parse_readPayload_short rfl rfl hn hshort
  · rw [if_neg hshort] at hext ⊢
    by_cases hmid : payLoad (d.pData (pbuff + 1)) = 126
    · rw [if_pos hmid] at hext ⊢
      exact parse_readPayload_ext16 rfl rfl hmid hext
    · rw [if_neg hmid] at hext ⊢
      have hlong : payLoad (d.pData (pbuff + 1)) = 127 := by omega
      exact parse_readPayload_ext64 rfl rfl hlong hext

/-- Two calls take the header, and find the length the older parser finds. -/
theorem header_read (h : AtHeader d pbuff size type rest) :
    d.parseWsHead pbuff ((frameHead size type).length + rest.length : ℕ) =
        .ok (opened d pbuff, some 2) ∧
      (opened d pbuff).parseWsHead (pbuff + 2)
          (((frameHead size type).length + rest.length : ℕ) - (2 : ℕ)) =
        .ok ({ opened d pbuff with
            head := { (opened d pbuff).head with
              len := (StickyWrap.headLen fun i => d.pData (pbuff + i)).1 }
            op := .readMaskKey }, some (headExt size).length) := by
  have hmore := h.more
  have hpay : payLoad (d.pData (pbuff + 1)) = headPayLoad size := by
    have hsecond : d.pData (pbuff + 1) = _ := h.header.second
    rw [hsecond, payLoad_head]
  have hlen : (frameHead size type).length = 2 + (headExt size).length := by
    rw [frameHead_eq, List.length_cons, List.length_cons]
    omega
  have hext : (StickyWrap.headLen fun i => d.pData (pbuff + i)).2 = (headExt size).length := by
    unfold StickyWrap.headLen
    simp only [hpay, length_headExt]
    split_ifs <;> rfl
  have hthere : ((StickyWrap.headLen fun i => d.pData (pbuff + i)).2 : ℤ) ≤
      ((frameHead size type).length + rest.length : ℕ) - (2 : ℕ) := by
    rw [hext]
    omega
  have hsecond := length_read (by omega) hthere
  rw [hext] at hsecond
  exact ⟨base_read h.op h.headSize (by omega), hsecond⟩

/-- The encoded header is decoded: two calls take it and find `fin`, the opcode and the size, and the
older parser finds the same length. -/
def Decodes (d : WsDealWith) (pbuff : ℕ) (size : UInt64) (type unread : ℕ) : Prop :=
  ∃ d₁ d₂ n₁ n₂ o,
    d.parseWsHead pbuff unread = .ok (d₁, some n₁) ∧
    d₁.parseWsHead (pbuff + n₁) ((unread : ℤ) - n₁) = .ok (d₂, some n₂) ∧
    n₁ + n₂ = (frameHead size type).length ∧ d₂.head.len = size ∧ d₂.head.wbs = some o ∧
    fin (d₂.pData o) = true ∧ opcod (d₂.pData o) = type ∧
    ∀ wshead, (StickyWrap.parseWsHead wshead d.pData pbuff unread).1.len = size

/-- The header is decoded when its length is. -/
theorem decodes_iff_headLen (htype : type < 16) (h : AtHeader d pbuff size type rest) :
    Decodes d pbuff size type ((frameHead size type).length + rest.length) ↔
      (StickyWrap.headLen fun i => d.pData (pbuff + i)).1 = size := by
  obtain ⟨hbase, hlength⟩ := header_read h
  have hfirst : d.pData pbuff = UInt8.ofNat (128 ||| type) := h.header.first
  have hmore := h.more
  constructor
  · rintro ⟨d₁, d₂, n₁, n₂, o, hcall₁, hcall₂, -, hlen, -⟩
    rw [hbase] at hcall₁
    cases hcall₁
    rw [hlength] at hcall₂
    cases hcall₂
    exact hlen
  · intro hlen
    refine ⟨_, _, _, _, pbuff, hbase, hlength, ?_, hlen, rfl, ?_, ?_, ?_⟩
    · rw [frameHead_eq, List.length_cons, List.length_cons, Nat.add_comm]
    · show fin (d.pData pbuff) = true
      rw [hfirst]
      exact (first_byte htype).1
    · show opcod (d.pData pbuff) = type
      rw [hfirst]
      exact (first_byte htype).2
    · intro wshead
      rw [StickyWrap.parseWsHead_len _ _ _ (by omega), hlen]

/-- The header decoder inverts the encoder on exactly the sizes in whose eight bytes, the highest
first, every byte before one from 128 on is 255. -/
theorem header_decoded_iff (size : UInt64) (type : ℕ) (htype : type < 16) (d : WsDealWith)
    (pbuff : ℕ) (rest : List UInt8) (h : AtHeader d pbuff size type rest) :
    Decodes d pbuff size type ((frameHead size type).length + rest.length) ↔
      (Word.bigEndian 8 size.toNat).Pairwise Word.Covered := by
  rw [decodes_iff_headLen htype h]
  exact headLen_eq_iff h.header

/-- A fresh parser whose block holds the header for `size` bytes of text and four bytes more. -/
def atText (size : UInt64) : WsDealWith :=
  .new (store (fun _ => 0) 0 (frameHead size 1 ++ [0, 0, 0, 0])) ⟨none, 0, fun _ => 0⟩

theorem atText_atHeader (size : UInt64) : AtHeader (atText size) 0 size 1 [0, 0, 0, 0] where
  op := rfl
  headSize := rfl
  bytes := by
    rw [← List.length_append]
    exact load_store (fun _ => 0) 0 (frameHead size 1 ++ [0, 0, 0, 0])
  more := le_rfl

/-- 127 bytes are encoded with a 16-bit length, and decoded. -/
theorem header_decoded_iff_127 :
    Decodes (atText 127) 0 127 1 ((frameHead 127 1).length + 4) :=
  (header_decoded_iff 127 1 (by decide) (atText 127) 0 [0, 0, 0, 0] (atText_atHeader 127)).2
    (by decide)

/-- 128 bytes are not: the length byte `0x80` is sign-extended. -/
theorem header_128_not_decoded :
    ¬ Decodes (atText 128) 0 128 1 ((frameHead 128 1).length + 4) := by
  have hheader := atText_atHeader 128
  intro hdecodes
  have hlen := (decodes_iff_headLen (by decide) hheader).1 hdecodes
  exact absurd ((headLen_eq_iff hheader.header).1 hlen) (by decide)

end Ws
end NetService
