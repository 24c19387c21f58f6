import NetService.Lib.Codec
import NetService.Lib.Word
import NetService.Ws.Model

/-!
# `sendFrame` and the frames a client reads

`serverCodec` is the format of unmasked frames: a byte with `FIN` and the opcode, the payload length
in the shortest of its three forms, and the payload.  `sendFrame_eq` compares what `sendFrame` passes
to `write` with it: there is one byte behind the payload, and 65535 bytes get the longest form.
`delimited_iff` is what follows for sequences of frames.
-/

namespace NetService
namespace Ws

/-! ### The format -/

/-- The payload length in the shortest form. -/
def lenBytes (n : ℕ) : List UInt8 :=
  if n < 126 then [UInt8.ofNat n]
  else if n < 65536 then 126 :: Word.bigEndian 2 n
  else 127 :: Word.bigEndian 8 n

/-- A payload length and what follows it. -/
def decodeLen : List UInt8 → Option (ℕ × List UInt8)
  | [] => none
  | b :: rest =>
      if b.toNat < 126 then some (b.toNat, rest)
      else if b = 126 ∧ 2 ≤ rest.length ∧ 126 ≤ Word.joined (rest.take 2) then
        some (Word.joined (rest.take 2), rest.drop 2)
      else if b = 127 ∧ 8 ≤ rest.length ∧ 65536 ≤ Word.joined (rest.take 8) then
        some (Word.joined (rest.take 8), rest.drop 8)
      else none

theorem decodeLen_lenBytes {n : ℕ} (h : n < 2 ^ 63) (rest : List UInt8) :
    decodeLen (lenBytes n ++ rest) = some (n, rest) := by
  unfold lenBytes
  split_ifs with hshort hmid
  · have hn : (UInt8.ofNat n).toNat = n := by
      rw [UInt8.toNat_ofNat']
      omega
    simp only [List.cons_append, List.nil_append, decodeLen, hn]
    rw [if_pos hshort]
  · have htake : (Word.bigEndian 2 n ++ rest).take 2 = Word.bigEndian 2 n :=
      List.take_left' (Word.length_bigEndian 2 n)
    have hdrop : (Word.bigEndian 2 n ++ rest).drop 2 = rest :=
      List.drop_left' (Word.length_bigEndian 2 n)
    have hlen : 2 ≤ (Word.bigEndian 2 n ++ rest).length := by
      rw [List.length_append, Word.length_bigEndian]
      omega
    have hjoin : Word.joined (Word.bigEndian 2 n) = n := Word.joined_bigEndian hmid
    rw [List.cons_append, decodeLen, if_neg (by decide), htake, hjoin,
      if_pos ⟨rfl, hlen, by omega⟩, hdrop]
  · have htake : (Word.bigEndian 8 n ++ rest).take 8 = Word.bigEndian 8 n :=
      List.take_left' (Word.length_bigEndian 8 n)
    have hdrop : (Word.bigEndian 8 n ++ rest).drop 8 = rest :=
      List.drop_left' (Word.length_bigEndian 8 n)
    have hlen : 8 ≤ (Word.bigEndian 8 n ++ rest).length := by
      rw [List.length_append, Word.length_bigEndian]
      omega
    have hjoin : Word.joined (Word.bigEndian 8 n) = n :=
      Word.joined_bigEndian (h.trans (by decide))
    rw [List.cons_append, decodeLen, if_neg (by decide), if_neg fun hmid => absurd hmid.1 (by decide),
      htake, hjoin, if_pos ⟨rfl, hlen, by omega⟩, hdrop]

theorem eq_of_decodeLen {l rest : List UInt8} {n : ℕ} (h : decodeLen l = some (n, rest)) :
    l = lenBytes n ++ rest := by
  cases l with
  | nil => cases h
  | cons b l =>
    rw [decodeLen] at h
    split_ifs at h with hshort hmid hlong
    · cases h
      unfold lenBytes
      rw [if_pos hshort, UInt8.ofNat_toNat]
      rfl
    · obtain ⟨rfl, hlen, hlow⟩ := hmid
      cases h
      have htwo : (l.take 2).length = 2 := by rw [List.length_take]; omega
      have hlt := Word.joined_lt (l.take 2)
      have hbytes := Word.bigEndian_joined (l.take 2)
      rw [htwo] at hlt hbytes
      unfold lenBytes
      rw [if_neg (by omega), if_pos (by omega), hbytes, List.cons_append, List.take_append_drop]
    · obtain ⟨rfl, hlen, hlow⟩ := hlong
      cases h
      have height : (l.take 8).length = 8 := by rw [List.length_take]; omega
      have hbytes := Word.bigEndian_joined (l.take 8)
      rw [height] at hbytes
      unfold lenBytes
      rw [if_neg (by omega), if_neg (by omega), hbytes, List.cons_append, List.take_append_drop]

/-- An unmasked frame. -/
structure ServerFrame where
  fin : Bool
  opcod : Fin 16
  payload : List UInt8
  payload_lt : payload.length < 2 ^ 63
deriving DecidableEq

/-- The first byte of a frame. -/
def firstByte (fin : Bool) (opcod : Fin 16) : UInt8 :=
  UInt8.ofNat (opcod.val + if fin then 128 else 0)

namespace ServerFrame

/-- The frame on the wire. -/
def bytes (f : ServerFrame) : List UInt8 :=
  firstByte f.fin f.opcod :: (lenBytes f.payload.length ++ f.payload)

/-- A frame and what follows it; the bits between `FIN` and the opcode are zero. -/
def decode : List UInt8 → Option (ServerFrame × List UInt8)
  | [] => none
  | b :: l =>
      if b.toNat % 128 < 16 then
        match decodeLen l with
        | some (n, l) =>
            if h : n ≤ l.length ∧ (l.take n).length < 2 ^ 63 then
              some (⟨Ws.fin b, Fin.ofNat 16 b.toNat, l.take n, h.2⟩, l.drop n)
            else none
        | none => none
      else none

end ServerFrame

theorem toNat_firstByte (fin : Bool) (opcod : Fin 16) :
    (firstByte fin opcod).toNat = opcod.val + if fin then 128 else 0 := by
  have h := opcod.isLt
  unfold firstByte
  rw [UInt8.toNat_ofNat']
  split <;> omega

theorem fin_firstByte (fin : Bool) (opcod : Fin 16) : Ws.fin (firstByte fin opcod) = fin := by
  have h := opcod.isLt
  unfold Ws.fin
  rw [toNat_firstByte]
  cases fin with
  | true => exact decide_eq_true (by rw [if_pos rfl]; omega)
  | false => exact decide_eq_false (by rw [if_neg (by decide)]; omega)

theorem opcod_firstByte (fin : Bool) (opcod : Fin 16) :
    Fin.ofNat 16 (firstByte fin opcod).toNat = opcod := by
  have h := opcod.isLt
  refine Fin.ext ?_
  show (firstByte fin opcod).toNat % 16 = opcod.val
  rw [toNat_firstByte]
  split <;> omega

/-- A byte without bits between `FIN` and the opcode. -/
theorem firstByte_eq {b : UInt8} (h : b.toNat % 128 < 16) :
    firstByte (Ws.fin b) (Fin.ofNat 16 b.toNat) = b := by
  have hlt := b.toNat_lt
  rw [← UInt8.toNat_inj, toNat_firstByte]
  show b.toNat % 16 + _ = b.toNat
  unfold Ws.fin
  by_cases hfin : 128 ≤ b.toNat
  · rw [if_pos (decide_eq_true hfin)]
    omega
  · rw [if_neg (by simpa using hfin)]
    omega

theorem ServerFrame.decode_bytes (f : ServerFrame) (rest : List UInt8) :
    decode (f.bytes ++ rest) = some (f, rest) := by
  obtain ⟨fin, opcod, payload, hlt⟩ := f
  have hrsv : (firstByte fin opcod).toNat % 128 < 16 := by
    have h := opcod.isLt
    rw [toNat_firstByte]
    split <;> omega
  have htake : (payload ++ rest).take payload.length = payload := List.take_left
  have hdrop : (payload ++ rest).drop payload.length = rest := List.drop_left
  simp only [bytes, List.cons_append, List.append_assoc, decode, decodeLen_lenBytes hlt]
  rw [if_pos hrsv, dif_pos ⟨by rw [List.length_append]; omega, by rwa [htake]⟩]
  simp only [htake, hdrop, fin_firstByte, opcod_firstByte]

theorem ServerFrame.eq_of_decode {l rest : List UInt8} {f : ServerFrame}
    (h : decode l = some (f, rest)) : l = f.bytes ++ rest := by
  cases l with
  | nil => cases h
  | cons b l =>
    rw [decode] at h
    split_ifs at h with hrsv
    cases hlen : decodeLen l with
    | none =>
      rw [hlen] at h
      cases h
    | some p =>
      obtain ⟨n, l'⟩ := p
      rw [hlen] at h
      simp only at h
      split_ifs at h with hthere
      cases h
      have htake : (l'.take n).length = n := by
        rw [List.length_take, Nat.min_eq_left hthere.1]
      unfold bytes
      simp only
      rw [firstByte_eq hrsv, htake, eq_of_decodeLen hlen, List.cons_append, List.append_assoc,
        List.take_append_drop]

/-- The format of unmasked frames. -/
def serverCodec : Codec ServerFrame UInt8 where
  encode := ServerFrame.bytes
  decode := ServerFrame.decode
  encode_ne_nil _ := List.cons_ne_nil _ _
  decode_encode := ServerFrame.decode_bytes
  eq_of_decode := ServerFrame.eq_of_decode

/-! ### `sendFrame` -/

/-- A call of `sendFrame`. -/
structure SendCall where
  pdata : List UInt8
  type : Fin 16
  fits : pdata.length < 2 ^ 63

namespace SendCall

/-- The frame it is for. -/
def frame (c : SendCall) : ServerFrame := ⟨true, c.type, c.pdata, c.fits⟩

/-- What it passes to `write`. -/
def bytes (c : SendCall) : List UInt8 := sendFrame c.pdata c.type

/-- `headSize` -/
def headSize (c : SendCall) : ℕ := (frameHead (UInt64.ofNat c.pdata.length) c.type).length

end SendCall

/-- The first byte of `frame`. -/
theorem first_eq (type : Fin 16) : UInt8.ofNat (128 ||| type.val) = firstByte true type := by
  have h := type.isLt
  unfold firstByte
  rw [Word.or_eq_add (k := 7) (by decide) (by omega), if_pos rfl, Nat.add_comm]

/-- Up to 65535 bytes, the head is that of the format; 65535 bytes get the longest form. -/
theorem frameHead_eq_format (n : ℕ) (h : n < 2 ^ 63) (type : Fin 16) :
    frameHead (UInt64.ofNat n) type =
      firstByte true type :: if n = 65535 then 127 :: Word.bigEndian 8 n else lenBytes n := by
  have hn : (UInt64.ofNat n).toNat = n := by
    rw [UInt64.toNat_ofNat']
    omega
  -- the shifts and comparisons of the source, on natural numbers
  have hbyte : ∀ k : UInt64, k.toNat < 64 →
      (UInt64.ofNat n >>> k).toUInt8 = UInt8.ofNat (n / 2 ^ k.toNat) := by
    intro k hk
    rw [← UInt8.toNat_inj, UInt64.toNat_toUInt8, UInt64.toNat_shiftRight, hn, UInt8.toNat_ofNat',
      Nat.mod_eq_of_lt hk, Nat.shiftRight_eq_div_pow]
  have hlow : (UInt64.ofNat n).toUInt8 = UInt8.ofNat n := by
    rw [← UInt8.toNat_inj, UInt64.toNat_toUInt8, hn, UInt8.toNat_ofNat']
  have hle : UInt64.ofNat n ≤ 125 ↔ n ≤ 125 := by
    rw [UInt64.le_iff_toNat_le, hn]
    rfl
  have hge : 126 ≤ UInt64.ofNat n ↔ 126 ≤ n := by
    rw [UInt64.le_iff_toNat_le, hn]
    rfl
  have hlt : UInt64.ofNat n < 65535 ↔ n < 65535 := by
    rw [UInt64.lt_iff_toNat_lt, hn]
    rfl
  unfold frameHead lenBytes
  simp only [hle, hge, hlt, first_eq]
  by_cases hshort : n ≤ 125
  · have hmask : (UInt64.ofNat n).toUInt8 &&& 0x7F = UInt8.ofNat n := by
      rw [hlow, ← UInt8.toNat_inj, UInt8.toNat_and, UInt8.toNat_ofNat']
      show n % 2 ^ 8 &&& 2 ^ 7 - 1 = n % 2 ^ 8
      rw [Nat.and_two_pow_sub_one_eq_mod]
      omega
    rw [if_pos hshort, if_neg (by omega), if_pos (by omega), hmask]
  · rw [if_neg hshort, if_neg (show ¬ n < 126 by omega)]
    by_cases hmid : n < 65535
    · rw [if_pos ⟨by omega, hmid⟩, if_neg (by omega), if_pos (by omega), hbyte 8 (by decide), hlow]
      simp [Word.bigEndian]
    · rw [if_neg (by omega), hbyte 56 (by decide), hbyte 48 (by decide), hbyte 40 (by decide),
        hbyte 32 (by decide), hbyte 24 (by decide), hbyte 16 (by decide), hbyte 8 (by decide), hlow]
      have hlong : (if n = 65535 then 127 :: Word.bigEndian 8 n else
          if n < 65536 then 126 :: Word.bigEndian 2 n else 127 :: Word.bigEndian 8 n) =
          127 :: Word.bigEndian 8 n := by
        split_ifs <;> first | rfl | omega
      rw [hlong]
      simp [Word.bigEndian]

/-- What `sendFrame` writes: the frame and a `'\0'`, unless the payload has 65535 bytes. -/
theorem sendFrame_eq (c : SendCall) (h : c.pdata.length ≠ 65535) :
    c.bytes = c.frame.bytes ++ [0] := by
  unfold SendCall.bytes sendFrame
  rw [frameHead_eq_format _ c.fits, if_neg h]
  rfl

/-- A call writes more bytes than the frame it is for has. -/
theorem length_bytes_lt (c : SendCall) : c.frame.bytes.length < c.bytes.length := by
  by_cases h : c.pdata.length = 65535
  · unfold SendCall.bytes sendFrame ServerFrame.bytes lenBytes
    rw [frameHead_eq_format _ c.fits, if_pos h]
    simp only [SendCall.frame, h, List.length_append, List.length_cons, List.length_nil,
      Word.length_bigEndian]
    decide
  · rw [sendFrame_eq c h, List.length_append]
    exact Nat.lt_succ_self _

/-- What the calls write is read as their frames and nothing else. -/
def Read (calls : List SendCall) : Prop :=
  serverCodec.decodeAll (calls.flatMap SendCall.bytes) = some (calls.map SendCall.frame)

/-- Each call writes its head and its payload only. -/
def Bare (calls : List SendCall) : Prop :=
  ∀ c ∈ calls, c.bytes.length = c.headSize + c.pdata.length

theorem read_iff (calls : List SendCall) : Read calls ↔ calls = [] := by
  constructor
  · intro h
    have heq := congrArg List.length ((serverCodec.decodeAll_iff).1 h)
    rw [List.flatMap_map, List.length_flatMap, List.length_flatMap] at heq
    cases calls with
    | nil => rfl
    | cons c calls =>
      exfalso
      have hlt := length_bytes_lt c
      have hle : (calls.map fun c => c.frame.bytes.length).sum ≤
          (calls.map fun c => c.bytes.length).sum :=
        List.sum_le_sum fun c _ => (length_bytes_lt c).le
      rw [List.map_cons, List.sum_cons, List.map_cons, List.sum_cons] at heq
      have hcode : serverCodec.encode c.frame = c.frame.bytes := rfl
      have hcodes : (calls.map fun c => (serverCodec.encode c.frame).length) =
          calls.map fun c => c.frame.bytes.length := rfl
      rw [hcode, hcodes] at heq
      omega
  · rintro rfl
    rfl

theorem bare_iff (calls : List SendCall) : Bare calls ↔ calls = [] := by
  constructor
  · intro h
    refine List.eq_nil_iff_forall_not_mem.2 fun c hc => ?_
    have hlen := h c hc
    unfold SendCall.bytes sendFrame SendCall.headSize at hlen
    rw [List.length_append, List.length_append, List.length_singleton] at hlen
    omega
  · rintro rfl
    exact fun c hc => absurd hc List.not_mem_nil

/-- What the calls write is never read as their frames and each call writes too much, unless there
are no calls. -/
theorem delimited_iff (calls : List SendCall) : Read calls ∧ Bare calls ↔ calls = [] := by
  constructor
  · exact fun h => (read_iff calls).1 h.1
  · exact fun h => ⟨(read_iff calls).2 h, (bare_iff calls).2 h⟩

/-- Two replies of one byte. -/
theorem two_replies_garbled :
    ¬ (Read [⟨[1], 9, by decide⟩, ⟨[2], 8, by decide⟩] ∧
      Bare [⟨[1], 9, by decide⟩, ⟨[2], 8, by decide⟩]) ∧
      serverCodec.decodeAll [0x89, 1, 1, 0, 0x88, 1, 2, 0] = none := by
  refine ⟨fun h => ?_, by decide +kernel⟩
  exact absurd (h.2 ⟨[1], 9, by decide⟩ (by simp)) (by decide)

end Ws
end NetService
