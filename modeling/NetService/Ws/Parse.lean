import NetService.Ws.Frame

/-!
# One call of `parseWsHead`

`Standing d k fs n` says that the parser has taken the first `n` bytes of the first of the frames
`fs`, which lies at offset `k` of `_pData`; `Holding` adds the buffer with the bytes `rest` that are
still to be parsed.  `parse_spec` follows one call: as long as the bytes that are there do not end
inside a header, the parser either stands further on in the frame, or has completed it (`Complete`).
-/

namespace NetService
namespace Ws

open Memory

/-! ### The loop of `READ_DATA` -/

/-- The loop stops after `n` bytes, at the end of what is there or of the payload. -/
theorem unmask_spec (n avail pbuff readlen : ℕ) (d : WsDealWith)
    (hle : d.parseIndex + n ≤ d.head.len.toNat) (hlt : d.parseIndex + n < 65536)
    (hstop : n = avail ∨ (n ≤ avail ∧ d.parseIndex + n = d.head.len.toNat))
    (hclean : ∀ b ∈ load d.pData pbuff n, b ≠ 0xFF) :
    d.unmask avail pbuff readlen =
      ({ d with
          pData := store d.pData pbuff
            (Keystream.crypt (maskAt d.head.masks) d.parseIndex
              (load d.pData pbuff n))
          parseIndex := d.parseIndex + n },
        some (readlen + n)) := by
  -- on the bytes still to take; the hypothesis is about what lies behind the first byte
  induction n generalizing avail pbuff readlen d with
  | zero =>
    rw [load_zero, Keystream.crypt_nil, store_nil]
    cases avail with
    | zero => rfl
    | succ avail =>
      have hend : d.parseIndex + 0 = d.head.len.toNat := by
        rcases hstop with h | h
        · omega
        · exact h.2
      unfold WsDealWith.unmask
      rw [if_neg (by omega)]
      rfl
  | succ n ih =>
    obtain ⟨avail, rfl⟩ : ∃ a, avail = a + 1 := ⟨avail - 1, by omega⟩
    have hsplit := load_succ d.pData pbuff n
    rw [hsplit, List.forall_mem_cons] at hclean
    have hu16 : u16 (d.parseIndex + 1) = d.parseIndex + 1 := by
      exact_mod_cast u16_natCast (n := d.parseIndex + 1) (by omega)
    have hkeep : ∀ b, load (Function.update d.pData pbuff b) (pbuff + 1) n =
        load d.pData (pbuff + 1) n := fun b => load_update_above _ _ b (Nat.lt_succ_self pbuff)
    unfold WsDealWith.unmask
    rw [if_pos (by omega)]
    simp only [hclean.1, if_false, hu16]
    refine (ih avail (pbuff + 1) (readlen + 1) _ ?_ ?_ ?_ ?_).trans ?_
    · show d.parseIndex + 1 + n ≤ d.head.len.toNat
      omega
    · show d.parseIndex + 1 + n < 65536
      omega
    · show n = avail ∨ (n ≤ avail ∧ d.parseIndex + 1 + n = d.head.len.toNat)
      omega
    · rw [hkeep]
      exact hclean.2
    · simp only [hkeep, hsplit, Keystream.crypt_cons, store_update]
      rw [Nat.add_assoc d.parseIndex 1 n, Nat.add_assoc readlen 1 n, Nat.add_comm 1 n]

/-! ### Where the parser stands -/

/-- The base header of `f` is at offset `k`, `_head.wbs` points to it, and `i` bytes of the payload
have been parsed. -/
structure InFrame (d : WsDealWith) (k : ℕ) (f : Frame) (i : ℕ) : Prop where
  wbs : d.head.wbs = some k
  index : d.parseIndex = i
  base : load d.pData k 2 = f.base

/-- The parser has taken `n` bytes of the first of the frames `fs`, at offset `k`. -/
inductive Standing (d : WsDealWith) (k : ℕ) : List Frame → ℕ → Prop
  | idle {fs : List Frame} (op : d.op = .initHead) : Standing d k fs 0
  /-- an empty payload is behind it, but `INIT_HEAD` not yet reached -/
  | drained {fs : List Frame} {o : ℕ} (op : d.op = .readData) (wbs : d.head.wbs = some o)
      (len : d.head.len.toNat = 0) (index : d.parseIndex = 0) : Standing d k fs 0
  | base {f : Frame} {fs : List Frame} (op : d.op = .readPayload) (frame : InFrame d k f 0) :
      Standing d k (f :: fs) 2
  | length {f : Frame} {fs : List Frame} (op : d.op = .readMaskKey) (frame : InFrame d k f 0)
      (len : d.head.len.toNat = f.payload.length) : Standing d k (f :: fs) (2 + f.ext.length)
  | payload {f : Frame} {fs : List Frame} {i : ℕ} (op : d.op = .readData)
      (frame : InFrame d k f i) (len : d.head.len.toNat = f.payload.length)
      (masks : d.head.masks = f.key) (lt : i < f.payload.length)
      (load : load d.pData (k + f.headSize) i = f.payload.take i) :
      Standing d k (f :: fs) (f.headSize + i)

/-- `_pData` holds `rest` behind the `n` bytes taken. -/
structure Buffered (d : WsDealWith) (k n : ℕ) (rest : List UInt8) : Prop where
  cap : d.dataCap = 8192
  headSize : d.headSize = 2
  readSize : d.readSize = k + n
  dataSize : d.dataSize = k + n + rest.length
  room : d.dataSize < 8192
  load : load d.pData (k + n) rest.length = rest

/-- The parser with its buffer. -/
structure Holding (d : WsDealWith) (k : ℕ) (fs : List Frame) (n : ℕ) (rest : List UInt8) :
    Prop where
  buffered : Buffered d k n rest
  standing : Standing d k fs n

/-- The frame `f` at offset `k` has been parsed to its end. -/
structure Complete (d : WsDealWith) (k : ℕ) (f : Frame) (rest : List UInt8) : Prop where
  buffered : Buffered d k f.size rest
  op : d.op = .initHead
  frame : InFrame d k f f.payload.length
  len : d.head.len.toNat = f.payload.length
  ne : f.payload ≠ []
  load : Memory.load d.pData (k + f.headSize) f.payload.length = f.payload

/-- The test for a complete frame fails. -/
def Unfinished (d : WsDealWith) : Prop :=
  ∃ o, d.head.wbs = some o ∧ (d.parseIndex = 0 ∨ d.parseIndex < d.head.len.toNat)

/-- `_Read_size` after a call that took `l` bytes. -/
def taken (d : WsDealWith) (l : ℕ) : WsDealWith := { d with readSize := u16 (d.readSize + l) }

theorem taken_zero {d : WsDealWith} (h : d.readSize < 65536) : taken d 0 = d := by
  have hread : u16 ((d.readSize : ℤ) + (0 : ℕ)) = d.readSize := by
    rw [Nat.cast_zero, Int.add_zero]
    exact u16_natCast h
  exact congrArg (fun n => { d with readSize := n }) hread

/-! ### What is in the buffer -/

/-- A piece of the stream that is there is at its place. -/
theorem Buffered.load_piece {d : WsDealWith} {k n : ℕ} {rest piece : List UInt8} {fs : List Frame}
    (h : Buffered d k n rest) (hrest : rest <+: (wire fs).drop n)
    (hpiece : piece <+: (wire fs).drop n) (hle : piece.length ≤ rest.length) :
    Memory.load d.pData (k + n) piece.length = piece := by
  have hprefix : piece <+: rest := List.prefix_of_prefix_length_le hpiece hrest hle
  rw [List.prefix_iff_eq_take.1 hprefix, ← take_load d.pData (k + n) rest.length, h.load]
  · rw [List.length_take, Nat.min_eq_left hle]
  · rw [List.length_take]
    exact Nat.min_le_right _ _

/-- After `l` bytes have been taken, the others are still there. -/
theorem Buffered.taken {d d' : WsDealWith} {k n l : ℕ} {rest : List UInt8} (h : Buffered d k n rest)
    (hle : l ≤ rest.length) (hcap : d'.dataCap = d.dataCap) (hhead : d'.headSize = d.headSize)
    (hread : d'.readSize = d.readSize) (hsize : d'.dataSize = d.dataSize)
    (hload : ∀ j, k + n + l ≤ j → d'.pData j = d.pData j) :
    Buffered (Ws.taken d' l) k (n + l) (rest.drop l) := by
  have hdata := h.dataSize
  have hroom := h.room
  have hread' : d'.readSize = k + n := hread.trans h.readSize
  have hlen : (rest.drop l).length = rest.length - l := List.length_drop
  refine ⟨hcap.trans h.cap, hhead.trans h.headSize, ?_, ?_, ?_, ?_⟩
  · show u16 (d'.readSize + l) = k + (n + l)
    rw [hread']
    exact_mod_cast (u16_natCast (n := k + n + l) (by omega)).trans (Nat.add_assoc k n l)
  · show d'.dataSize = k + (n + l) + (rest.drop l).length
    omega
  · exact hsize.trans_lt hroom
  · show Memory.load d'.pData (k + (n + l)) (rest.drop l).length = rest.drop l
    rw [hlen, ← Nat.add_assoc, load_congr fun j hj _ => hload j hj, ← drop_load _ _ _ _ hle, h.load]

/-- The two bytes of the base header. -/
theorem InFrame.cells {d : WsDealWith} {k : ℕ} {f : Frame} {i : ℕ} (h : InFrame d k f i) :
    d.pData k = UInt8.ofNat (f.opcod + if f.fin then 128 else 0) ∧
      d.pData (k + 1) = UInt8.ofNat (f.payLoad + 128) := by
  have hcells : [d.pData k, d.pData (k + 1)] = f.base := h.base
  injection hcells with hfirst htail
  injection htail with hsecond _
  exact ⟨hfirst, hsecond⟩

theorem InFrame.payLoad {d : WsDealWith} {k : ℕ} {f : Frame} {i : ℕ} (h : InFrame d k f i) :
    Ws.payLoad (d.pData (k + 1)) = f.payLoad := by
  rw [h.cells.2, f.payLoad_base]

/-- Where `d` and `d'` agree on the header, so do their frames. -/
theorem InFrame.congr {d d' : WsDealWith} {k : ℕ} {f : Frame} {i j : ℕ} (h : InFrame d k f i)
    (hwbs : d'.head.wbs = d.head.wbs) (hindex : d'.parseIndex = j)
    (hdata : ∀ a < k + 2, d'.pData a = d.pData a) : InFrame d' k f j :=
  ⟨hwbs.trans h.wbs, hindex, (load_congr fun a _ ha => hdata a ha).trans h.base⟩

/-! ### The five states -/

/-- How many calls may take nothing before the parser takes a byte or comes to `INIT_HEAD`. -/
def OpState.rank : OpState → ℕ
  | .initHead => 0
  | .readPayload => 2
  | .readMask => 0
  | .readMaskKey => 1
  | .readData => 1

/-- What is left to do for the loop to end, with `unread` bytes. -/
def weight (d : WsDealWith) (unread : ℕ) : ℕ := 4 * unread + d.op.rank

theorem weight_lt_of_taken {d d' : WsDealWith} {l unread : ℕ} (hpos : 0 < l) (hle : l ≤ unread) :
    weight d' (unread - l) < weight d unread := by
  have hrank : ∀ op : OpState, op.rank ≤ 2 := fun op => by cases op <;> decide
  have := hrank d'.op
  unfold weight
  omega

/-- A call that took `l` bytes and left `d'`: the parser stands further on in `f`, or behind `f`,
which had no payload, or `f` is complete. -/
inductive Advance (d d' : WsDealWith) (k : ℕ) (f : Frame) (fs : List Frame) (n l : ℕ)
    (rest : List UInt8) : Prop
  | within (holding : Holding (taken d' l) k (f :: fs) (n + l) (rest.drop l))
      (unfinished : Unfinished (taken d' l))
      (weight : weight (taken d' l) (rest.length - l) < weight d rest.length)
  | passed (empty : f.payload = []) (size : n + l = f.size)
      (holding : Holding (taken d' l) (k + f.size) fs 0 (rest.drop l))
      (unfinished : Unfinished (taken d' l)) (pos : 0 < l)
  | complete (size : n + l = f.size) (complete : Complete (taken d' l) k f (rest.drop l))
      (pos : 0 < l)

variable {d : WsDealWith} {k n : ℕ} {f : Frame} {fs : List Frame} {rest : List UInt8}

theorem parse_idle (hb : Buffered d k 0 rest) (hop : d.op = .initHead)
    (hrest : rest <+: (wire (f :: fs)).drop 0) (htwo : 2 ≤ rest.length) :
    ∃ d' l, d.parseWsHead (k + 0) rest.length = .ok (d', some l) ∧ l ≤ rest.length ∧
      Advance d d' k f fs 0 l rest := by
  have hbase : load d.pData k 2 = f.base :=
    hb.load_piece hrest (List.prefix_append f.base _ |>.trans (List.prefix_append _ _)) htwo
  have hparse : d.parseWsHead (k + 0) rest.length =
      .ok ({ d with
        head := ⟨some (k + 0), 0, fun _ => 0⟩, op := .readPayload, parseIndex := 0 }, some 2) := by
    rw [parse_initHead hop (by omega), hb.headSize]
  refine ⟨_, 2, hparse, htwo, .within ⟨?_, .base rfl ⟨rfl, rfl, hbase⟩⟩ ⟨k, rfl, .inl rfl⟩ ?_⟩
  · exact hb.taken htwo rfl rfl rfl rfl fun _ _ => rfl
  · exact weight_lt_of_taken (by decide) htwo

theorem parse_drained {o : ℕ} (hb : Buffered d k 0 rest) (hop : d.op = .readData)
    (hwbs : d.head.wbs = some o) (hlen : d.head.len.toNat = 0) (hindex : d.parseIndex = 0)
    (hne : rest ≠ []) :
    ∃ d' l, d.parseWsHead (k + 0) rest.length = .ok (d', some l) ∧ l ≤ rest.length ∧
      Advance d d' k f fs 0 l rest := by
  have hpos := List.length_pos_iff.2 hne
  have hunmask := unmask_spec 0 rest.length (k + 0) 0 d (by omega) (by omega) (by omega)
    (by rw [load_zero]; exact fun b hb => absurd hb List.not_mem_nil)
  rw [load_zero, Keystream.crypt_nil, store_nil] at hunmask
  have hparse : d.parseWsHead (k + 0) rest.length = .ok ({ d with op := .initHead }, some 0) := by
    have hend : d.head.len.toNat ≤ d.parseIndex + 0 := by omega
    rw [parse_data_some hop (Int.natCast_pos.2 hpos) hunmask, if_pos hend, Nat.add_zero]
  refine ⟨_, 0, hparse, Nat.zero_le _, .within ⟨?_, .idle rfl⟩ ⟨o, hwbs, .inl hindex⟩ ?_⟩
  · exact hb.taken (Nat.zero_le _) rfl rfl rfl rfl fun _ _ => rfl
  · unfold weight
    rw [hop]
    show 4 * (rest.length - 0) + 0 < 4 * rest.length + 1
    omega

/-- A frame whose extended length of `l` bytes, if any, is there and is read as `v`. -/
theorem parse_length {l : ℕ} {v : UInt64} (hb : Buffered d k 2 rest) (hop : d.op = .readPayload)
    (hframe : InFrame d k f 0) (hl : f.ext.length = l) (hle : l ≤ rest.length)
    (hv : v.toNat = f.payload.length)
    (hparse : d.parseWsHead (k + 2) rest.length =
      .ok ({ d with head := { d.head with len := v }, op := .readMaskKey }, some l)) :
    ∃ d' l, d.parseWsHead (k + 2) rest.length = .ok (d', some l) ∧ l ≤ rest.length ∧
      Advance d d' k f fs 2 l rest := by
  subst hl
  refine ⟨_, _, hparse, hle, .within ⟨?_, .length rfl ?_ hv⟩ ⟨k, hframe.wbs, .inl hframe.index⟩ ?_⟩
  · exact hb.taken hle rfl rfl rfl rfl fun _ _ => rfl
  · exact hframe.congr rfl hframe.index fun _ _ => rfl
  · unfold weight
    rw [hop]
    show 4 * (rest.length - f.ext.length) + 1 < 4 * rest.length + 2
    omega

theorem parse_base (hb : Buffered d k 2 rest) (hop : d.op = .readPayload)
    (hframe : InFrame d k f 0) (hne : rest ≠ []) (hrest : rest <+: (wire (f :: fs)).drop 2)
    (hle : f.ext.length ≤ rest.length) (hclean : f.Clean) :
    ∃ d' l, d.parseWsHead (k + 2) rest.length = .ok (d', some l) ∧ l ≤ rest.length ∧
      Advance d d' k f fs 2 l rest := by
  have hpos := List.length_pos_iff.2 hne
  have hpay := f.payload_lt
  have hext : load d.pData (k + 2) f.ext.length = f.ext := by
    refine hb.load_piece hrest ?_ hle
    rw [drop_wire_cons (by have := f.headSize_pos; unfold Frame.size; omega), f.drop_base]
    exact (List.prefix_append _ _).trans (List.prefix_append _ _)
  have hbytes : ∀ i < f.ext.length, (d.pData (k + 2 + i)).toNat < 128 := by
    intro i hi
    refine hclean.2 _ ?_
    rw [← hext]
    exact List.mem_map_of_mem (List.mem_range'_1.2 ⟨by omega, by omega⟩)
  -- the three forms of the length, each with the branch that reads it
  cases hform : f.form with
  | short =>
    have hpl : f.payLoad = f.payload.length := by
      unfold Frame.payLoad
      rw [hform]
    rw [hform] at hpay
    have hlt : f.payload.length < 126 := hpay
    have hl : f.ext.length = 0 := by
      rw [f.length_ext, if_neg (by omega), if_neg (by omega)]
    refine parse_length (v := UInt64.ofNat f.payload.length) hb hop hframe hl (Nat.zero_le _) ?_ ?_
    · rw [UInt64.toNat_ofNat', Nat.mod_eq_of_lt (by omega)]
    · rw [parse_readPayload_short hop hframe.wbs (by omega) (by rw [hframe.payLoad]; omega),
        hframe.payLoad, hpl]
  | ext16 =>
    have hpl : f.payLoad = 126 := by
      unfold Frame.payLoad
      rw [hform]
    have hl : f.ext.length = 2 := by
      rw [f.length_ext, if_pos hpl]
    rw [hl] at hext hbytes hle
    rw [hform] at hpay
    refine parse_length (v := extLen16 fun i => d.pData (k + 2 + i)) hb hop hframe hl hle ?_ ?_
    · have hjoin : Word.joined f.ext = f.payload.length := by
        unfold Frame.ext
        rw [hform]
        exact Word.joined_bigEndian hpay
      rw [extLen16_eq hbytes, ← hjoin, ← hext]
      rfl
    · exact parse_readPayload_ext16 hop hframe.wbs (hframe.payLoad.trans hpl) (by omega)
  | ext64 =>
    have hpl : f.payLoad = 127 := by
      unfold Frame.payLoad
      rw [hform]
    have hl : f.ext.length = 8 := by
      rw [f.length_ext, if_neg (by omega), if_pos hpl]
    rw [hl] at hext hbytes hle
    rw [hform] at hpay
    refine parse_length (v := extLen64 fun i => d.pData (k + 2 + i)) hb hop hframe hl hle ?_ ?_
    · have hjoin : Word.joined f.ext = f.payload.length := by
        unfold Frame.ext
        rw [hform]
        exact Word.joined_bigEndian (hpay.trans (by decide))
      rw [extLen64_eq hbytes, ← hjoin, ← hext]
      rfl
    · exact parse_readPayload_ext64 hop hframe.wbs (hframe.payLoad.trans hpl) (by omega)

theorem parse_key (hb : Buffered d k (2 + f.ext.length) rest) (hop : d.op = .readMaskKey)
    (hframe : InFrame d k f 0) (hlen : d.head.len.toNat = f.payload.length)
    (hrest : rest <+: (wire (f :: fs)).drop (2 + f.ext.length)) (hle : 4 ≤ rest.length) :
    ∃ d' l, d.parseWsHead (k + (2 + f.ext.length)) rest.length = .ok (d', some l) ∧
      l ≤ rest.length ∧ Advance d d' k f fs (2 + f.ext.length) l rest := by
  have hhead : f.headSize = 6 + f.ext.length := rfl
  have hkey : load d.pData (k + (2 + f.ext.length)) 4 = f.keyBytes := by
    have hin : f.keyBytes <+: (wire (f :: fs)).drop (2 + f.ext.length) := by
      rw [drop_wire_cons (by unfold Frame.size; omega), f.drop_ext]
      exact (List.prefix_append _ _).trans (List.prefix_append _ _)
    have h := hb.load_piece hrest hin (f.length_keyBytes.trans_le hle)
    rwa [f.length_keyBytes] at h
  have hmasks : (fun i : Fin 4 => d.pData (k + (2 + f.ext.length) + i)) = f.key := by
    funext i
    have hcell : (load d.pData (k + (2 + f.ext.length)) 4)[i.val]? = f.keyBytes[i.val]? := by
      rw [hkey]
    rw [getElem?_load, if_pos i.isLt, Frame.keyBytes, List.getElem?_ofFn, dif_pos i.isLt] at hcell
    exact Option.some.inj hcell
  have hparse : d.parseWsHead (k + (2 + f.ext.length)) rest.length =
      .ok ({ d with head := { d.head with masks := f.key }, op := .readData }, some 4) := by
    rw [parse_readMaskKey hop (by omega), hmasks]
  have hbuf : Buffered (taken { d with head := { d.head with masks := f.key }, op := .readData } 4) k
      (2 + f.ext.length + 4) (rest.drop 4) :=
    hb.taken hle rfl rfl rfl rfl fun _ _ => rfl
  have hunfinished : Unfinished
      (taken { d with head := { d.head with masks := f.key }, op := .readData } 4) :=
    ⟨k, hframe.wbs, .inl hframe.index⟩
  -- without a payload the parser is behind the frame and does not notice
  by_cases hempty : f.payload = []
  · have hsize : 2 + f.ext.length + 4 = f.size := by
      unfold Frame.size
      rw [hempty, List.length_nil]
      omega
    rw [hempty] at hlen
    rw [hsize] at hbuf
    refine ⟨_, 4, hparse, hle, .passed hempty hsize ⟨?_, ?_⟩ hunfinished (by decide)⟩
    · exact ⟨hbuf.cap, hbuf.headSize, hbuf.readSize, hbuf.dataSize, hbuf.room, hbuf.load⟩
    · exact .drained rfl hframe.wbs hlen hframe.index
  · have hsum : 2 + f.ext.length + 4 = f.headSize + 0 := by omega
    refine ⟨_, 4, hparse, hle, .within ⟨hbuf, ?_⟩ hunfinished ?_⟩
    · rw [hsum]
      refine .payload rfl ?_ hlen rfl (List.length_pos_iff.2 hempty) rfl
      exact hframe.congr rfl hframe.index fun _ _ => rfl
    · exact weight_lt_of_taken (by decide) hle

/-- Payload bytes that are there, under the mask. -/
theorem Buffered.load_masked {i c : ℕ} (hb : Buffered d k (f.headSize + i) rest)
    (hrest : rest <+: (wire (f :: fs)).drop (f.headSize + i)) (hle : c ≤ rest.length)
    (hlt : i + c ≤ f.payload.length) :
    Memory.load d.pData (k + (f.headSize + i)) c = (f.masked.drop i).take c := by
  have hlength : ((f.masked.drop i).take c).length = c := by
    rw [List.length_take, List.length_drop, f.length_masked]
    omega
  have hin : (f.masked.drop i).take c <+: (wire (f :: fs)).drop (f.headSize + i) := by
    rw [drop_wire_cons (by unfold Frame.size; omega), f.drop_head]
    exact (List.take_prefix _ _).trans (List.prefix_append _ _)
  have h := hb.load_piece hrest hin (hlength.trans_le hle)
  rwa [hlength] at h

/-- `c` more bytes of the payload have been unmasked. -/
structure Unmasked (d d' : WsDealWith) (k : ℕ) (f : Frame) (i c : ℕ) (rest : List UInt8) : Prop where
  unmask : d.unmask rest.length (k + (f.headSize + i)) 0 = (d', some c)
  buffered : ∀ op, Buffered (taken { d' with op := op } c) k (f.headSize + i + c) (rest.drop c)
  frame : ∀ op, InFrame (taken { d' with op := op } c) k f (i + c)
  load : load d'.pData (k + f.headSize) (i + c) = f.payload.take (i + c)
  op : d'.op = d.op
  head : d'.head = d.head

/-- The loop of `READ_DATA` takes what is there of the payload. -/
theorem unmask_payload {i c : ℕ} (hb : Buffered d k (f.headSize + i) rest) (hframe : InFrame d k f i)
    (hlen : d.head.len.toNat = f.payload.length) (hmasks : d.head.masks = f.key)
    (hload : load d.pData (k + f.headSize) i = f.payload.take i)
    (hrest : rest <+: (wire (f :: fs)).drop (f.headSize + i)) (hclean : f.Clean)
    (hc : c = min rest.length (f.payload.length - i)) (hi : i ≤ f.payload.length) :
    ∃ d', Unmasked d d' k f i c rest := by
  have hhead := f.headSize_pos
  have hroom := hb.room
  have hdata := hb.dataSize
  have hindex := hframe.index
  have hle : c ≤ rest.length := by omega
  have hlength : ((f.payload.drop i).take c).length = c := by
    rw [List.length_take, List.length_drop]
    omega
  have hpiece : load d.pData (k + (f.headSize + i)) c = (f.masked.drop i).take c :=
    hb.load_masked hrest hle (by omega)
  have hfine : ∀ b ∈ load d.pData (k + (f.headSize + i)) c, b ≠ 0xFF := by
    intro b hb
    rw [hpiece] at hb
    exact hclean.1 b (List.mem_of_mem_drop (List.mem_of_mem_take hb))
  have hcrypt : Keystream.crypt (maskAt d.head.masks) d.parseIndex
      (load d.pData (k + (f.headSize + i)) c) = (f.payload.drop i).take c := by
    rw [hpiece, hmasks, hindex]
    exact f.crypt_masked i c
  have hunmask := unmask_spec c rest.length (k + (f.headSize + i)) 0 d (by omega) (by omega)
    (by omega) hfine
  rw [hcrypt, Nat.zero_add] at hunmask
  refine ⟨_, hunmask, fun op => ?_, fun op => ?_, ?_, rfl, rfl⟩
  · exact hb.taken hle rfl rfl rfl rfl fun j hj => store_above _ _ (by omega)
  · exact hframe.congr rfl (congrArg (· + c) hindex) fun a ha => store_below _ _ (by omega)
  · have happend := load_store_append d.pData (k + f.headSize) i ((f.payload.drop i).take c)
    rw [hlength, hload, ← List.take_add, Nat.add_assoc k] at happend
    exact happend

theorem parse_payload {i : ℕ} (hb : Buffered d k (f.headSize + i) rest) (hop : d.op = .readData)
    (hframe : InFrame d k f i) (hlen : d.head.len.toNat = f.payload.length)
    (hmasks : d.head.masks = f.key) (hlt : i < f.payload.length)
    (hload : load d.pData (k + f.headSize) i = f.payload.take i) (hne : rest ≠ [])
    (hrest : rest <+: (wire (f :: fs)).drop (f.headSize + i)) (hclean : f.Clean) :
    ∃ d' l, d.parseWsHead (k + (f.headSize + i)) rest.length = .ok (d', some l) ∧
      l ≤ rest.length ∧ Advance d d' k f fs (f.headSize + i) l rest := by
  have hpos := List.length_pos_iff.2 hne
  obtain ⟨c, hc⟩ : ∃ c, c = min rest.length (f.payload.length - i) := ⟨_, rfl⟩
  have hle : c ≤ rest.length := by omega
  obtain ⟨d', hd'⟩ := unmask_payload hb hframe hlen hmasks hload hrest hclean hc hlt.le
  have hindex : d'.parseIndex = i + c := (hd'.frame d'.op).index
  rw [← hd'.head] at hlen hmasks
  by_cases hend : i + c = f.payload.length
  · -- the last byte is there
    have hparse : d.parseWsHead (k + (f.headSize + i)) rest.length =
        .ok ({ d' with op := .initHead }, some c) := by
      rw [parse_data_some hop (Int.natCast_pos.2 hpos) hd'.unmask, if_pos (by omega)]
    have hsize : f.headSize + i + c = f.size := by
      unfold Frame.size
      omega
    refine ⟨_, c, hparse, hle, .complete hsize ⟨?_, rfl, ?_, hlen, ?_, ?_⟩ (by omega)⟩
    · rw [← hsize]
      exact hd'.buffered .initHead
    · rw [← hend]
      exact hd'.frame .initHead
    · exact List.ne_nil_of_length_pos (by omega)
    · show load d'.pData (k + f.headSize) f.payload.length = f.payload
      rw [← hend, hd'.load, hend, List.take_length]
  · have hparse : d.parseWsHead (k + (f.headSize + i)) rest.length = .ok (d', some c) := by
      rw [parse_data_some hop (Int.natCast_pos.2 hpos) hd'.unmask, if_neg (by omega)]
    have hsum : f.headSize + i + c = f.headSize + (i + c) := Nat.add_assoc _ _ _
    refine ⟨_, c, hparse, hle, .within ⟨hd'.buffered d'.op, ?_⟩ ⟨k, (hd'.frame d'.op).wbs, ?_⟩ ?_⟩
    · rw [hsum]
      exact .payload (hd'.op.trans hop) (hd'.frame d'.op) hlen hmasks (by omega) hd'.load
    · right
      show d'.parseIndex < d'.head.len.toNat
      omega
    · exact weight_lt_of_taken (by omega) hle

/-- One call of `parseWsHead`, in any state. -/
theorem parse_spec (h : Holding d k (f :: fs) n rest) (hne : rest ≠ [])
    (hrest : rest <+: (wire (f :: fs)).drop n) (hcut : f.CutOk (n + rest.length))
    (hclean : f.Clean) :
    ∃ d' l, d.parseWsHead d.readSize ((d.dataSize : ℤ) - d.readSize) = .ok (d', some l) ∧
      l ≤ rest.length ∧ Advance d d' k f fs n l rest := by
  obtain ⟨hb, hstanding⟩ := h
  have hunread : (d.dataSize : ℤ) - d.readSize = rest.length := by
    rw [hb.dataSize, hb.readSize]
    omega
  rw [hunread, hb.readSize]
  have hpos := List.length_pos_iff.2 hne
  have hhead : f.headSize = 6 + f.ext.length := rfl
  cases hstanding with
  | idle op => exact parse_idle hb op hrest (by rcases hcut with h | h | h <;> omega)
  | drained op wbs len index => exact parse_drained hb op wbs len index hne
  | base op frame =>
    exact parse_base hb op frame hne hrest (by rcases hcut with h | h | h <;> omega) hclean
  | length op frame len =>
    exact parse_key hb op frame len hrest (by rcases hcut with h | h | h <;> omega)
  | payload op frame len masks lt load =>
    exact parse_payload hb op frame len masks lt load hne hrest hclean

end Ws
end NetService
