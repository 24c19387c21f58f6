import NetService.Ws.Header
import NetService.Ws.Parse

/-!
# A call of `parseWsHead` on any bytes

`Sane` is the invariant of the parser that does not ask for well-formed frames: the sizes are in
bounds, and inside a frame `_head.wbs` points to a base header that has been read.  `Parsed` lists
what a call can do then, with the guards that decide it; `parsed_spec` is the inversion of
`parseWsHead`, and `Parsed.sane` says that the invariant is kept.
-/

namespace NetService
namespace Ws

open Memory

/-- The bytes that have not been parsed. -/
def unread (d : WsDealWith) : List UInt8 := load d.pData d.readSize (d.dataSize - d.readSize)

@[simp] theorem length_unread (d : WsDealWith) : (unread d).length = d.dataSize - d.readSize :=
  length_load _ _ _

/-! ### Lengths as the parser decodes them -/

/-- How many bytes of length follow a base header with `b` as its second byte. -/
def extBytes (b : UInt8) : ℕ :=
  if payLoad b < 126 then 0 else if payLoad b = 126 then 2 else 8

/-- The length, from the bytes `p` behind the base header. -/
def decodedLen (b : UInt8) (p : ℕ → UInt8) : UInt64 :=
  if payLoad b < 126 then UInt64.ofNat (payLoad b)
  else if payLoad b = 126 then extLen16 p
  else extLen64 p

theorem payLoad_lt (b : UInt8) : payLoad b < 128 := Nat.mod_lt _ (by decide)

theorem calFrameHeadSize_eq (d : WsDealWith) (o : ℕ) :
    d.calFrameHeadSize o = 6 + extBytes (d.pData (o + 1)) := by
  have h := payLoad_lt (d.pData (o + 1))
  unfold WsDealWith.calFrameHeadSize extBytes
  simp only
  split_ifs <;> omega

/-- Only the announced bytes are read. -/
theorem decodedLen_congr {b : UInt8} {p q : ℕ → UInt8} (h : ∀ i < extBytes b, p i = q i) :
    decodedLen b p = decodedLen b q := by
  unfold extBytes at h
  unfold decodedLen
  split_ifs at h ⊢ with hshort hmid
  · rfl
  · simp only [extLen16, h 0 (by decide), h 1 (by decide)]
  · simp only [extLen64, h 0 (by decide), h 1 (by decide), h 2 (by decide), h 3 (by decide),
      h 4 (by decide), h 5 (by decide), h 6 (by decide), h 7 (by decide)]

/-! ### The invariant -/

/-- Where the parser is in a frame. -/
inductive Stands (d : WsDealWith) : Prop
  | head (op : d.op = .initHead)
  | length {o : ℕ} (op : d.op = .readPayload) (wbs : d.head.wbs = some o)
      (below : o + 2 ≤ d.readSize) (index : d.parseIndex = 0)
  | key {o : ℕ} (op : d.op = .readMaskKey) (wbs : d.head.wbs = some o)
      (below : o + 2 + extBytes (d.pData (o + 1)) ≤ d.readSize) (index : d.parseIndex = 0)
  | data {o : ℕ} (op : d.op = .readData) (wbs : d.head.wbs = some o)
      (below : o + 6 + extBytes (d.pData (o + 1)) ≤ d.readSize)
      (index : d.parseIndex < d.head.len.toNat ∨ d.head.len.toNat = 0 ∧ d.parseIndex = 0)

/-- The parser between two rounds. -/
structure Sane (d : WsDealWith) : Prop where
  cap : d.dataCap = 8192
  headSize : d.headSize = 2
  read_le : d.readSize ≤ d.dataSize
  size_lt : d.dataSize < 8192
  index : d.parseIndex < 65536
  stands : Stands d

theorem new_sane (m : ℕ → UInt8) (junk : WsHead) : Sane (.new m junk) :=
  ⟨rfl, rfl, le_rfl, by show 0 < 8192; decide, by show 0 < 65536; decide, .head rfl⟩

/-- A call that takes nothing leaves `_Read_size` as it is. -/
theorem Sane.taken_zero {d : WsDealWith} (h : Sane d) : Ws.taken d 0 = d := by
  have hread := h.read_le
  have hsize := h.size_lt
  exact Ws.taken_zero (by omega)

/-! ### The loop of `READ_DATA` -/

/-- Nothing but `_parse_Index` has changed, and at most `n` bytes from `_Read_size` on. -/
structure Same (d d' : WsDealWith) (n : ℕ) : Prop where
  op : d'.op = d.op
  head : d'.head = d.head
  dataSize : d'.dataSize = d.dataSize
  dataCap : d'.dataCap = d.dataCap
  readSize : d'.readSize = d.readSize
  headSize : d'.headSize = d.headSize
  below : ∀ j < d.readSize, d'.pData j = d.pData j
  above : ∀ j, d.readSize + n ≤ j → d'.pData j = d.pData j

theorem Same.refl (d : WsDealWith) (n : ℕ) : Same d d n :=
  ⟨rfl, rfl, rfl, rfl, rfl, rfl, fun _ _ => rfl, fun _ _ => rfl⟩

/-- The payload ends in the bytes that are there, and none of them is taken for an error. -/
def Completes (d : WsDealWith) : Prop :=
  d.head.len.toNat < 65536 ∧ d.parseIndex ≤ d.head.len.toNat ∧
    d.head.len.toNat - d.parseIndex ≤ (unread d).length ∧
    ∀ b ∈ (unread d).take (d.head.len.toNat - d.parseIndex), b ≠ 0xFF

/-- The loop to the end of the payload. -/
theorem unmask_completes {d : WsDealWith} (h : Completes d) :
    ∃ d', d.unmask (unread d).length d.readSize 0 =
        (d', some (d.head.len.toNat - d.parseIndex)) ∧
      Same d d' (d.head.len.toNat - d.parseIndex) ∧ d'.parseIndex = d.head.len.toNat := by
  obtain ⟨hlen, hle, hthere, hclean⟩ := h
  have htake : (unread d).take (d.head.len.toNat - d.parseIndex) =
      load d.pData d.readSize (d.head.len.toNat - d.parseIndex) :=
    take_load _ _ _ _ (by rwa [length_unread] at hthere)
  rw [htake] at hclean
  have hspec := unmask_spec (d.head.len.toNat - d.parseIndex) (unread d).length d.readSize 0 d
    (by omega) (by omega) (.inr ⟨hthere, by omega⟩) hclean
  rw [Nat.zero_add] at hspec
  refine ⟨_, hspec, ⟨rfl, rfl, rfl, rfl, rfl, rfl, fun j hj => store_below _ _ hj, ?_⟩, ?_⟩
  · intro j hj
    exact store_above _ _ (by rw [Keystream.length_crypt, length_load]; exact hj)
  · show d.parseIndex + (d.head.len.toNat - d.parseIndex) = d.head.len.toNat
    omega

/-- Otherwise the loop stops at an error or with the last byte, inside the payload. -/
theorem unmask_within (n pbuff readlen : ℕ) (d : WsDealWith)
    (hlt : d.parseIndex < d.head.len.toNat)
    (hnot : ¬ (d.head.len.toNat < 65536 ∧ d.head.len.toNat - d.parseIndex ≤ n ∧
      ∀ b ∈ load d.pData pbuff (d.head.len.toNat - d.parseIndex), b ≠ 0xFF))
    (hindex : d.parseIndex < 65536) :
    ∃ d' r, d.unmask n pbuff readlen = (d', r) ∧ (r = none ∨ r = some (readlen + n)) ∧
      d'.parseIndex < d.head.len.toNat ∧ d'.parseIndex < 65536 ∧ d'.op = d.op ∧
      d'.head = d.head ∧ d'.dataSize = d.dataSize ∧ d'.dataCap = d.dataCap ∧
      d'.readSize = d.readSize ∧ d'.headSize = d.headSize ∧
      (∀ j < pbuff, d'.pData j = d.pData j) ∧ ∀ j, pbuff + n ≤ j → d'.pData j = d.pData j := by
  -- on the bytes of the call; `_parse_Index` may wrap, so it is below the length as a 16-bit number
  induction n generalizing pbuff readlen d with
  | zero =>
    exact ⟨d, some readlen, rfl, .inr rfl, hlt, hindex, rfl, rfl, rfl, rfl, rfl, rfl,
      fun _ _ => rfl, fun _ _ => rfl⟩
  | succ n ih =>
    unfold WsDealWith.unmask
    rw [if_pos hlt]
    by_cases hff : d.pData pbuff = 0xFF
    · simp only [hff, if_true]
      exact ⟨d, none, rfl, .inl rfl, hlt, hindex, rfl, rfl, rfl, rfl, rfl, rfl, fun _ _ => rfl,
        fun _ _ => rfl⟩
    · simp only [hff, if_false]
      obtain ⟨i, hi⟩ : ∃ i, i = u16 ((d.parseIndex : ℤ) + 1) := ⟨_, rfl⟩
      have hi16 : i < 65536 := by
        rw [hi, u16, Word.wrap]
        omega
      have hsmall : d.head.len.toNat < 65536 → i = d.parseIndex + 1 := by
        intro hlen
        rw [hi]
        exact_mod_cast u16_natCast (n := d.parseIndex + 1) (by omega)
      have hkeep : ∀ b k, load (Function.update d.pData pbuff b) (pbuff + 1) k =
          load d.pData (pbuff + 1) k := fun b k =>
        load_update_above _ _ b (Nat.lt_succ_self pbuff)
      -- the payload does not end with this byte, which is no error
      have hnot' : ¬ (d.head.len.toNat < 65536 ∧ d.head.len.toNat - i ≤ n ∧
          ∀ b ∈ load d.pData (pbuff + 1) (d.head.len.toNat - i), b ≠ 0xFF) := by
        rintro ⟨hlen, hle, hclean⟩
        rw [hsmall hlen] at hle hclean
        have hsub : d.head.len.toNat - d.parseIndex =
            d.head.len.toNat - (d.parseIndex + 1) + 1 := by omega
        refine hnot ⟨hlen, by omega, ?_⟩
        rw [hsub, load_succ, List.forall_mem_cons]
        exact ⟨hff, hclean⟩
      have hlt' : i < d.head.len.toNat := by
        by_cases hlen : d.head.len.toNat < 65536
        · rw [hsmall hlen]
          by_contra hend
          have hone : d.head.len.toNat - d.parseIndex = 0 + 1 := by omega
          refine hnot ⟨hlen, by omega, ?_⟩
          rw [hone, load_succ, List.forall_mem_cons]
          exact ⟨hff, by simp⟩
        · omega
      obtain ⟨d', r, heq, hr, hidx, hidx16, hop, hhead, hsize, hcap, hread, hhs, hbelow, habove⟩ :=
        ih (pbuff + 1) (readlen + 1)
          { d with
            pData := Function.update d.pData pbuff
              (d.pData pbuff ^^^ maskAt d.head.masks d.parseIndex)
            parseIndex := i }
          hlt' (by simpa only [hkeep] using hnot') hi16
      refine ⟨d', r, by rw [← hi]; exact heq, ?_, hidx, hidx16, hop, hhead, hsize, hcap, hread, hhs,
        fun j hj => ?_, fun j hj => ?_⟩
      · rwa [Nat.add_assoc, Nat.add_comm 1 n] at hr
      · rw [hbelow j (by omega)]
        exact Function.update_of_ne (by omega) _ _
      · rw [habove j (by omega)]
        exact Function.update_of_ne (by omega) _ _

theorem unmask_stops {d : WsDealWith} (hlt : d.parseIndex < d.head.len.toNat) (h : ¬ Completes d)
    (hindex : d.parseIndex < 65536) :
    ∃ d' r, d.unmask (unread d).length d.readSize 0 = (d', r) ∧
      (r = none ∨ r = some (unread d).length) ∧ d'.parseIndex < d.head.len.toNat ∧
      d'.parseIndex < 65536 ∧ Same d d' (unread d).length := by
  have hnot : ¬ (d.head.len.toNat < 65536 ∧
      d.head.len.toNat - d.parseIndex ≤ (unread d).length ∧
      ∀ b ∈ load d.pData d.readSize (d.head.len.toNat - d.parseIndex), b ≠ 0xFF) := by
    rintro ⟨hlen, hthere, hclean⟩
    refine h ⟨hlen, hlt.le, hthere, ?_⟩
    rwa [unread, take_load _ _ _ _ (by rwa [length_unread] at hthere)]
  obtain ⟨d', r, heq, hr, hidx, hidx16, hop, hhead, hsize, hcap, hread, hhs, hbelow, habove⟩ :=
    unmask_within (unread d).length d.readSize 0 d hlt hnot hindex
  rw [Nat.zero_add] at hr
  exact ⟨d', r, heq, hr, hidx, hidx16, ⟨hop, hhead, hsize, hcap, hread, hhs, hbelow, habove⟩⟩

/-! ### What a call does -/

/-- Too few bytes for what the parser is waiting for. -/
inductive Few (d : WsDealWith) : Prop
  | head (op : d.op = .initHead) (few : (unread d).length < 2)
  | length {o : ℕ} (op : d.op = .readPayload) (wbs : d.head.wbs = some o)
      (few : (unread d).length < extBytes (d.pData (o + 1)))
  | key (op : d.op = .readMaskKey) (few : (unread d).length < 4)

/-- The parser behind the length, with `b` as the second byte of the base header. -/
def measured (d : WsDealWith) (b : UInt8) : WsDealWith :=
  { d with
    head := { d.head with len := decodedLen b fun i => d.pData (d.readSize + i) }
    op := .readMaskKey }

/-- The parser behind the masking key. -/
def keyed (d : WsDealWith) : WsDealWith :=
  { d with
    head := { d.head with masks := fun i => d.pData (d.readSize + i) }
    op := .readData }

/-- What a call of `parseWsHead` can do: the object it leaves and the value it returns, `none`
for -1. -/
inductive Parsed (d : WsDealWith) : WsDealWith → Option ℕ → Prop
  | starved (few : Few d) : Parsed d d (some 0)
  | base (op : d.op = .initHead) (two : 2 ≤ (unread d).length) :
      Parsed d (opened d d.readSize) (some 2)
  | length {o : ℕ} (op : d.op = .readPayload) (wbs : d.head.wbs = some o)
      (below : o + 2 ≤ d.readSize) (index : d.parseIndex = 0)
      (there : extBytes (d.pData (o + 1)) ≤ (unread d).length) :
      Parsed d (measured d (d.pData (o + 1))) (some (extBytes (d.pData (o + 1))))
  | key {o : ℕ} (op : d.op = .readMaskKey) (wbs : d.head.wbs = some o)
      (below : o + 2 + extBytes (d.pData (o + 1)) ≤ d.readSize) (index : d.parseIndex = 0)
      (four : 4 ≤ (unread d).length) : Parsed d (keyed d) (some 4)
  | complete {o : ℕ} {d' : WsDealWith} (op : d.op = .readData) (wbs : d.head.wbs = some o)
      (below : o + 6 + extBytes (d.pData (o + 1)) ≤ d.readSize) (completes : Completes d)
      (same : Same d d' (d.head.len.toNat - d.parseIndex)) (index : d'.parseIndex = d.head.len.toNat) :
      Parsed d { d' with op := .initHead } (some (d.head.len.toNat - d.parseIndex))
  | stopped {o : ℕ} {d' : WsDealWith} {r : Option ℕ} (op : d.op = .readData)
      (wbs : d.head.wbs = some o) (below : o + 6 + extBytes (d.pData (o + 1)) ≤ d.readSize)
      (not : ¬ Completes d) (ret : r = none ∨ r = some (unread d).length)
      (same : Same d d' (unread d).length) (index : d'.parseIndex < d.head.len.toNat)
      (small : d'.parseIndex < 65536) : Parsed d d' r

/-- The length is taken when all of its bytes are there. -/
theorem parse_length_there {d : WsDealWith} {o : ℕ} {len : ℤ} (hop : d.op = .readPayload)
    (hwbs : d.head.wbs = some o) (hpos : 0 < len)
    (hthere : (extBytes (d.pData (o + 1)) : ℤ) ≤ len) :
    d.parseWsHead d.readSize len =
      .ok (measured d (d.pData (o + 1)), some (extBytes (d.pData (o + 1)))) := by
  have hpl := payLoad_lt (d.pData (o + 1))
  unfold extBytes at hthere ⊢
  unfold measured decodedLen
  by_cases hshort : payLoad (d.pData (o + 1)) < 126
  · simp only [if_pos hshort]
    exact parse_readPayload_short hop hwbs hpos hshort
  · rw [if_neg hshort] at hthere
    simp only [if_neg hshort]
    by_cases hmid : payLoad (d.pData (o + 1)) = 126
    · rw [if_pos hmid] at hthere
      simp only [if_pos hmid]
      exact parse_readPayload_ext16 hop hwbs hmid hthere
    · rw [if_neg hmid] at hthere
      simp only [if_neg hmid]
      exact parse_readPayload_ext64 hop hwbs (by omega) hthere

theorem parse_length_few {d : WsDealWith} {o : ℕ} {len : ℤ} (hop : d.op = .readPayload)
    (hwbs : d.head.wbs = some o) (hpos : 0 < len) (hfew : len < extBytes (d.pData (o + 1))) :
    d.parseWsHead d.readSize len = .ok (d, some 0) := by
  unfold extBytes at hfew
  apply parse_readPayload_few hop hwbs <;> split_ifs at hfew <;> omega

/-- The inversion of `parseWsHead`. -/
theorem parsed_spec {d : WsDealWith} (h : Sane d) (hne : unread d ≠ []) :
    ∃ d' r, d.parseWsHead d.readSize ((d.dataSize : ℤ) - d.readSize) = .ok (d', r) ∧
      Parsed d d' r := by
  have hpos := List.length_pos_iff.2 hne
  have hlen : (d.dataSize : ℤ) - d.readSize = (unread d).length := by
    have hle := h.read_le
    rw [length_unread]
    omega
  rw [hlen]
  cases h.stands with
  | head op =>
    by_cases htwo : 2 ≤ (unread d).length
    · exact ⟨_, _, base_read op h.headSize htwo, .base op htwo⟩
    · exact ⟨d, some 0, parse_initHead_few op (by omega), .starved (.head op (by omega))⟩
  | @length o op wbs below index =>
    by_cases hthere : extBytes (d.pData (o + 1)) ≤ (unread d).length
    · exact ⟨_, _, parse_length_there op wbs (by omega) (by omega),
        .length op wbs below index hthere⟩
    · exact ⟨d, some 0, parse_length_few op wbs (by omega) (by omega),
        .starved (.length op wbs (by omega))⟩
  | @key o op wbs below index =>
    by_cases hfour : 4 ≤ (unread d).length
    · exact ⟨_, _, parse_readMaskKey op (by omega), .key op wbs below index hfour⟩
    · exact ⟨d, some 0, parse_readMaskKey_few op (by omega), .starved (.key op (by omega))⟩
  | @data o op wbs below index =>
    by_cases hc : Completes d
    · obtain ⟨d', heq, hsame, hidx⟩ := unmask_completes hc
      have hcall := parse_data_some op (Int.natCast_pos.2 hpos) heq
      rw [if_pos (by rw [hsame.head]; omega)] at hcall
      exact ⟨_, _, hcall, .complete op wbs below hc hsame hidx⟩
    · have hlt : d.parseIndex < d.head.len.toNat := by
        refine index.resolve_right fun hzero => hc ⟨by omega, by omega, by omega, ?_⟩
        rw [hzero.1, hzero.2]
        simp
      obtain ⟨d', r, heq, hr, hidx, hsmall, hsame⟩ := unmask_stops hlt hc h.index
      have hstopped := Parsed.stopped op wbs below hc hr hsame hidx hsmall
      rcases hr with rfl | rfl
      · exact ⟨d', none, parse_data_none op (Int.natCast_pos.2 hpos) heq, hstopped⟩
      · have hcall := parse_data_some op (Int.natCast_pos.2 hpos) heq
        rw [if_neg (by rw [hsame.head]; omega)] at hcall
        exact ⟨d', _, hcall, hstopped⟩

/-! ### The invariant is kept -/

theorem taken_readSize {d d' : WsDealWith} (h : Sane d) {n : ℕ} (hn : n ≤ (unread d).length)
    (hread : d'.readSize = d.readSize) : (taken d' n).readSize = d.readSize + n := by
  have hle := h.read_le
  have hlt := h.size_lt
  rw [length_unread] at hn
  show u16 ((d'.readSize : ℤ) + n) = d.readSize + n
  rw [hread]
  exact_mod_cast u16_natCast (n := d.readSize + n) (by omega)

/-- A call never takes more than there is. -/
theorem Parsed.le {d d' : WsDealWith} {n : ℕ} (h : Parsed d d' (some n)) :
    n ≤ (unread d).length := by
  cases h with
  | starved => exact Nat.zero_le _
  | base _ two => exact two
  | length _ _ _ _ there => exact there
  | key _ _ _ _ four => exact four
  | complete _ _ _ completes => exact completes.2.2.1
  | stopped _ _ _ _ ret =>
    rcases ret with hret | hret
    · cases hret
    · rw [Option.some.inj hret]

/-- The object a call leaves, before `readData` counts the bytes that were taken. -/
structure Left (d d' : WsDealWith) : Prop where
  dataSize : d'.dataSize = d.dataSize
  dataCap : d'.dataCap = d.dataCap
  readSize : d'.readSize = d.readSize
  headSize : d'.headSize = d.headSize
  below : ∀ j < d.readSize, d'.pData j = d.pData j

theorem Same.left {d d' : WsDealWith} {n : ℕ} (h : Same d d' n) : Left d d' :=
  ⟨h.dataSize, h.dataCap, h.readSize, h.headSize, h.below⟩

theorem Parsed.left {d d' : WsDealWith} {r : Option ℕ} (h : Parsed d d' r) : Left d d' := by
  cases h with
  | starved | base | length | key => exact ⟨rfl, rfl, rfl, rfl, fun _ _ => rfl⟩
  | complete _ _ _ _ same => exact ⟨same.dataSize, same.dataCap, same.readSize, same.headSize,
      same.below⟩
  | stopped _ _ _ _ _ same => exact same.left

theorem Sane.taken {d d' : WsDealWith} {n : ℕ} (h : Sane d) (hleft : Left d d')
    (hn : n ≤ (unread d).length) (hindex : d'.parseIndex < 65536)
    (hstands : Stands (taken d' n)) : Sane (taken d' n) := by
  have hread := taken_readSize h hn hleft.readSize
  have hsize : (Ws.taken d' n).dataSize = d.dataSize := hleft.dataSize
  have hle := h.read_le
  rw [length_unread] at hn
  exact ⟨hleft.dataCap.trans h.cap, hleft.headSize.trans h.headSize, by omega,
    hsize.trans_lt h.size_lt, hindex, hstands⟩

theorem Parsed.sane {d d' : WsDealWith} {n : ℕ} (h : Sane d) (hp : Parsed d d' (some n)) :
    Sane (taken d' n) := by
  have hn := hp.le
  have hleft := hp.left
  have hread := taken_readSize h hn hleft.readSize
  have hle := h.read_le
  rw [length_unread] at hn
  cases hp with
  | starved few =>
    refine h.taken hleft (Nat.zero_le _) h.index ?_
    -- the parser stays in its state; its offset and its index are those of `Stands`
    cases few with
    | head op => exact .head op
    | @length o op wbs _ =>
      cases h.stands with
      | length _ wbs' below index => exact .length op wbs' (by omega) index
      | head op' | key op' | data op' => rw [op] at op'; cases op'
    | key op =>
      cases h.stands with
      | key _ wbs' below index => exact .key op wbs' (hread ▸ below) index
      | head op' | length op' | data op' => rw [op] at op'; cases op'
  | base op two =>
    refine h.taken hleft two (by show 0 < 65536; decide) (.length rfl rfl ?_ rfl)
    rw [hread]
  | @length o op wbs below index there =>
    refine h.taken hleft there h.index (.key (o := o) rfl wbs ?_ index)
    rw [hread]
    exact Nat.add_le_add_right below _
  | @key o op wbs below index four =>
    refine h.taken hleft four h.index (.data (o := o) rfl wbs ?_ ?_)
    · show o + 6 + extBytes (d.pData (o + 1)) ≤ _
      omega
    · show d.parseIndex < d.head.len.toNat ∨ d.head.len.toNat = 0 ∧ d.parseIndex = 0
      omega
  | complete op wbs below completes same index =>
    refine h.taken hleft completes.2.2.1 ?_ (.head rfl)
    show Ws.WsDealWith.parseIndex _ < 65536
    rw [index]
    exact completes.1
  | @stopped o d' r op wbs below not ret same index small =>
    refine h.taken hleft (by rw [length_unread]; exact hn) small (.data (o := o) ?_ ?_ ?_ (.inl ?_))
    · exact same.op.trans op
    · show d'.head.wbs = some o
      rw [same.head, wbs]
    · show o + 6 + extBytes (d'.pData (o + 1)) ≤ _
      rw [same.below _ (by omega), hread]
      omega
    · show d'.parseIndex < d'.head.len.toNat
      rw [same.head]
      exact index

/-- A call that fails leaves the parser in the payload. -/
theorem Parsed.sane_none {d d' : WsDealWith} (h : Sane d) (hp : Parsed d d' none) : Sane d' := by
  have hle := h.read_le
  cases hp with
  | @stopped o d' r op wbs below not ret same index small =>
    refine ⟨same.dataCap.trans h.cap, same.headSize.trans h.headSize, ?_, ?_, small,
      .data (o := o) (same.op.trans op) ?_ ?_ (.inl ?_)⟩
    · rw [same.readSize, same.dataSize]
      exact hle
    · rw [same.dataSize]
      exact h.size_lt
    · rw [same.head, wbs]
    · rw [same.below _ (by omega), same.readSize]
      exact below
    · rw [same.head]
      exact index

end Ws
end NetService
