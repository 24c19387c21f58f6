import NetService.Ws.Model

/-!
# `parseWsHead`, state by state

What a call does in each state of the parser, and what it needs for that; with fewer bytes it
returns 0 and changes nothing.  Later modules follow the calls by these equations.
-/

namespace NetService
namespace Ws

variable {d d' : WsDealWith} {pbuff o r : ℕ} {len : ℤ}

/-! ### `INIT_HEAD` -/

theorem parse_initHead (hop : d.op = .initHead) (htwo : 2 ≤ len) :
    d.parseWsHead pbuff len =
      .ok ({ d with head := ⟨some pbuff, 0, fun _ => 0⟩, op := .readPayload, parseIndex := 0 },
        some d.headSize) := by
  unfold WsDealWith.parseWsHead
  rw [if_pos (by omega), hop]
  simp only
  rw [if_pos htwo]

theorem parse_initHead_few (hop : d.op = .initHead) (hfew : len < 2) :
    d.parseWsHead pbuff len = .ok (d, some 0) := by
  unfold WsDealWith.parseWsHead
  rw [hop]
  simp only
  rw [if_neg (not_le.2 hfew), ite_self]

/-! ### `READ_PAYLOAD` -/

theorem parse_readPayload_short (hop : d.op = .readPayload) (hwbs : d.head.wbs = some o)
    (hpos : 0 < len) (hpl : payLoad (d.pData (o + 1)) < 126) :
    d.parseWsHead pbuff len =
      .ok ({ d with
        head := { d.head with len := UInt64.ofNat (payLoad (d.pData (o + 1))) }
        op := .readMaskKey }, some 0) := by
  unfold WsDealWith.parseWsHead
  rw [if_pos hpos, hop]
  simp only [hwbs]
  rw [if_pos hpl]

theorem parse_readPayload_ext16 (hop : d.op = .readPayload) (hwbs : d.head.wbs = some o)
    (hpl : payLoad (d.pData (o + 1)) = 126) (htwo : 2 ≤ len) :
    d.parseWsHead pbuff len =
      .ok ({ d with
        head := { d.head with len := extLen16 fun i => d.pData (pbuff + i) }
        op := .readMaskKey }, some 2) := by
  unfold WsDealWith.parseWsHead
  rw [if_pos (by omega), hop]
  simp only [hwbs]
  rw [if_neg (by omega), if_pos ⟨hpl, htwo⟩]

theorem parse_readPayload_ext64 (hop : d.op = .readPayload) (hwbs : d.head.wbs = some o)
    (hpl : payLoad (d.pData (o + 1)) = 127) (height : 8 ≤ len) :
    d.parseWsHead pbuff len =
      .ok ({ d with
        head := { d.head with len := extLen64 fun i => d.pData (pbuff + i) }
        op := .readMaskKey }, some 8) := by
  unfold WsDealWith.parseWsHead
  rw [if_pos (by omega), hop]
  simp only [hwbs]
  rw [if_neg (by omega), if_neg (by omega), if_pos ⟨hpl, height⟩]

theorem parse_readPayload_few (hop : d.op = .readPayload) (hwbs : d.head.wbs = some o)
    (hpl : 126 ≤ payLoad (d.pData (o + 1))) (h16 : payLoad (d.pData (o + 1)) = 126 → len < 2)
    (h64 : payLoad (d.pData (o + 1)) = 127 → len < 8) :
    d.parseWsHead pbuff len = .ok (d, some 0) := by
  unfold WsDealWith.parseWsHead
  by_cases hpos : 0 < len
  · rw [if_pos hpos, hop]
    simp only [hwbs]
    rw [if_neg (not_lt.2 hpl), if_neg (fun h => absurd h.2 (not_le.2 (h16 h.1))),
      if_neg (fun h => absurd h.2 (not_le.2 (h64 h.1)))]
  · rw [if_neg hpos]

/-! ### `READ_MASK_KEY` -/

theorem parse_readMaskKey (hop : d.op = .readMaskKey) (hfour : 4 ≤ len) :
    d.parseWsHead pbuff len =
      .ok ({ d with
        head := { d.head with masks := fun i => d.pData (pbuff + i) }, op := .readData },
        some 4) := by
  unfold WsDealWith.parseWsHead
  rw [if_pos (by omega), hop]
  simp only
  rw [if_pos hfour]

theorem parse_readMaskKey_few (hop : d.op = .readMaskKey) (hfew : len < 4) :
    d.parseWsHead pbuff len = .ok (d, some 0) := by
  unfold WsDealWith.parseWsHead
  rw [hop]
  simp only
  rw [if_neg (not_le.2 hfew), ite_self]

/-! ### `READ_DATA` -/

/-- A call whose loop does not fail. -/
theorem parse_data_some (hop : d.op = .readData) (hpos : 0 < len)
    (hunmask : d.unmask len.toNat pbuff 0 = (d', some r)) :
    d.parseWsHead pbuff len =
      .ok (if d'.head.len.toNat ≤ d'.parseIndex then { d' with op := .initHead } else d',
        some r) := by
  unfold WsDealWith.parseWsHead
  rw [if_pos hpos, hop]
  simp only
  rw [hunmask]
  simp only
  split_ifs <;> rfl

/-- A call whose loop fails. -/
theorem parse_data_none (hop : d.op = .readData) (hpos : 0 < len)
    (hunmask : d.unmask len.toNat pbuff 0 = (d', none)) :
    d.parseWsHead pbuff len = .ok (d', none) := by
  unfold WsDealWith.parseWsHead
  rw [if_pos hpos, hop]
  simp only
  rw [hunmask]

end Ws
end NetService
