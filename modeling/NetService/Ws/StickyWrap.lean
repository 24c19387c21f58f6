import NetService.Ws.Model

/-!
# `StickyWrap::parseWsHead`

The older parser, which expects a whole frame in one buffer.  `_wshead.wbs` points to a block of its
own with a copy of the base header.  The code looks at `len` only to see whether a base header is
there; it reads what follows wherever it is, so that the buffer is all of the memory from
`pReadBuff` on.
-/

namespace NetService
namespace Ws

/-- `_wshead`, with the two bytes `wbs` points to. -/
structure StickyHead where
  wbs : UInt8 × UInt8
  len : UInt64
  masks : Fin 4 → UInt8

namespace StickyWrap

/-- `_wshead.len` from the header at `p`, and how many bytes behind the base header it takes. -/
def headLen (p : ℕ → UInt8) : UInt64 × ℕ :=
  let pl := payLoad (p 1)
  if pl < 126 then (UInt64.ofNat pl, 0)
  else if pl = 126 then (extLen16 fun i => p (2 + i), 2)
  else (extLen64 fun i => p (2 + i), 8)

/-- The loop over the payload at `pReadBuff`, from byte `i` on, with `n` bytes left; `none` is the
`return (-1)` at a byte that is `-1` as a `char`. -/
def unmask (masks : Fin 4 → UInt8) (pReadBuff : ℕ) :
    ℕ → ℕ → (ℕ → UInt8) → (ℕ → UInt8) × Option Unit
  | 0, _, m => (m, some ())
  | n + 1, i, m =>
      let curByte := m (pReadBuff + i)
      if curByte = 0xFF then (m, none)
      else unmask masks pReadBuff n (i + 1)
        (Function.update m (pReadBuff + i) (curByte ^^^ maskAt masks i))

/-- `parseWsHead(pReadBuff, len)` on the memory `m`: what becomes of `_wshead` and of the memory, and
the returned value, `none` for `-1`. -/
def parseWsHead (h : StickyHead) (m : ℕ → UInt8) (pReadBuff : ℕ) (len : ℤ) :
    StickyHead × (ℕ → UInt8) × Option ℕ :=
  if 0 < len ∧ 2 < len then
    let (l, n) := headLen fun i => m (pReadBuff + i)
    let wbs := (m pReadBuff, m (pReadBuff + 1))
    if 65536 < l then (⟨wbs, l, fun _ => 0⟩, m, none)
    else
      let masks := fun i : Fin 4 => m (pReadBuff + 2 + n + i)
      let (m, ok) := unmask masks (pReadBuff + 2 + n + 4) l.toNat 0 m
      (⟨wbs, l, masks⟩, m, ok.map fun _ => 2 + n + 4)
  else (h, m, some 0)

/-- When there is more than a base header, `_wshead.len` is the length computed from it. -/
theorem parseWsHead_len (h : StickyHead) (m : ℕ → UInt8) (p : ℕ) {len : ℤ} (hlen : 2 < len) :
    (parseWsHead h m p len).1.len = (headLen fun i => m (p + i)).1 := by
  unfold parseWsHead
  rw [if_pos ⟨by omega, hlen⟩]
  simp only
  split <;> rfl

end StickyWrap
end Ws
end NetService
