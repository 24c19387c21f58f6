import NetService.Lib.LTS
import NetService.Lib.Loop
import NetService.Lib.Memory
import NetService.Lib.Word

/-!
# `TcpStickyWrap::readData`

`PackDealWith` holds the packet being put together: `_pData`, a block of `_Data_cap` bytes whose
contents are whatever `malloc` left there, and `_head`, through which the code reads the two
length bytes.  No constructor sets `_head`; it is `none` until something does, and `some 0` is the
view of the first bytes of `_pData`.

`pass` is one round of the loop of `readData`.  Lengths given to `memcpy` are integers, so that a
difference that came out negative is seen; `_head` read while unset and a copy that leaves
`_pData` or the region are faults.  The receive buffer is the list of regions `GetReadBuff` will
hand out, so that a client may assume any `memoryBuff` that keeps the bytes in order.
-/

namespace NetService

/-- `PACK_CAP` -/
def packCap : ℕ := 4096

/-- Storing an `int` in an `unsigned short`. -/
def u16 (x : ℤ) : ℕ := Word.wrap 16 x

theorem u16_natCast {n : ℕ} (h : n < 65536) : u16 n = n := Word.wrap_natCast h

/-- Undefined behaviour on the way of a packet into `_pData`. -/
inductive PackFault
  /-- `_head` is read before it has been set -/
  | headUnset
  /-- a `memcpy` of `n` bytes to `dst` in `_pData`, from a region of `src` bytes -/
  | badCopy (dst src : ℕ) (n : ℤ)
deriving DecidableEq

/-- `PackDealWith` -/
structure PackDealWith where
  head : Option ℕ
  pData : ℕ → UInt8
  dataSize : ℕ
  dataCap : ℕ
  headSize : ℕ

namespace PackDealWith

/-- The object after `PackDealWith()`, with `malloc` giving a block that holds `m`. -/
def new (m : ℕ → UInt8) : PackDealWith where
  head := none
  pData := m
  dataSize := 0
  dataCap := packCap
  headSize := 4

/-- `_head->_len`, little-endian. -/
def headLen (p : PackDealWith) : Except PackFault ℕ :=
  match p.head with
  | none => .error .headUnset
  | some o => .ok ((p.pData o).toNat + 256 * (p.pData (o + 1)).toNat)

/-- `_head->_msgId`, little-endian. -/
def headMsgId (p : PackDealWith) : Except PackFault ℕ :=
  match p.head with
  | none => .error .headUnset
  | some o => .ok ((p.pData (o + 2)).toNat + 256 * (p.pData (o + 3)).toNat)

/-- `memcpy(_pData + dst, src, n)`, from a region with the bytes `src`. -/
def memcpy (p : PackDealWith) (dst : ℕ) (src : List UInt8) (n : ℤ) :
    Except PackFault PackDealWith :=
  if 0 ≤ n ∧ dst + n ≤ p.dataCap ∧ n ≤ src.length then
    .ok { p with pData := Memory.store p.pData dst (src.take n.toNat) }
  else .error (.badCopy dst src.length n)

/-- The header part of a round: the packet and `readlen`. -/
def copyHeader (p : PackDealWith) (region : List UInt8) : Except PackFault (PackDealWith × ℕ) :=
  let len := region.length
  if p.dataSize < p.headSize then
    let cpsize := if len > p.headSize - p.dataSize then p.headSize - p.dataSize else len
    (p.memcpy p.dataSize region cpsize).map fun p =>
      ({ p with dataSize := u16 (p.dataSize + cpsize) }, cpsize)
  else .ok (p, 0)

/-- The test for a packet that is too long. -/
def oversize (p : PackDealWith) : Except PackFault Bool :=
  if p.headSize ≤ p.dataSize then p.headLen.map fun hl => decide (p.dataCap < hl) else .ok false

/-- The body part of a round: the packet and the new `readlen`.  The source of both copies is
`pReadBuff`, the start of the region, also when `readlen` bytes of it have been used. -/
def copyBody (p : PackDealWith) (region : List UInt8) (readlen : ℕ) :
    Except PackFault (PackDealWith × ℕ) :=
  let len : ℤ := region.length
  match p.headLen with
  | .error e => .error e
  | .ok hl =>
      if (hl : ℤ) ≥ p.dataSize + (len - readlen) then
        (p.memcpy p.dataSize region (len - readlen)).map fun p =>
          ({ p with dataSize := u16 (p.dataSize + (len - readlen)) }, u16 len)
      else
        (p.memcpy p.dataSize region ((hl : ℤ) - p.dataSize)).map fun p =>
          ({ p with dataSize := u16 (p.dataSize + ((hl : ℤ) - p.dataSize)) },
            u16 (readlen + ((hl : ℤ) - p.dataSize)))

end PackDealWith

/-- What `MakeServerMsg` is called with: the message id and the first `_len` bytes of `_pData`. -/
structure ServerMsg where
  msgId : ℕ
  data : List UInt8
deriving DecidableEq

/-- The packet, the unread regions of the receive buffer, and two histories: the calls of
`MakeServerMsg`, and for every time `_head->_len` decided a copy the number of bytes of the
packet that were there. -/
structure TcpStickyWrap where
  pack : PackDealWith
  recvBuf : List (List UInt8)
  msgs : List ServerMsg
  decided : List ℕ

namespace TcpStickyWrap

/-- The object after its constructor, with `_head` and the block as they are. -/
def new (head : Option ℕ) (m : ℕ → UInt8) : TcpStickyWrap where
  pack := { PackDealWith.new m with head := head }
  recvBuf := []
  msgs := []
  decided := []

/-- `AdjustReadSize`: a region read to its end is gone. -/
def adjustReadSize (regions : List (List UInt8)) (n : ℕ) : List (List UInt8) :=
  match regions with
  | [] => []
  | region :: rest => if n < region.length then region.drop n :: rest else rest

/-- The end of a round: a complete packet is delivered. -/
def finishPack (s : TcpStickyWrap) : Except PackFault TcpStickyWrap :=
  if s.pack.headSize < s.pack.dataSize then
    match s.pack.headLen, s.pack.headMsgId with
    | .ok hl, .ok id =>
        if hl = s.pack.dataSize then
          .ok { s with
            msgs := s.msgs ++ [⟨id, Memory.load s.pack.pData 0 hl⟩]
            pack := { s.pack with dataSize := 0 } }
        else .ok s
    | .error e, _ => .error e
    | _, .error e => .error e
  else .ok s

/-- One round of the loop of `readData`, with `realLen`; the result carries the returned value. -/
def pass (x : TcpStickyWrap × ℕ) : Loop.Pass (TcpStickyWrap × ℕ) (ℤ × TcpStickyWrap) PackFault :=
  let s := x.1
  let region := s.recvBuf.headD []
  match s.pack.copyHeader region with
  | .error e => .fault e
  | .ok (p, readlen) =>
      match p.oversize with
      | .error e => .fault e
      | .ok true => .done (-1, { s with pack := p })
      | .ok false =>
          match p.copyBody region readlen with
          | .error e => .fault e
          | .ok (p', readlen') =>
              match finishPack { s with pack := p', recvBuf := adjustReadSize s.recvBuf readlen'
                                        decided := s.decided ++ [p.dataSize] } with
              | .error e => .fault e
              | .ok s' =>
                  if region.length ≤ readlen' then .done (x.2 + readlen', s')
                  else .next (s', x.2 + readlen')

/-- `readData` after `chunk` has been received. -/
def readData (fuel : ℕ) (s : TcpStickyWrap) (chunk : List UInt8) :
    Option (Except PackFault (ℤ × TcpStickyWrap)) :=
  Loop.iter pass fuel ({ s with recvBuf := s.recvBuf ++ [chunk] }, 0)

end TcpStickyWrap

/-- A received chunk: a `recv` that returned data, with a length that fits `unsigned short`. -/
structure Segment where
  bytes : List UInt8
  ne : bytes ≠ []
  fits : bytes.length < 65536

namespace TcpStickyWrap

/-- `seg` is received, and the `readData` after it returns and does not fail. -/
def Reads (s : TcpStickyWrap) (seg : Segment) (s' : TcpStickyWrap) : Prop :=
  ∃ fuel r, s.readData fuel seg.bytes = some (.ok (r, s')) ∧ r ≠ -1

/-- Received segments, each followed by a `readData` that does not fail. -/
def system (head : Option ℕ) (m : ℕ → UInt8) : LTS TcpStickyWrap Segment where
  init s := s = new head m
  step := Reads

end TcpStickyWrap
end NetService
