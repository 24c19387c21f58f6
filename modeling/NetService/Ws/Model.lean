import NetService.Lib.LTS
import NetService.Lib.Loop
import NetService.Lib.Memory
import NetService.Tcp.Model

/-!
# `WsStickyWrap::readData`

`WsDealWith` is the receive buffer with the state of the frame parser.  `_head.wbs` is a pointer into
`_pData`, here an offset; it is `none` until `INIT_HEAD` sets it, and its bit fields are read from
the block at the time of use.  `char` is signed, so a byte of an extended length is sign-extended
before it is shifted.

`pass` is one round of the do-while loop of `readData`.  `finishParse` is a callback, recorded with
the bytes it is given; so is every byte string passed to `FdBridge::write`.  What `send` returns is
up to the environment, `send i` for the `i`-th call; `malloc` does not fail.
-/

namespace NetService
namespace Ws

/-- `OP_State` -/
inductive OpState
  | initHead
  | readPayload
  | readMask
  | readMaskKey
  | readData
deriving DecidableEq

/-- `ws_head` -/
structure WsHead where
  wbs : Option ℕ
  len : UInt64
  masks : Fin 4 → UInt8

/-- `WsDealWith` -/
structure WsDealWith where
  head : WsHead
  pData : ℕ → UInt8
  dataSize : ℕ
  dataCap : ℕ
  readSize : ℕ
  parseIndex : ℕ
  headSize : ℕ
  op : OpState

/-- Undefined behaviour while frames are parsed. -/
inductive WsFault
  /-- `_head.wbs` is read before it has been set -/
  | headUnset
  /-- a `memcpy` of `n` bytes from `src` to `dst` that leaves `_pData` or overlaps -/
  | badCopy (dst src n : ℕ)
  /-- a `sendFrame` of `size` bytes from `src` on, more than `_pData` has -/
  | badSend (src size : ℕ)
deriving DecidableEq

/-! ### `ws_base`, two bytes of bit fields -/

/-- `fin` -/
def fin (b : UInt8) : Bool := decide (128 ≤ b.toNat)

/-- `opcod` -/
def opcod (b : UInt8) : ℕ := b.toNat % 16

/-- `payLoad`, in the second byte. -/
def payLoad (b : UInt8) : ℕ := b.toNat % 128

/-- `WS_FR_OP_CLSE` -/
def opClse : ℕ := 8

/-- `WS_FR_OP_PING` -/
def opPing : ℕ := 9

/-- `WS_FR_OP_PONG` -/
def opPong : ℕ := 10

/-- `WS_FR_OP_UNSUPPORTED` -/
def opUnsupported : ℕ := 15

/-- A `char` converted to `uint64_t`. -/
def charToU64 (b : UInt8) : UInt64 := ⟨b.toBitVec.signExtend 64⟩

/-- The length in the two bytes behind a `payLoad` of 126. -/
def extLen16 (p : ℕ → UInt8) : UInt64 := charToU64 (p 0) <<< 8 ||| charToU64 (p 1)

/-- The length in the eight bytes behind a `payLoad` of 127. -/
def extLen64 (p : ℕ → UInt8) : UInt64 :=
  charToU64 (p 0) <<< 56 ||| charToU64 (p 1) <<< 48 ||| charToU64 (p 2) <<< 40 |||
    charToU64 (p 3) <<< 32 ||| charToU64 (p 4) <<< 24 ||| charToU64 (p 5) <<< 16 |||
    charToU64 (p 6) <<< 8 ||| charToU64 (p 7)

/-- `masks[i % 4]` -/
def maskAt (masks : Fin 4 → UInt8) (i : ℕ) : UInt8 := masks ⟨i % 4, Nat.mod_lt i (by decide)⟩

namespace WsDealWith

/-- The object after `WsDealWith()`, with `malloc` giving a block that holds `m`; the constructor
leaves `_head` as it is, `junk` but for the pointer. -/
def new (m : ℕ → UInt8) (junk : WsHead) : WsDealWith where
  head := { junk with wbs := none }
  pData := m
  dataSize := 0
  dataCap := packCap * 2
  readSize := 0
  parseIndex := 0
  headSize := 2
  op := .initHead

/-- The loop of `READ_DATA` over `n` bytes from `pbuff` on, with `readlen`; `none` is the
`return (-1)` at a byte that is `-1` as a `char`. -/
def unmask : ℕ → ℕ → ℕ → WsDealWith → WsDealWith × Option ℕ
  | 0, _, readlen, d => (d, some readlen)
  | n + 1, pbuff, readlen, d =>
      if d.parseIndex < d.head.len.toNat then
        let curByte := d.pData pbuff
        if curByte = 0xFF then (d, none)
        else unmask n (pbuff + 1) (readlen + 1)
          { d with
            pData := Function.update d.pData pbuff
              (curByte ^^^ maskAt d.head.masks d.parseIndex)
            parseIndex := u16 (d.parseIndex + 1) }
      else (d, some readlen)

/-- `parseWsHead(pbuff, len)`, with `none` for `-1`. -/
def parseWsHead (d : WsDealWith) (pbuff : ℕ) (len : ℤ) :
    Except WsFault (WsDealWith × Option ℕ) :=
  if 0 < len then
    match d.op with
    | .initHead =>
        if 2 ≤ len then
          .ok ({ d with
            head := ⟨some pbuff, 0, fun _ => 0⟩, op := .readPayload, parseIndex := 0 },
            some d.headSize)
        else .ok (d, some 0)
    | .readPayload =>
        match d.head.wbs with
        | none => .error .headUnset
        | some o =>
            let pl := payLoad (d.pData (o + 1))
            if pl < 126 then
              .ok ({ d with head := { d.head with len := UInt64.ofNat pl }, op := .readMaskKey },
                some 0)
            else if pl = 126 ∧ 2 ≤ len then
              .ok ({ d with
                head := { d.head with len := extLen16 fun i => d.pData (pbuff + i) }
                op := .readMaskKey }, some 2)
            else if pl = 127 ∧ 8 ≤ len then
              .ok ({ d with
                head := { d.head with len := extLen64 fun i => d.pData (pbuff + i) }
                op := .readMaskKey }, some 8)
            else .ok (d, some 0)
    | .readMaskKey =>
        if 4 ≤ len then
          .ok ({ d with
            head := { d.head with masks := fun i => d.pData (pbuff + i) }, op := .readData },
            some 4)
        else .ok (d, some 0)
    | .readData =>
        match d.unmask len.toNat pbuff 0 with
        | (d, none) => .ok (d, none)
        | (d, some readlen) =>
            if d.head.len.toNat ≤ d.parseIndex then .ok ({ d with op := .initHead }, some readlen)
            else .ok (d, some readlen)
    | .readMask => .ok (d, none)
  else .ok (d, some 0)

/-- `CalFrameHeadSize`, with `_head.wbs` at offset `o`. -/
def calFrameHeadSize (d : WsDealWith) (o : ℕ) : ℕ :=
  let pl := payLoad (d.pData (o + 1))
  6 + if pl = 126 then 2 else if pl = 127 then 8 else 0

end WsDealWith

/-! ### Replies -/

/-- `frame[0]` to `frame[headSize - 1]` of `sendFrame`. -/
def frameHead (size : UInt64) (type : ℕ) : List UInt8 :=
  let first := UInt8.ofNat (128 ||| type)
  if size ≤ 125 then [first, size.toUInt8 &&& 0x7F]
  else if 126 ≤ size ∧ size < 65535 then [first, 126, (size >>> 8).toUInt8, size.toUInt8]
  else
    [first, 127, (size >>> 56).toUInt8, (size >>> 48).toUInt8, (size >>> 40).toUInt8,
      (size >>> 32).toUInt8, (size >>> 24).toUInt8, (size >>> 16).toUInt8, (size >>> 8).toUInt8,
      size.toUInt8]

/-- The bytes `sendFrame` passes to `write`: the head, the payload and a `'\0'`. -/
def sendFrame (pdata : List UInt8) (type : ℕ) : List UInt8 :=
  frameHead (UInt64.ofNat pdata.length) type ++ pdata ++ [0]

/-- A call that leaves the parser. -/
inductive Call
  /-- `finishParse(pData, size)`, with the `size` bytes at `pData` -/
  | finishParse (data : List UInt8)
  /-- `write(response, size)`, with the `size` bytes at `response` -/
  | write (response : List UInt8)
deriving DecidableEq

/-- The payload a call delivers. -/
def Call.delivered? : Call → Option (List UInt8)
  | .finishParse data => some data
  | .write _ => none

/-- The payloads delivered by `calls`. -/
def delivered (calls : List Call) : List (List UInt8) := calls.filterMap Call.delivered?

/-- The byte string a call sends. -/
def Call.written? : Call → Option (List UInt8)
  | .finishParse _ => none
  | .write response => some response

/-- The byte strings sent by `calls`. -/
def written (calls : List Call) : List (List UInt8) := calls.filterMap Call.written?

/-- The parser and the calls it has made. -/
structure WsStickyWrap where
  deal : WsDealWith
  calls : List Call

namespace WsStickyWrap

/-- The object after its constructor. -/
def new (m : ℕ → UInt8) (junk : WsHead) : WsStickyWrap where
  deal := .new m junk
  calls := []

/-! ### `readData` -/

/-- `sendFrame(_pData + headsize, _Data_size - headsize, type)` and the test of its result; `false`
is `return -1`. -/
def reply (send : ℕ → ℤ) (s : WsStickyWrap) (headsize type : ℕ) :
    Except WsFault (WsStickyWrap × Bool) :=
  let size := Word.wrap 64 ((s.deal.dataSize : ℤ) - headsize)
  if headsize + size ≤ s.deal.dataCap then
    let response := sendFrame (Memory.load s.deal.pData headsize size) type
    .ok ({ s with calls := s.calls ++ [.write response] },
      decide (0 ≤ send (written s.calls).length))
  else .error (.badSend headsize size)

/-- The `default` branch: the payload is handed over and the buffer compacted. -/
def deliver (s : WsStickyWrap) (headsize : ℕ) : Except WsFault (WsStickyWrap × Bool) :=
  let d := s.deal
  let len := d.head.len.toNat
  if Word.wrap 64 ((d.dataSize : ℤ) - headsize) ≤ len then
    let n := Word.wrap 64 ((d.dataSize : ℤ) - headsize - len)
    if headsize + len + n ≤ d.dataCap ∧ n ≤ headsize + len then
      .ok (⟨{ d with
          pData := Memory.store d.pData 0 (Memory.load d.pData (headsize + len) n)
          dataSize := u16 ((d.dataSize : ℤ) - headsize - len)
          readSize := 0 },
        s.calls ++ [.finishParse (Memory.load d.pData headsize len)]⟩, true)
    else .error (.badCopy 0 (headsize + len) n)
  else .ok (s, false)

/-- The `switch` on the opcode of a complete frame, with `_head.wbs` at offset `o`. -/
def onFrame (send : ℕ → ℤ) (s : WsStickyWrap) (o : ℕ) : Except WsFault (WsStickyWrap × Bool) :=
  let headsize := s.deal.calFrameHeadSize o
  let op := opcod (s.deal.pData o)
  if op = opClse then s.reply send headsize opClse
  else if op = opPing then s.reply send headsize opPing
  else if op = opPong then .ok (s, true)
  else if op = opUnsupported then .ok (s, true)
  else s.deliver headsize

/-- What follows `parseWsHead`: the test for a complete frame and the `switch`. -/
def afterParse (send : ℕ → ℤ) (s : WsStickyWrap) : Except WsFault (WsStickyWrap × Bool) :=
  match s.deal.head.wbs with
  | none => .error .headUnset
  | some o =>
      if fin (s.deal.pData o) ∧ s.deal.parseIndex ≠ 0 ∧ s.deal.head.len.toNat ≤ s.deal.parseIndex
      then s.onFrame send o
      else .ok (s, true)

/-- One round of the loop of `readData`; the result carries the returned value. -/
def pass (send : ℕ → ℤ) (realLen : ℕ) (s : WsStickyWrap) :
    Loop.Pass WsStickyWrap (ℤ × WsStickyWrap) WsFault :=
  let d := s.deal
  match d.parseWsHead d.readSize ((d.dataSize : ℤ) - d.readSize) with
  | .error e => .fault e
  | .ok (d, none) => .done (realLen, { s with deal := d })
  | .ok (d, some parseLen) =>
      match afterParse send { s with deal := { d with readSize := u16 (d.readSize + parseLen) } } with
      | .error e => .fault e
      | .ok (s, false) => .done (-1, s)
      | .ok (s, true) =>
          if 0 < (s.deal.dataSize : ℤ) - s.deal.readSize then .next s else .done (realLen, s)

/-- `readData`, given `chunk`. -/
def readData (send : ℕ → ℤ) (fuel : ℕ) (s : WsStickyWrap) (chunk : List UInt8) :
    Option (Except WsFault (ℤ × WsStickyWrap)) :=
  let d := s.deal
  if 0 < chunk.length then
    if (chunk.length : ℤ) < (d.dataCap : ℤ) - d.dataSize then
      Loop.iter (pass send chunk.length) fuel { s with
        deal := { d with
          pData := Memory.store d.pData d.dataSize chunk
          dataSize := u16 (d.dataSize + chunk.length) } }
    else some (.ok (-1, s))
  else some (.ok (0, s))

end WsStickyWrap

/-- What `readData` is called with: its length is an `unsigned short`. -/
structure Chunk where
  bytes : List UInt8
  fits : bytes.length < 65536

namespace WsStickyWrap

/-- A `readData` that returns and does not fail. -/
def Reads (send : ℕ → ℤ) (s : WsStickyWrap) (chunk : Chunk) (s' : WsStickyWrap) : Prop :=
  ∃ fuel r, s.readData send fuel chunk.bytes = some (.ok (r, s')) ∧ r ≠ -1

/-- Calls of `readData` that return and do not fail. -/
def system (send : ℕ → ℤ) (m : ℕ → UInt8) (junk : WsHead) : LTS WsStickyWrap Chunk where
  init s := s = new m junk
  step := Reads send

end WsStickyWrap
end Ws
end NetService
