import NetService.Handler.Model
import NetService.MemoryBuff.Model
import NetService.Ws.Model

/-!
# `FdBridge::read` and `WsConnect::readData`

`FdBridge::read` receives into the nodes of the connection's `memoryBuff` and calls `readData`, which
answers the opening handshake and then hands each node's bytes to `WsStickyWrap::readData`.

* The socket is open and non-blocking; what has arrived at it when `read` is called is the chunk.
* `get_handshake_response` is a function of the request text, and `send` of the response returns
  `Env.send`.
* `strstr` and `strtok_r` need a string: a block without a `'\0'` is a fault.  That `strtok_r` writes
  into the text does not matter, since the region is either consumed or the connection deleted.
* The responses sent and the calls of `WsStickyWrap::readData`, each with the value it returned, are
  logged; a call that does not return is logged with `none`.
-/

namespace NetService

namespace FdBridge

/-- `recv(_fd, buff, len, 0)` while `pending` is at the socket. -/
def recv (pending : List UInt8) (len : ℕ) : RecvResult :=
  if pending = [] then .again else .data (pending.take len)

/-- One round of the loop of `read`, on the buffer and what is at the socket; the loop is left with
`true` by `break` and with `false` by `return -1`. -/
def pass : MemoryBuff × List UInt8 →
    Loop.Pass (MemoryBuff × List UInt8) (Bool × MemoryBuff) MemoryBuff.Fault
  | (buff, pending) =>
      match buff.getWriteBuff with
      | .error e => .fault e
      | .ok ((q, len), buff) =>
          if len = 0 then .done (true, buff)
          else
            match recv pending len with
            | .closed => .done (false, buff)
            | .error => .done (false, buff)
            | .again => .done (true, buff)
            | .data bs =>
                match (buff.store q bs).adjustWriteSize bs.length with
                | .error e => .fault e
                | .ok buff =>
                    if bs.length < len then .done (true, buff)
                    else .next (buff, pending.drop bs.length)

end FdBridge

/-- The string at an address: the bytes before the first `'\0'` of the block. -/
def MemoryBuff.cString (b : MemoryBuff) (q : MemoryBuff.Addr) : Option (List UInt8) :=
  match b.heap q.node with
  | none => none
  | some nd =>
      let bs := Memory.load nd.pData q.off (nd.cap - q.off)
      if 0 ∈ bs then some (bs.takeWhile (· ≠ 0)) else none

/-- `WsConnect`, with the `memoryBuff` and the parser it inherits. -/
structure WsConnect where
  buff : MemoryBuff
  wrap : Ws.WsStickyWrap
  isHandshark : Bool
  /-- the responses given to `send` -/
  sent : List (List UInt8)
  /-- the calls of `WsStickyWrap::readData` -/
  calls : List (List UInt8 × Option ℤ)

namespace WsConnect

/-- What `WsConnect` calls. -/
structure Env where
  /-- `get_handshake_response`, `none` when it is negative -/
  getHandshakeResponse : List UInt8 → Option (List UInt8)
  /-- what `send` of a response returns -/
  send : ℤ
  /-- `WsStickyWrap::readData`, `none` when it does not return -/
  readData : Ws.WsStickyWrap → List UInt8 → Option (ℤ × Ws.WsStickyWrap)

/-- How a call may go wrong other than by returning a negative value. -/
inductive Fault
  | buff (e : MemoryBuff.Fault)
  /-- `strstr` in a block without a `'\0'` -/
  | notString
  /-- `WsStickyWrap::readData` does not return -/
  | lost (w : WsConnect)

/-- The object after its constructor. -/
def new (m : ℕ → UInt8) (junk : Ws.WsHead) : WsConnect where
  buff := .new 2
  wrap := .new m junk
  isHandshark := false
  sent := []
  calls := []

/-- The argument of the `strstr` in `do_handshake`. -/
def crlfcrlf : List UInt8 := [13, 10, 13, 10]

/-- `do_handshake` -/
def doHandshake (env : Env) (w : WsConnect) (buff : MemoryBuff.Addr) :
    Except Fault (ℤ × WsConnect) :=
  match w.buff.cString buff with
  | none => .error .notString
  | some text =>
      if crlfcrlf <:+: text then
        match env.getHandshakeResponse text with
        | none => .ok (-1, w)
        | some response =>
            let w := { w with sent := w.sent ++ [response] }
            if env.send < 0 then .ok (-1, w) else .ok (0, w)
      else .ok (-1, w)

/-- One round of the loop of `readData`, on the object and `readlen`. -/
def pass (env : Env) : WsConnect × ℕ → Loop.Pass (WsConnect × ℕ) (ℤ × WsConnect) Fault
  | (w, readlen) =>
      match w.buff.getReadBuff with
      | .error e => .fault (.buff e)
      | .ok none => .done (readlen, w)
      | .ok (some (pReadBuff, len)) =>
          if w.isHandshark = false then
            match doHandshake env w pReadBuff with
            | .error e => .fault e
            | .ok (ret, w) =>
                if ret < 0 then .done (ret, w)
                else
                  match w.buff.adjustReadSize len with
                  | .error e => .fault (.buff e)
                  | .ok buff => .done (len, { w with buff := buff, isHandshark := true })
          else
            let bytes := w.buff.load pReadBuff len
            match env.readData w.wrap bytes with
            | none => .fault (.lost { w with calls := w.calls ++ [(bytes, none)] })
            | some (rlen, wrap) =>
                let w := { w with wrap := wrap, calls := w.calls ++ [(bytes, some rlen)] }
                if rlen < 0 then .done (rlen, w)
                else
                  match w.buff.adjustReadSize (u16 rlen) with
                  | .error e => .fault (.buff e)
                  | .ok buff => .next ({ w with buff := buff }, u16 (readlen + rlen))

/-- `readData` -/
def readData (env : Env) (fuel : ℕ) (w : WsConnect) : Option (Except Fault (ℤ × WsConnect)) :=
  Loop.iter (pass env) fuel (w, 0)

/-- `FdBridge::read` on a `WsConnect`, whose `notifyred` is `readData`, with `chunk` at the
socket. -/
def read (env : Env) (fuel : ℕ) (w : WsConnect) (chunk : List UInt8) :
    Option (Except Fault (ℤ × WsConnect)) :=
  match Loop.iter FdBridge.pass fuel (w.buff, chunk) with
  | none => none
  | some (.error e) => some (.error (.buff e))
  | some (.ok (false, buff)) => some (.ok (-1, { w with buff := buff }))
  | some (.ok (true, buff)) => readData env fuel { w with buff := buff }

/-- The call comes to an end with `out`. -/
def Leads (env : Env) (w : WsConnect) (chunk : List UInt8) (out : Except Fault (ℤ × WsConnect)) :
    Prop :=
  ∃ fuel, read env fuel w chunk = some out

/-- Connections whose calls have not failed: the owner of one that fails deletes it. -/
def system (env : Env) (m : ℕ → UInt8) (junk : Ws.WsHead) : LTS WsConnect (List UInt8) where
  init w := w = new m junk
  step w chunk w' := ∃ r, 0 ≤ r ∧ Leads env w chunk (.ok (r, w'))

end WsConnect
end NetService
