import NetService.Buffer.Model
import NetService.Lib.LTS

/-!
# `tl::Handler`: the echo connection

The class of `handler.h` and `handler.cc`: two buffers and one libevent event.  The kernel and
libevent are the environment.

* Each `recv` and `write` takes its result from a script; the calls are logged with the length
  or the bytes they were issued with.  A script entry that the kernel cannot answer (more bytes
  than were asked for, or none) describes no execution.
* `none` says that a callback has not returned: the script has no answer for the next system
  call, or the echo loop is still running after `fuel` passes.
* The event is not `EV_PERSIST`: it is no longer pending once its callback runs, and becomes
  pending again through `event_add` only.
-/

namespace NetService

/-- The result of one `recv`: `n > 0` bytes, `EAGAIN`/`EWOULDBLOCK`/`EINTR`, `0`, another error. -/
inductive RecvResult
  | data (bs : List UInt8)
  | again
  | closed
  | error
  deriving DecidableEq

/-- The result of one `write`: `n > 0`, `EAGAIN`/`EINTR`, another error. -/
inductive WriteResult
  | sent (n : ℕ)
  | again
  | error
  deriving DecidableEq

/-- A system call as it was issued, with its result. -/
inductive Syscall
  | recv (len : ℕ) (r : RecvResult)
  | write (buf : List UInt8) (r : WriteResult)
  deriving DecidableEq

/-- The event bits `EV_TIMEOUT`, `EV_READ` and `EV_WRITE`. -/
structure What where
  timeout : Bool := false
  read : Bool := false
  write : Bool := false
  deriving DecidableEq

/-- A libevent event: what it waits for, and whether it is pending. -/
structure Event where
  what : What
  pending : Bool
  deriving DecidableEq

/-- `tl::Handler`. -/
structure Handler where
  readBuf : Buffer UInt8
  writeBuf : Buffer UInt8
  ev : Event

/-- What a callback leaves: still running (`none`), a fault, or a value. -/
abbrev Outcome (β : Type) := Option (Except Buffer.Fault β)

namespace Handler

/-- The constructor: `event_new` with `EV_READ`, then `event_add`. -/
def new : Handler := { readBuf := {}, writeBuf := {}, ev := ⟨{ read := true }, true⟩ }

/-- The end of `handleRead` and of `handleWrite`: `event_assign` with `EV_WRITE` if `write_buf_`
holds data and with `EV_READ` if not, then `event_add`. -/
def rearm (h : Handler) : Handler :=
  let what : What := if h.writeBuf.size ≠ 0 then { write := true } else { read := true }
  { h with ev := ⟨what, true⟩ }

/-! ### `handleWrite` -/

/-- How the loop of `handleWrite` is left. -/
inductive WriteExit
  | drained
  | blocked
  | failed
  deriving DecidableEq

/-- The loop of `handleWrite`. -/
def writeLoop : List WriteResult → Buffer UInt8 →
    Outcome (List Syscall × WriteExit × Buffer UInt8)
  | [], wb => if wb.size = 0 then some (.ok ([], .drained, wb)) else none
  | r :: ws, wb =>
      if wb.size = 0 then some (.ok ([], .drained, wb))
      else
        match wb.dataChunk with
        | .error e => some (.error e)
        | .ok (q, len) =>
            match wb.load q len with
            | none => some (.error .outOfBlock)
            | some buf =>
                match r with
                | .again => some (.ok ([.write buf .again], .blocked, wb))
                | .error => some (.ok ([.write buf .error], .failed, wb))
                | .sent n =>
                    if 1 ≤ n ∧ n ≤ len then
                      (writeLoop ws (wb.drain n).2).map
                        (Except.map fun x => (.write buf (.sent n) :: x.1, x.2))
                    else none

/-- `Handler::handleWrite`: the log, the return value and the new state. -/
def handleWrite (h : Handler) (ws : List WriteResult) : Outcome (List Syscall × ℤ × Handler) :=
  (writeLoop ws h.writeBuf).map
    (Except.map fun x =>
      let h' := { h with writeBuf := x.2.2 }
      match x.2.1 with
      | .drained => (x.1, 0, h'.rearm)
      | .blocked => (x.1, 0, h')
      | .failed => (x.1, -1, h'))

/-! ### `handleRead` -/

/-- The receiving loop of `handleRead`; the flag is true when it is left by `break`. -/
def recvLoop : List RecvResult → Buffer UInt8 → Outcome (List Syscall × Bool × Buffer UInt8)
  | [], _ => none
  | r :: rs, rb =>
      let q := rb.spaceChunk.1.1
      let len := rb.spaceChunk.1.2
      let rb := rb.spaceChunk.2
      match r with
      | .closed => some (.ok ([.recv len .closed], false, rb))
      | .error => some (.ok ([.recv len .error], false, rb))
      | .again => some (.ok ([.recv len .again], true, rb))
      | .data bs =>
          if 1 ≤ bs.length ∧ bs.length ≤ len then
            match rb.store q bs with
            | none => some (.error .outOfBlock)
            | some rb =>
                match rb.spaceHaveSeted bs.length with
                | .error e => some (.error e)
                | .ok rb =>
                    if bs.length < len then some (.ok ([.recv len (.data bs)], true, rb))
                    else
                      (recvLoop rs rb).map
                        (Except.map fun x => (.recv len (.data bs) :: x.1, x.2))
          else none

/-- One pass of the echo loop of `handleRead`, on `read_buf_` and `write_buf_`. -/
def echoBody (s : Buffer UInt8 × Buffer UInt8) :
    Loop.Pass (Buffer UInt8 × Buffer UInt8) (Buffer UInt8 × Buffer UInt8) Buffer.Fault :=
  if s.1.size = 0 then .done s
  else
    match s.1.dataChunk with
    | .error e => .fault e
    | .ok (q, len) =>
        match s.1.load q len with
        | none => .fault .outOfBlock
        | some buf => .next ((s.1.drain len).2, (s.2.push buf).2)

/-- `Handler::handleRead`: the log, the return value and the new state. -/
def handleRead (fuel : ℕ) (h : Handler) (rs : List RecvResult) :
    Outcome (List Syscall × ℤ × Handler) :=
  match recvLoop rs h.readBuf with
  | none => none
  | some (.error e) => some (.error e)
  | some (.ok (tr, false, rb)) => some (.ok (tr, -1, { h with readBuf := rb }))
  | some (.ok (tr, true, rb)) =>
      (Loop.iter echoBody fuel (rb, h.writeBuf)).map
        (Except.map fun s => (tr, 0, ({ h with readBuf := s.1, writeBuf := s.2 } : Handler).rearm))

/-! ### `handler_event_cb` -/

/-- The part of `handler_event_cb` for `EV_READ`. -/
def onRead (fuel : ℕ) (what : What) (h : Handler) (rs : List RecvResult) :
    Outcome (List Syscall × ℤ × Handler) :=
  if what.read then h.handleRead fuel rs else some (.ok ([], 0, h))

/-- The part of `handler_event_cb` for `EV_WRITE`. -/
def onWrite (what : What) (h : Handler) (ws : List WriteResult) :
    Outcome (List Syscall × ℤ × Handler) :=
  if what.write then h.handleWrite ws else some (.ok ([], 0, h))

/-- `handler_event_cb`: the log, and the handler unless it was deleted. -/
def eventCb (fuel : ℕ) (what : What) (h : Handler) (rs : List RecvResult)
    (ws : List WriteResult) : Outcome (List Syscall × Option Handler) :=
  if what.timeout then some (.ok ([], none))
  else
    match h.onRead fuel what rs with
    | none => none
    | some (.error e) => some (.error e)
    | some (.ok (tr, r, h)) =>
        if r ≠ 0 then some (.ok (tr, none))
        else
          (h.onWrite what ws).map
            (Except.map fun x => (tr ++ x.1, if x.2.1 ≠ 0 then none else some x.2.2))

/-! ### Runs of callbacks -/

/-- A connection: its handler, `none` once deleted, and all system calls issued so far. -/
structure Conn where
  handler : Option Handler
  log : List Syscall

/-- A callback: the event bits it is called with and the results of its system calls. -/
structure Callback where
  what : What
  recvs : List RecvResult
  writes : List WriteResult

/-- libevent removes the event before it runs the callback. -/
def fired (h : Handler) : Handler := { h with ev := { h.ev with pending := false } }

/-- Callbacks on one handler; `allowed` says when the event loop may run which of them. -/
def connSys (allowed : Handler → What → Prop) : LTS Conn Callback where
  init c := c = ⟨some new, []⟩
  step c l c' :=
    ∃ h, c.handler = some h ∧ allowed h l.what ∧
      ∃ fuel tr h', eventCb fuel l.what h.fired l.recvs l.writes = some (.ok (tr, h')) ∧
        c' = ⟨h', c.log ++ tr⟩

/-- What libevent may call a pending event with: a timeout, or something it waits for. -/
def Delivers (h : Handler) (what : What) : Prop :=
  h.ev.pending = true ∧ (what.timeout || what.read || what.write) = true ∧
    (what.read = true → h.ev.what.read = true) ∧ (what.write = true → h.ev.what.write = true)

instance (h : Handler) (what : What) : Decidable (Delivers h what) :=
  inferInstanceAs (Decidable (_ ∧ _ ∧ _ ∧ _))

end Handler
end NetService
