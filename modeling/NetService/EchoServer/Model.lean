import NetService.Handler.Echo
import NetService.Lib.LTS

/-!
# The echo server

The `n` event loops of `main`, each in a thread of its own with a `Listener`, and the `Handler`s they
create.  All threads share the descriptor table of the process.

* `accept` gives a descriptor that is not in use to the next connection; the bytes that connection
  `c` sends are `stream c`.  Handlers are named after the connection they were created for, but work
  on their `fd_` alone: what `recv`, `write` and `close` reach is what the table says.
* libevent runs a callback of a handler in the loop of its base, and only for a pending event.  A
  callback is one step up to the `close` of the destructor, and so is the constructor up to its
  `close`; every `close` is a step of its own, so that other threads can accept in between.

`received`, `written` and `closed` are histories.
-/

namespace NetService

/-- What a descriptor refers to. -/
inductive File
  | conn (c : ℕ)
  /-- a listening socket, or what the process had open before -/
  | other
  deriving DecidableEq

namespace EchoServer

/-- A handler on the heap: the base of its event, `fd_`, and the rest with its calls. -/
structure Obj (n : ℕ) where
  disp : Fin n
  fd : ℕ
  conn : Handler.Conn

/-- Where a loop thread is. -/
inductive Thread
  /-- in `event_base_loop` -/
  | polling
  /-- in the loop of `doAccept` -/
  | accepting
  /-- in `handle_`, called for connection `c` with descriptor `fd` -/
  | handling (c fd : ℕ)
  /-- in the constructor, before the `close` of the error path -/
  | refusing (c fd : ℕ)
  /-- in `delete` of handler `c`, before `close` -/
  | deleting (c : ℕ)
  deriving DecidableEq

end EchoServer

open EchoServer in
/-- The process. -/
structure EchoServer (n : ℕ) where
  table : ℕ → Option File
  threads : Fin n → Thread
  handlers : ℕ → Option (Obj n)
  accepted : ℕ
  received : ℕ → List UInt8
  written : ℕ → List UInt8
  closed : List (Option File)

namespace EchoServer

variable {n : ℕ}

/-- Before the loops run, with the listening sockets open. -/
def new (table : ℕ → Option File) : EchoServer n where
  table := table
  threads _ := .polling
  handlers _ := none
  accepted := 0
  received _ := []
  written _ := []
  closed := []

def setThread (s : EchoServer n) (d : Fin n) (t : Thread) : EchoServer n :=
  { s with threads := Function.update s.threads d t }

/-- `close(fd)` -/
def close (s : EchoServer n) (fd : ℕ) : EchoServer n :=
  { s with table := Function.update s.table fd none, closed := s.closed ++ [s.table fd] }

/-- What the kernel does for the calls of a callback on `fd`: bytes are received from the connection
the descriptor refers to, in order, and written to it; on another descriptor no call succeeds. -/
def transfer (stream : ℕ → List UInt8) (s : EchoServer n) (fd : ℕ) (calls : List Syscall) :
    Option (EchoServer n) :=
  let bytes := Handler.received calls
  let sent := Handler.written calls
  match s.table fd with
  | some (.conn c) =>
      if s.received c ++ bytes <+: stream c then
        some { s with
          received := Function.update s.received c (s.received c ++ bytes)
          written := Function.update s.written c (s.written c ++ sent) }
      else none
  | _ => if bytes = [] ∧ sent = [] then some s else none

/-- What the threads can do next; `d` is a loop thread. -/
inductive Action (n : ℕ)
  /-- `listener_event_cb` calls `doAccept` -/
  | listen (d : Fin n)
  /-- `accept` returns `fd` -/
  | accept (d : Fin n) (fd : ℕ)
  /-- `accept` returns -1 -/
  | acceptFails (d : Fin n)
  /-- `new Handler`; `ok` if the socket could be made non-blocking -/
  | construct (d : Fin n) (ok : Bool)
  /-- the `close` of the constructor, which then throws -/
  | refuse (d : Fin n)
  /-- `handler_event_cb` for handler `c` -/
  | callback (d : Fin n) (c : ℕ) (fuel : ℕ) (cb : Handler.Callback)
  /-- the `close` of the destructor -/
  | destroy (d : Fin n)

/-- `handler_event_cb` on handler `c`, in the loop thread `d`. -/
def runCallback (stream : ℕ → List UInt8) (s : EchoServer n) (d : Fin n) (c : ℕ) (obj : Obj n)
    (h : Handler) (fuel : ℕ) (cb : Handler.Callback) : Option (EchoServer n) :=
  match Handler.eventCb fuel cb.what h.fired cb.recvs cb.writes with
  | some (.ok (calls, h')) =>
      (s.transfer stream obj.fd calls).map fun s =>
        let obj := { obj with conn := ⟨h', obj.conn.log ++ calls⟩ }
        { s with handlers := Function.update s.handlers c (some obj) }.setThread d
          (if h'.isSome then .polling else .deleting c)
  | _ => none

/-- One step. -/
def step (stream : ℕ → List UInt8) (s : EchoServer n) : Action n → Option (EchoServer n)
  | .listen d => if s.threads d = .polling then some (s.setThread d .accepting) else none
  | .accept d fd =>
      if s.threads d = .accepting ∧ s.table fd = none then
        some ({ s with
          table := Function.update s.table fd (some (.conn s.accepted))
          accepted := s.accepted + 1 }.setThread d (.handling s.accepted fd))
      else none
  | .acceptFails d => if s.threads d = .accepting then some (s.setThread d .polling) else none
  | .construct d ok =>
      match s.threads d with
      | .handling c fd =>
          if ok then
            some ({ s with
              handlers := Function.update s.handlers c (some ⟨d, fd, ⟨some .new, []⟩⟩) }.setThread d
                .accepting)
          else some (s.setThread d (.refusing c fd))
      | _ => none
  | .refuse d =>
      match s.threads d with
      | .refusing _ fd => some ((s.close fd).setThread d .accepting)
      | _ => none
  | .callback d c fuel cb =>
      match s.threads d, s.handlers c with
      | .polling, some obj =>
          match obj.conn.handler with
          | some h =>
              if obj.disp = d ∧ Handler.Delivers h cb.what then s.runCallback stream d c obj h fuel cb
              else none
          | none => none
      | _, _ => none
  | .destroy d =>
      match s.threads d with
      | .deleting c =>
          match s.handlers c with
          | some obj =>
              some ({ s.close obj.fd with handlers := Function.update s.handlers c none }.setThread d
                .polling)
          | none => none
      | _ => none

/-- The server, from the start of its loops on, whatever the process has open besides. -/
def system (n : ℕ) (stream : ℕ → List UInt8) : LTS (EchoServer n) (Action n) where
  init s := ∃ table, (∀ fd c, table fd ≠ some (File.conn c)) ∧ s = new table
  step s a t := s.step stream a = some t

end EchoServer
end NetService
