import Mathlib.Data.List.AList
import NetService.Lib.LTS

/-!
# `TcpConnectMgr` and `WsConnectMgr`

The two managers do the same: a map from the id of a connection to the connection, and a 32-bit
counter that gives out the ids.  Connections are numbered in the order in which they are created,
and a pointer is such a number; what the manager does not see of a connection is left out.  `deleted`
is the history of `delete`, so that a second one of a connection would be seen.

`TcpConnectMgr` does not set `_UniqueId`, so that it may begin with any value.
-/

namespace NetService

/-- `std::unordered_map<UQType, TcpConnect *>`; a pointer may be null. -/
abbrev ConnectMap := AList fun _ : UInt32 => Option ℕ

/-- `insert`, which keeps an entry that is there. -/
def ConnectMap.insertNew (m : ConnectMap) (connId : UInt32) (conn : ℕ) : ConnectMap :=
  if connId ∈ m then m else m.insert connId (some conn)

/-- A manager, the `_connonId` of every connection created, and the connections deleted so far. -/
structure ConnectMgr where
  connectMgr : ConnectMap
  uniqueId : UInt32
  connonIds : List UInt32
  deleted : List ℕ

namespace ConnectMgr

/-- A manager without connections. -/
def new (uniqueId : UInt32) : ConnectMgr where
  connectMgr := ∅
  uniqueId := uniqueId
  connonIds := []
  deleted := []

/-- `GetConnonId` -/
def getConnonId (s : ConnectMgr) (conn : ℕ) : UInt32 := s.connonIds.getD conn 0

/-- `Make_uniqueId` -/
def makeUniqueId (s : ConnectMgr) : UInt32 × ConnectMgr :=
  (s.uniqueId, { s with uniqueId := s.uniqueId + 1 })

/-- `NewConnect` -/
def newConnect (s : ConnectMgr) : ConnectMgr :=
  let (connId, s) := s.makeUniqueId
  let conn := s.connonIds.length
  { s with
    connonIds := s.connonIds ++ [connId]
    connectMgr := s.connectMgr.insertNew connId conn }

/-- `deleteConnect` -/
def deleteConnect (s : ConnectMgr) (connId : UInt32) : ConnectMgr :=
  { s with connectMgr := s.connectMgr.erase connId }

/-- `delete` of a connection. -/
def delete (s : ConnectMgr) (conn : ℕ) : ConnectMgr := { s with deleted := s.deleted ++ [conn] }

/-- The body of the loop of `OnStop`, at the entry of `connId`. -/
def deleteEntry (s : ConnectMgr) (connId : UInt32) : ConnectMgr :=
  match s.connectMgr.lookup connId with
  | some (some conn) =>
      { s.delete conn with connectMgr := s.connectMgr.insert connId none }
  | _ => s

/-- `_connectMgr.clear()` -/
def clear (s : ConnectMgr) : ConnectMgr := { s with connectMgr := ∅ }

/-- `OnStop`, with the entries in the order `order`. -/
def onStop (s : ConnectMgr) (order : List UInt32) : ConnectMgr := (order.foldl deleteEntry s).clear

/-! ### The read callbacks, when the read has failed -/

/-- Which of the two services. -/
inductive Service
  | tcp
  | ws
deriving DecidableEq

/-- `client_read_cb` -/
def clientReadCb (s : ConnectMgr) (conn : ℕ) : ConnectMgr :=
  (s.deleteConnect (s.getConnonId conn)).delete conn

/-- `ws_client_read_cb`, which calls `deleteConnect` twice. -/
def wsClientReadCb (s : ConnectMgr) (conn : ℕ) : ConnectMgr :=
  ((s.deleteConnect (s.getConnonId conn)).deleteConnect (s.getConnonId conn)).delete conn

/-- The callback of a service. -/
def readFailed : Service → ConnectMgr → ℕ → ConnectMgr
  | .tcp => clientReadCb
  | .ws => wsClientReadCb

/-- The second call erases nothing. -/
theorem wsClientReadCb_eq (s : ConnectMgr) (conn : ℕ) :
    s.wsClientReadCb conn = s.clientReadCb conn := by
  have herase : (s.connectMgr.erase (s.getConnonId conn)).erase (s.getConnonId conn) =
      s.connectMgr.erase (s.getConnonId conn) := by
    apply AList.ext
    exact List.kerase_of_notMem_keys (List.notMem_keys_kerase _ s.connectMgr.nodupKeys)
  unfold wsClientReadCb clientReadCb deleteConnect
  simp only [herase]

theorem readFailed_eq (svc : Service) (s : ConnectMgr) (conn : ℕ) :
    readFailed svc s conn = s.clientReadCb conn := by
  cases svc with
  | tcp => rfl
  | ws => exact s.wsClientReadCb_eq conn

/-! ### Runs -/

/-- The connection has been created and not deleted. -/
def Live (s : ConnectMgr) (conn : ℕ) : Prop := conn < s.connonIds.length ∧ conn ∉ s.deleted

inductive Event
  /-- `NewConnect` -/
  | newConnect
  /-- a read callback whose read fails -/
  | readFailed (conn : ℕ)

/-- A manager from the start, with callbacks on live connections. -/
def system (svc : Service) (uniqueId : UInt32) : LTS ConnectMgr Event where
  init s := s = new uniqueId
  step s e t :=
    match e with
    | .newConnect => t = s.newConnect
    | .readFailed conn => s.Live conn ∧ t = readFailed svc s conn

end ConnectMgr
end NetService
