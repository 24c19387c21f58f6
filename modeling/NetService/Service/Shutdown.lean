import NetService.ConnectMgr.Registered

/-!
# `OnStop` of the services while the event loop runs

`TcpService::OnStop` and `WsService::OnStop` run on the calling thread.  They free the listen event,
delete the connections of the manager, ask the loop to exit and join its thread.  The loop thread
accepts connections and runs read callbacks until then.  No lock is shared, so that the steps of
the two threads come in any order; where `event_free` waits for a callback that is running there are
fewer orders.

The events of libevent are modelled by what makes a callback start: the listen event is there until
`OnStop` frees it, and that of a connection from its `event_add` to the `event_free` of the
destructor, which needs the `_ev` that `setEv` has stored.  `stale` is the history of the steps of
the loop thread on a connection that has been deleted.

The loop over the map holds an iterator, and the loop thread changes the map under it.  An `erase`
takes its node out of those to come; if the iterator is at that node it is invalid.  An `insert` puts
its node before or behind the iterator, or rehashes the table, which makes the iterator invalid.
Where it is invalid what the loop does is undefined and not followed.
-/

namespace NetService

open ConnectMgr

/-- How often the read callback of a service calls `deleteConnect`. -/
def ConnectMgr.Service.deleteCalls : Service → ℕ
  | .tcp => 1
  | .ws => 2

/-- Where the loop thread is. -/
inductive LoopAt
  | idle
  /-- in `doAccept`, before `NewConnect` -/
  | accepting
  /-- in `doAccept`, behind `NewConnect` -/
  | created (conn : ℕ)
  /-- in `doAccept`, behind `event_add` -/
  | added (conn : ℕ)
  /-- in a read callback -/
  | reading (conn : ℕ)
  /-- in a read callback whose read has failed, with calls of `deleteConnect` to make -/
  | failed (conn calls : ℕ)
  | exited

/-- The connection the loop thread is working on. -/
def LoopAt.conn? : LoopAt → Option ℕ
  | .created conn | .added conn | .reading conn | .failed conn _ => some conn
  | .idle | .accepting | .exited => none

/-- Where the calling thread is in `OnStop`. -/
inductive CallerAt
  | running
  /-- behind `event_free(_ev)` -/
  | unlistened
  /-- in the loop over the map, with the nodes from the iterator on -/
  | walking (rest : List UInt32)
  /-- in the loop over the map behind its body, with the iterator's node and those behind it -/
  | visited (connId : UInt32) (rest : List UInt32)
  /-- in the loop over the map, with an invalid iterator -/
  | dangling
  | cleared
  /-- behind `event_base_loopexit` -/
  | exitAsked
  | joined

namespace CallerAt

/-- The nodes that the loop over the map has to come to. -/
def rest? : CallerAt → Option (List UInt32)
  | .walking rest | .visited _ rest => some rest
  | _ => none

/-- The node that the iterator is at. -/
def at? : CallerAt → Option UInt32
  | .walking (connId :: _) | .visited connId _ => some connId
  | _ => none

end CallerAt

/-- The service. -/
structure Server where
  mgr : ConnectMgr
  listening : Bool
  /-- the connections whose read event can start a callback -/
  armed : ℕ → Bool
  /-- the connections with an `_ev` -/
  evSet : ℕ → Bool
  loop : LoopAt
  stop : CallerAt
  stale : List ℕ

namespace Server

/-- The service when the loop starts. -/
def new (uniqueId : UInt32) : Server where
  mgr := .new uniqueId
  listening := true
  armed _ := false
  evSet _ := false
  loop := .idle
  stop := .running
  stale := []

/-- A step of the loop thread on a connection. -/
def touch (s : Server) (conn : ℕ) : Server :=
  if conn ∈ s.mgr.deleted then { s with stale := s.stale ++ [conn] } else s

/-- The destructor of a connection: `event_free(_ev)`. -/
def destroyed (s : Server) (conn : ℕ) : ℕ → Bool :=
  if s.evSet conn then Function.update s.armed conn false else s.armed

/-- Where `insert` puts a new node. -/
inductive Placed
  /-- before the iterator -/
  | passed
  /-- behind the iterator's node and `i` more -/
  | ahead (i : ℕ)
  /-- anywhere, in a table that is rehashed -/
  | rehashed

/-- `OnStop` when a node has been inserted.  There is nothing behind an iterator at the end. -/
def inserted (stop : CallerAt) (connId : UInt32) (placed : Placed) : CallerAt :=
  match stop, placed with
  | .walking (next :: rest), .ahead i => .walking (next :: rest.insertIdx i connId)
  | .visited next rest, .ahead i => .visited next (rest.insertIdx i connId)
  | .walking _, .rehashed | .visited _ _, .rehashed => .dangling
  | stop, _ => stop

/-- `OnStop` when the node of `connId` is erased. -/
def erased (stop : CallerAt) (connId : UInt32) : CallerAt :=
  if stop.at? = some connId then .dangling
  else match stop with
    | .walking rest => .walking (rest.erase connId)
    | .visited next rest => .visited next (rest.erase connId)
    | stop => stop

/-- The connection in an entry. -/
def entry? (s : Server) (connId : UInt32) : Option ℕ := (s.mgr.connectMgr.lookup connId).join

inductive Event
  | accept
  /-- `evutil_make_socket_nonblocking` fails -/
  | acceptFails
  | newConnect (placed : Placed)
  | eventAdd
  | setEv
  | readCb (conn : ℕ)
  | readOk
  | readFails
  | deleteConnect
  | delete
  | exit
  | freeListen
  | walkBegin (order : List UInt32)
  | deleteEntry
  | next
  | clear
  | loopexit
  | join

/-- One step of one of the threads. -/
inductive Step (svc : Service) (s : Server) : Event → Server → Prop
  -- `doAccept`
  | accept (loop : s.loop = .idle) (listening : s.listening = true) :
      Step svc s .accept { s with loop := .accepting }
  | acceptFails (loop : s.loop = .accepting) : Step svc s .acceptFails { s with loop := .idle }
  | newConnect (loop : s.loop = .accepting) (placed : Placed) :
      Step svc s (.newConnect placed) { s with
        mgr := s.mgr.newConnect
        loop := .created s.mgr.connonIds.length
        -- `insert` makes no node for an id that has an entry
        stop :=
          if s.mgr.uniqueId ∈ s.mgr.connectMgr then s.stop
          else inserted s.stop s.mgr.uniqueId placed }
  | eventAdd {conn : ℕ} (loop : s.loop = .created conn) :
      Step svc s .eventAdd { s with
        loop := .added conn
        armed := Function.update s.armed conn true }
  | setEv {conn : ℕ} (loop : s.loop = .added conn) :
      Step svc s .setEv { s.touch conn with
        loop := .idle
        evSet := Function.update s.evSet conn true }
  -- `client_read_cb` and `ws_client_read_cb`
  | readCb {conn : ℕ} (loop : s.loop = .idle) (armed : s.armed conn = true) :
      Step svc s (.readCb conn) { s.touch conn with loop := .reading conn }
  | readOk {conn : ℕ} (loop : s.loop = .reading conn) :
      Step svc s .readOk { s.touch conn with loop := .idle }
  | readFails {conn : ℕ} (loop : s.loop = .reading conn) :
      Step svc s .readFails { s.touch conn with loop := .failed conn svc.deleteCalls }
  | deleteConnect {conn calls : ℕ} (loop : s.loop = .failed conn (calls + 1)) :
      Step svc s .deleteConnect { s.touch conn with
        mgr := s.mgr.deleteConnect (s.mgr.getConnonId conn)
        loop := .failed conn calls
        stop := erased s.stop (s.mgr.getConnonId conn) }
  | delete {conn : ℕ} (loop : s.loop = .failed conn 0) :
      Step svc s .delete { s.touch conn with
        mgr := s.mgr.delete conn
        armed := s.destroyed conn
        loop := .idle }
  | exit (loop : s.loop = .idle) (stop : s.stop = .exitAsked) :
      Step svc s .exit { s with loop := .exited }
  -- `OnStop`
  | freeListen (stop : s.stop = .running) :
      Step svc s .freeListen { s with listening := false, stop := .unlistened }
  | walkBegin {order : List UInt32} (stop : s.stop = .unlistened)
      (entries : order.Perm s.mgr.connectMgr.keys) :
      Step svc s (.walkBegin order) { s with stop := .walking order }
  | deleteEntry {connId : UInt32} {rest : List UInt32} (stop : s.stop = .walking (connId :: rest)) :
      Step svc s .deleteEntry { s with
        mgr := s.mgr.deleteEntry connId
        armed := ((s.entry? connId).map s.destroyed).getD s.armed
        stop := .visited connId rest }
  | next {connId : UInt32} {rest : List UInt32} (stop : s.stop = .visited connId rest) :
      Step svc s .next { s with stop := .walking rest }
  | clear (stop : s.stop = .walking []) :
      Step svc s .clear { s with mgr := s.mgr.clear, stop := .cleared }
  | loopexit (stop : s.stop = .cleared) : Step svc s .loopexit { s with stop := .exitAsked }
  | join (stop : s.stop = .exitAsked) (loop : s.loop = .exited) :
      Step svc s .join { s with stop := .joined }

/-- Any interleaving of the two threads, with the counter of the manager at any value. -/
def system (svc : Service) (uniqueId : UInt32) : LTS Server Event where
  init s := s = new uniqueId
  step := Step svc

/-! ### What is asked of it -/

/-- No connection is deleted twice, no step of the loop thread is on one that has been deleted, the
iterator of `OnStop` is never invalid, and after the join all connections have been deleted. -/
structure Safe (s : Server) : Prop where
  once : s.mgr.deleted.Nodup
  fresh : s.stale = []
  valid : s.stop ≠ .dangling
  all : s.stop = .joined → ∀ conn < s.mgr.connonIds.length, conn ∈ s.mgr.deleted

/-- `OnStop` does not come to a connection that the loop thread is working on, no callback erases the
node that the iterator of `OnStop` is at, and `NewConnect` gives out an id without an entry, before the
loop over the map or, without a rehash, where that loop comes to the new node. -/
def Ok (s : Server) : Event → Prop
  | .newConnect placed => s.mgr.uniqueId ∉ s.mgr.connectMgr ∧
      (s.stop = .running ∨ s.stop = .unlistened ∨ ∃ connId rest i, placed = .ahead i ∧
        i ≤ rest.length ∧ (s.stop = .walking (connId :: rest) ∨ s.stop = .visited connId rest))
  | .deleteConnect => ∀ conn calls, s.loop = .failed conn calls →
      s.stop.at? ≠ some (s.mgr.getConnonId conn)
  | .deleteEntry => ∀ connId rest conn, s.stop = .walking (connId :: rest) →
      s.entry? connId = some conn → s.loop.conn? ≠ some conn
  | _ => True

/-! ### The invariant -/

/-- The service between two steps. -/
structure Inv (svc : Service) (s : Server) : Prop where
  once : s.mgr.deleted.Nodup
  fresh : s.stale = []
  created : ∀ p ∈ s.mgr.deleted, p < s.mgr.connonIds.length
  /-- an entry is of a live connection -/
  entries : ∀ connId p, s.entry? connId = some p → s.mgr.Live p ∧ s.mgr.getConnonId p = connId
  /-- a live connection has its entry, unless its callback has erased it -/
  registered : ∀ p, s.mgr.Live p →
    s.entry? (s.mgr.getConnonId p) = some p ∨ ∃ calls, s.loop = .failed p calls
  working : ∀ p, s.loop.conn? = some p → s.mgr.Live p
  /-- the first `deleteConnect` erases the entry of the connection -/
  mine : ∀ p calls, s.loop = .failed p calls → ∀ q, s.entry? (s.mgr.getConnonId p) = some q →
    q = p ∧ calls = svc.deleteCalls
  armed : ∀ p, s.armed p = true → s.mgr.Live p
  /-- the destructor finds the event -/
  evSet : ∀ p, s.mgr.Live p → s.evSet p = true ∨ s.loop = .created p ∨ s.loop = .added p
  valid : s.stop ≠ .dangling
  /-- the loop over the map comes to every entry -/
  walk : ∀ rest, s.stop.rest? = some rest → ∀ connId p, s.entry? connId = some p → connId ∈ rest
  cleared : s.stop = .cleared ∨ s.stop = .exitAsked ∨ s.stop = .joined →
    ∀ connId, s.entry? connId = none
  exited : s.stop = .joined → s.loop = .exited

variable {svc : Service} {s t : Server}

theorem Inv.safe (h : Inv svc s) : Safe s where
  once := h.once
  fresh := h.fresh
  valid := h.valid
  all := by
    intro hstop p hp
    by_contra hnot
    rcases h.registered p ⟨hp, hnot⟩ with hentry | ⟨calls, hloop⟩
    · rw [h.cleared (.inr (.inr hstop))] at hentry
      cases hentry
    · rw [h.exited hstop] at hloop
      cases hloop

theorem new_inv (svc : Service) (uniqueId : UInt32) : Inv svc (new uniqueId) := by
  have hlive : ∀ p, ¬ (new uniqueId).mgr.Live p := fun p hp => absurd hp.1 (Nat.not_lt_zero p)
  refine ⟨List.nodup_nil, rfl, fun _ hp => absurd hp List.not_mem_nil, ?_, fun p hp => ?_, nofun,
    nofun, nofun, fun p hp => ?_, nofun, nofun, fun _ _ => rfl, nofun⟩
  · intro connId p hentry
    cases hentry
  · exact absurd hp (hlive p)
  · exact absurd hp (hlive p)

/-! ### Steps of the loop thread -/

theorem touch_live {conn : ℕ} (h : s.mgr.Live conn) : s.touch conn = s := if_neg h.2

/-- The loop thread is in `OnStop`'s way as long as it has not exited. -/
theorem Inv.not_joined (h : Inv svc s) (hloop : s.loop ≠ .exited) : s.stop ≠ .joined :=
  fun hstop => hloop (h.exited hstop)

/-- Outside the acceptance of a connection its event has been stored. -/
theorem Inv.evSet_of_live (h : Inv svc s) {p : ℕ} (hp : s.mgr.Live p)
    (hcreated : s.loop ≠ .created p) (hadded : s.loop ≠ .added p) : s.evSet p = true :=
  (h.evSet p hp).resolve_right fun hloop => hloop.elim hcreated hadded

/-- Unless its callback has failed a live connection has its entry. -/
theorem Inv.entry_of_live (h : Inv svc s) {p : ℕ} (hp : s.mgr.Live p)
    (hfailed : ∀ calls, s.loop ≠ .failed p calls) : s.entry? (s.mgr.getConnonId p) = some p :=
  (h.registered p hp).resolve_right fun ⟨calls, hloop⟩ => hfailed calls hloop

/-- The loop over the map is not over while it goes on. -/
theorem not_cleared_of_rest? {stop : CallerAt} {rest : List UInt32} (h : stop.rest? = some rest) :
    ¬ (stop = .cleared ∨ stop = .exitAsked ∨ stop = .joined) := by
  rintro (rfl | rfl | rfl) <;> cases h

/-- An entry that is left when the one of `connId` has been taken away. -/
theorem left_of_erased {t : Server} {connId connId' : UInt32} {p : ℕ}
    (hentry : ∀ x, t.entry? x = if x = connId then none else s.entry? x)
    (he : t.entry? connId' = some p) : s.entry? connId' = some p ∧ connId' ≠ connId := by
  rw [hentry] at he
  by_cases hid : connId' = connId
  · rw [if_pos hid] at he
    cases he
  · rw [if_neg hid] at he
    exact ⟨he, hid⟩

/-- Nothing but the place of the loop thread has changed. -/
theorem Inv.withLoop (h : Inv svc s) {loop : LoopAt} (hrun : s.loop ≠ .exited)
    (hworking : ∀ p, loop.conn? = some p → s.mgr.Live p)
    (hfailed : ∀ p calls, s.loop ≠ .failed p calls)
    (haccept : ∀ p, s.loop ≠ .created p ∧ s.loop ≠ .added p)
    (hmine : ∀ p calls, loop = .failed p calls → calls = svc.deleteCalls) :
    Inv svc { s with loop := loop } := by
  have hentry : ∀ p, s.mgr.Live p → s.entry? (s.mgr.getConnonId p) = some p := fun p hp =>
    h.entry_of_live hp (hfailed p)
  have hset : ∀ p, s.mgr.Live p → s.evSet p = true := fun p hp =>
    h.evSet_of_live hp (haccept p).1 (haccept p).2
  refine ⟨h.once, h.fresh, h.created, h.entries, fun p hp => .inl (hentry p hp), hworking, ?_,
    h.armed, fun p hp => .inl (hset p hp), h.valid, h.walk, h.cleared,
    fun hstop => absurd hstop (h.not_joined hrun)⟩
  intro p calls hloop q hq
  have hloop' : loop = .failed p calls := hloop
  have hp : s.mgr.Live p := hworking p (by rw [hloop']; rfl)
  have hq' : s.entry? (s.mgr.getConnonId p) = some q := hq
  rw [hentry p hp] at hq'
  exact ⟨(Option.some.inj hq').symm, hmine p calls hloop'⟩

theorem Inv.eventAdd (h : Inv svc s) {conn : ℕ} (hloop : s.loop = .created conn) :
    Inv svc { s with loop := .added conn, armed := Function.update s.armed conn true } := by
  have hconn : s.mgr.Live conn := h.working conn (by rw [hloop]; rfl)
  refine ⟨h.once, h.fresh, h.created, h.entries, fun p hp => .inl ?_, ?_, nofun, fun p hp => ?_,
    fun p hp => ?_, h.valid, h.walk, h.cleared, fun hstop => ?_⟩
  · exact h.entry_of_live hp (by rw [hloop]; nofun)
  · rintro p ⟨⟩
    exact hconn
  · by_cases hne : p = conn
    · exact hne ▸ hconn
    · have harmed : Function.update s.armed conn true p = true := hp
      rw [Function.update_of_ne hne] at harmed
      exact h.armed p harmed
  · rcases h.evSet p hp with hset | hset | hset
    · exact .inl hset
    · rw [hloop] at hset
      cases hset
      exact .inr (.inr rfl)
    · rw [hloop] at hset
      cases hset
  · exact absurd hstop (h.not_joined (by rw [hloop]; nofun))

theorem Inv.setEv (h : Inv svc s) {conn : ℕ} (hloop : s.loop = .added conn) :
    Inv svc { s with loop := .idle, evSet := Function.update s.evSet conn true } := by
  refine ⟨h.once, h.fresh, h.created, h.entries, fun p hp => .inl ?_, nofun, nofun, h.armed,
    fun p hp => .inl ?_, h.valid, h.walk, h.cleared, fun hstop => ?_⟩
  · exact h.entry_of_live hp (by rw [hloop]; nofun)
  · show Function.update s.evSet conn true p = true
    by_cases hne : p = conn
    · rw [hne, Function.update_self]
    · rw [Function.update_of_ne hne]
      rcases h.evSet p hp with hset | hset | hset
      · exact hset
      · rw [hloop] at hset
        cases hset
      · rw [hloop] at hset
        cases hset
        exact absurd rfl hne
  · exact absurd hstop (h.not_joined (by rw [hloop]; nofun))

theorem newConnect_entry? (hnew : s.mgr.uniqueId ∉ s.mgr.connectMgr) (t : Server)
    (ht : t.mgr = s.mgr.newConnect) (connId : UInt32) :
    t.entry? connId =
      if connId = s.mgr.uniqueId then some s.mgr.connonIds.length else s.entry? connId := by
  have hmap : s.mgr.newConnect.connectMgr =
      s.mgr.connectMgr.insert s.mgr.uniqueId (some s.mgr.connonIds.length) := if_neg hnew
  unfold entry?
  rw [ht, hmap]
  by_cases hid : connId = s.mgr.uniqueId
  · rw [if_pos hid, hid, AList.lookup_insert]
    rfl
  · rw [if_neg hid, AList.lookup_insert_ne hid]

/-- A new node before the loop over the map, or where the loop comes to it. -/
theorem inserted_spec {stop : CallerAt} {connId : UInt32} {placed : Placed}
    (h : stop = .running ∨ stop = .unlistened ∨ ∃ next rest i, placed = .ahead i ∧
      i ≤ rest.length ∧ (stop = .walking (next :: rest) ∨ stop = .visited next rest)) :
    inserted stop connId placed ≠ .dangling ∧
    (∀ rest, (inserted stop connId placed).rest? = some rest →
      ∃ rest', stop.rest? = some rest' ∧ ∀ x, x = connId ∨ x ∈ rest' → x ∈ rest) ∧
    ¬ (inserted stop connId placed = .cleared ∨ inserted stop connId placed = .exitAsked ∨
      inserted stop connId placed = .joined) := by
  rcases h with rfl | rfl | ⟨next, rest, i, rfl, hi, rfl | rfl⟩
  · cases placed <;> exact ⟨nofun, nofun, by rintro (hc | hc | hc) <;> cases hc⟩
  · cases placed <;> exact ⟨nofun, nofun, by rintro (hc | hc | hc) <;> cases hc⟩
  · refine ⟨nofun, ?_, not_cleared_of_rest? rfl⟩
    rintro _ ⟨⟩
    refine ⟨_, rfl, fun x hx => ?_⟩
    rw [List.mem_cons, or_left_comm] at hx
    exact List.mem_cons.2 (hx.imp_right (List.mem_insertIdx hi).2)
  · refine ⟨nofun, ?_, not_cleared_of_rest? rfl⟩
    rintro _ ⟨⟩
    exact ⟨_, rfl, fun x hx => (List.mem_insertIdx hi).2 hx⟩

/-- A node is erased that the iterator is not at. -/
theorem erased_spec {stop : CallerAt} {connId : UInt32} (hat : stop.at? ≠ some connId)
    (hvalid : stop ≠ .dangling) :
    erased stop connId ≠ .dangling ∧
    (∀ rest, (erased stop connId).rest? = some rest →
      ∃ rest', stop.rest? = some rest' ∧ ∀ x ∈ rest', x ≠ connId → x ∈ rest) ∧
    ((erased stop connId).rest? = none → erased stop connId = stop) := by
  unfold erased
  rw [if_neg hat]
  have hkept : ∀ (rest : List UInt32) x, x ∈ rest → x ≠ connId → x ∈ rest.erase connId :=
    fun rest x hx hne => (List.mem_erase_of_ne hne).2 hx
  cases stop with
  | walking rest | visited next rest =>
    refine ⟨nofun, ?_, nofun⟩
    rintro _ ⟨⟩
    exact ⟨rest, rfl, hkept rest⟩
  | dangling => exact absurd rfl hvalid
  | running | unlistened | cleared | exitAsked | joined =>
    exact ⟨nofun, nofun, fun _ => rfl⟩

theorem Inv.newConnect (h : Inv svc s) (hloop : s.loop = .accepting) {placed : Placed}
    (hok : Ok s (.newConnect placed)) :
    Inv svc { s with
      mgr := s.mgr.newConnect
      loop := .created s.mgr.connonIds.length
      stop :=
        if s.mgr.uniqueId ∈ s.mgr.connectMgr then s.stop
        else inserted s.stop s.mgr.uniqueId placed } := by
  obtain ⟨hnew, hwhere⟩ := hok
  rw [if_neg hnew]
  obtain ⟨hvalid, hwalking, hbefore⟩ := @inserted_spec _ s.mgr.uniqueId _ hwhere
  obtain ⟨t, ht⟩ : ∃ t : Server, t = { s with
    mgr := s.mgr.newConnect
    loop := .created s.mgr.connonIds.length
    stop := inserted s.stop s.mgr.uniqueId placed } := ⟨_, rfl⟩
  have hentry := newConnect_entry? hnew t (by rw [ht])
  have hlive := fun p => newConnect_live_iff h.created (p := p)
  have hids : ∀ p, s.mgr.Live p → s.mgr.newConnect.getConnonId p = s.mgr.getConnonId p :=
    fun p hp => newConnect_getConnonId s.mgr hp.1
  have hidNew := newConnect_getConnonId_new s.mgr
  have hother : ∀ connId p, s.entry? connId = some p → connId ≠ s.mgr.uniqueId := by
    rintro connId p he rfl
    unfold entry? at he
    rw [AList.lookup_eq_none.2 hnew] at he
    cases he
  have hidle : ∀ p, s.mgr.Live p → s.evSet p = true ∧
      s.entry? (s.mgr.getConnonId p) = some p := by
    intro p hp
    constructor
    · exact h.evSet_of_live hp (by rw [hloop]; nofun) (by rw [hloop]; nofun)
    · exact h.entry_of_live hp (by rw [hloop]; nofun)
  -- the fields of the new state, by the equations of `newConnect`
  have hmgr : t.mgr = s.mgr.newConnect := by rw [ht]
  have hloop' : t.loop = .created s.mgr.connonIds.length := by rw [ht]
  have hstop' : t.stop = inserted s.stop s.mgr.uniqueId placed := by rw [ht]
  have hlen : s.mgr.newConnect.connonIds.length = s.mgr.connonIds.length + 1 := List.length_append
  rw [← ht]
  constructor
  case once =>
    rw [hmgr]
    exact h.once
  case fresh =>
    rw [ht]
    exact h.fresh
  case created =>
    intro p hp
    rw [hmgr] at hp ⊢
    have := h.created p hp
    omega
  case entries =>
    intro connId p he
    rw [hentry] at he
    rw [hmgr]
    by_cases hid : connId = s.mgr.uniqueId
    · rw [if_pos hid] at he
      cases he
      exact ⟨(hlive _).2 (.inr rfl), hidNew.trans hid.symm⟩
    · rw [if_neg hid] at he
      obtain ⟨hp, heq⟩ := h.entries connId p he
      exact ⟨(hlive p).2 (.inl hp), (hids p hp).trans heq⟩
  case registered =>
    intro p hp
    left
    rw [hmgr] at hp ⊢
    rw [hentry]
    rcases (hlive p).1 hp with hp | rfl
    · have he := (hidle p hp).2
      rw [hids p hp, if_neg (hother _ p he), he]
    · rw [hidNew, if_pos rfl]
  case working =>
    intro p hp
    rw [hloop'] at hp
    cases hp
    rw [hmgr]
    exact (hlive _).2 (.inr rfl)
  case mine =>
    intro p calls hfailed
    rw [hloop'] at hfailed
    cases hfailed
  case armed =>
    intro p hp
    rw [ht] at hp
    rw [hmgr]
    exact (hlive p).2 (.inl (h.armed p hp))
  case evSet =>
    intro p hp
    rw [hmgr] at hp
    rw [hloop', ht]
    rcases (hlive p).1 hp with hp | rfl
    · exact .inl (hidle p hp).1
    · exact .inr (.inl rfl)
  case valid =>
    rw [hstop']
    exact hvalid
  case walk =>
    intro rest hrest connId p he
    rw [hentry] at he
    rw [hstop'] at hrest
    obtain ⟨rest', hs, hrest'⟩ := hwalking rest hrest
    refine hrest' connId ?_
    by_cases hid : connId = s.mgr.uniqueId
    · exact .inl hid
    · rw [if_neg hid] at he
      exact .inr (h.walk rest' hs connId p he)
  case cleared =>
    intro hcleared
    rw [hstop'] at hcleared
    exact absurd hcleared hbefore
  case exited =>
    intro hjoined
    rw [hstop'] at hjoined
    exact absurd (.inr (.inr hjoined)) hbefore

theorem deleteConnect_entry? {connId : UInt32} (t : Server)
    (ht : t.mgr = s.mgr.deleteConnect connId) (connId' : UInt32) :
    t.entry? connId' = if connId' = connId then none else s.entry? connId' := by
  unfold entry?
  rw [ht]
  show ((s.mgr.connectMgr.erase connId).lookup connId').join = _
  by_cases hid : connId' = connId
  · rw [if_pos hid, hid, AList.lookup_erase]
    rfl
  · rw [if_neg hid, AList.lookup_erase_ne hid]

theorem Inv.deleteConnect (h : Inv svc s) {conn calls : ℕ}
    (hloop : s.loop = .failed conn (calls + 1)) (hok : Ok s .deleteConnect) :
    Inv svc { s with
      mgr := s.mgr.deleteConnect (s.mgr.getConnonId conn)
      loop := .failed conn calls
      stop := erased s.stop (s.mgr.getConnonId conn) } := by
  obtain ⟨hvalid, hwalking, hkept⟩ := erased_spec (hok conn _ hloop) h.valid
  obtain ⟨t, ht⟩ : ∃ t : Server, t = { s with
    mgr := s.mgr.deleteConnect (s.mgr.getConnonId conn)
    loop := .failed conn calls
    stop := erased s.stop (s.mgr.getConnonId conn) } := ⟨_, rfl⟩
  have hconn : s.mgr.Live conn := h.working conn (by rw [hloop]; rfl)
  have hentry : ∀ connId, t.entry? connId =
      if connId = s.mgr.getConnonId conn then none else s.entry? connId :=
    deleteConnect_entry? t (by rw [ht])
  have hmgr : t.mgr = s.mgr.deleteConnect (s.mgr.getConnonId conn) := by rw [ht]
  have hlive : ∀ p, t.mgr.Live p ↔ s.mgr.Live p := fun p => by rw [hmgr]; exact Iff.rfl
  have hids : ∀ p, t.mgr.getConnonId p = s.mgr.getConnonId p := fun p => by rw [hmgr]; rfl
  have hloop' : t.loop = .failed conn calls := by rw [ht]
  have hstop' : t.stop = erased s.stop (s.mgr.getConnonId conn) := by rw [ht]
  -- behind the loop over the map there is no iterator
  have hsame : t.stop = .cleared ∨ t.stop = .exitAsked ∨ t.stop = .joined → t.stop = s.stop := by
    intro hcleared
    rw [hstop'] at hcleared ⊢
    refine hkept ?_
    rcases hcleared with hc | hc | hc <;> rw [hc] <;> rfl
  rw [← ht]
  constructor
  case once =>
    rw [hmgr]
    exact h.once
  case fresh =>
    rw [ht]
    exact h.fresh
  case created =>
    intro p hp
    rw [hmgr] at hp ⊢
    exact h.created p hp
  case entries =>
    intro connId p he
    rw [hlive, hids]
    exact h.entries connId p (left_of_erased hentry he).1
  case registered =>
    intro p hp
    rw [hlive] at hp
    rw [hids, hentry, hloop']
    -- only `conn` has lost its entry, and its callback is at this very place
    by_cases hpc : p = conn
    · exact .inr ⟨calls, by rw [hpc]⟩
    · refine .inl ?_
      rcases h.registered p hp with he | ⟨calls', hfailed⟩
      · rw [if_neg, he]
        intro hid
        rw [hid] at he
        exact hpc (h.mine conn _ hloop p he).1
      · rw [hloop] at hfailed
        cases hfailed
        exact absurd rfl hpc
  case working =>
    intro p hp
    rw [hloop'] at hp
    cases hp
    exact (hlive _).2 hconn
  case mine =>
    intro p calls' hfailed q hq
    rw [hloop'] at hfailed
    cases hfailed
    rw [hids] at hq
    exact absurd rfl (left_of_erased hentry hq).2
  case armed =>
    intro p hp
    rw [ht] at hp
    exact (hlive p).2 (h.armed p hp)
  case evSet =>
    intro p hp
    left
    rw [hlive] at hp
    rw [ht]
    exact h.evSet_of_live hp (by rw [hloop]; nofun) (by rw [hloop]; nofun)
  case valid =>
    rw [hstop']
    exact hvalid
  case walk =>
    intro rest hrest connId p he
    rw [hstop'] at hrest
    obtain ⟨rest', hs, hrest'⟩ := hwalking rest hrest
    obtain ⟨he₀, hne⟩ := left_of_erased hentry he
    exact hrest' connId (h.walk rest' hs connId p he₀) hne
  case cleared =>
    intro hcleared connId
    rw [hsame hcleared] at hcleared
    rw [hentry, h.cleared hcleared, ite_self]
  case exited =>
    intro hjoined
    rw [hsame (.inr (.inr hjoined))] at hjoined
    exact absurd hjoined (h.not_joined (by rw [hloop]; nofun))

theorem delete_live_iff {conn p : ℕ} : (s.mgr.delete conn).Live p ↔ s.mgr.Live p ∧ p ≠ conn := by
  show p < s.mgr.connonIds.length ∧ p ∉ s.mgr.deleted ++ [conn] ↔ _
  rw [List.mem_append, List.mem_singleton, not_or, ← and_assoc]
  exact Iff.rfl

/-- The history of `delete` with one more. -/
theorem Inv.delete_once (h : Inv svc s) {conn : ℕ} (hconn : s.mgr.Live conn) :
    (s.mgr.deleted ++ [conn]).Nodup ∧ ∀ p ∈ s.mgr.deleted ++ [conn], p < s.mgr.connonIds.length := by
  constructor
  · refine h.once.append (List.nodup_singleton conn) fun p hp hp' => ?_
    rw [List.mem_singleton.1 hp'] at hp
    exact hconn.2 hp
  · intro p hp
    rcases List.mem_append.1 hp with hp | hp
    · exact h.created p hp
    · rw [List.mem_singleton.1 hp]
      exact hconn.1

/-- The destructor takes away the event of the connection. -/
theorem Inv.destroyed_live (h : Inv svc s) {conn p : ℕ} (hset : s.evSet conn = true)
    (hp : s.destroyed conn p = true) : s.mgr.Live p ∧ p ≠ conn := by
  unfold destroyed at hp
  rw [if_pos hset] at hp
  by_cases hpc : p = conn
  · rw [hpc, Function.update_self] at hp
    cases hp
  · rw [Function.update_of_ne hpc] at hp
    exact ⟨h.armed p hp, hpc⟩

theorem Inv.delete (h : Inv svc s) {conn : ℕ} (hloop : s.loop = .failed conn 0) :
    Inv svc { s with
      mgr := s.mgr.delete conn
      armed := s.destroyed conn
      loop := .idle } := by
  have hconn : s.mgr.Live conn := h.working conn (by rw [hloop]; rfl)
  obtain ⟨honce, hcreated⟩ := h.delete_once hconn
  have hset : ∀ p, s.mgr.Live p → s.evSet p = true := fun p hp =>
    h.evSet_of_live hp (by rw [hloop]; nofun) (by rw [hloop]; nofun)
  -- the entry has been erased
  have hnone : s.entry? (s.mgr.getConnonId conn) = none := by
    cases he : s.entry? (s.mgr.getConnonId conn) with
    | none => rfl
    | some q =>
      have hcalls := (h.mine conn 0 hloop q he).2
      cases svc <;> exact absurd hcalls (by decide)
  refine ⟨honce, h.fresh, hcreated, fun connId p he => ?_, fun p hp => .inl ?_, nofun, nofun,
    fun p hp => delete_live_iff.2 (h.destroyed_live (hset conn hconn) hp),
    fun p hp => .inl (hset p (delete_live_iff.1 hp).1), h.valid, h.walk, h.cleared,
    fun hstop => ?_⟩
  · obtain ⟨hp, hid⟩ := h.entries connId p he
    refine ⟨delete_live_iff.2 ⟨hp, ?_⟩, hid⟩
    rintro rfl
    have he' : s.entry? connId = some p := he
    rw [← hid, hnone] at he'
    cases he'
  · obtain ⟨hp, hpc⟩ := delete_live_iff.1 hp
    refine h.entry_of_live hp fun calls hfailed => ?_
    rw [hloop] at hfailed
    cases hfailed
    exact hpc rfl
  · exact absurd hstop (h.not_joined (by rw [hloop]; nofun))

/-! ### Steps of the calling thread -/

theorem deleteEntry_entry? {connId : UInt32} (t : Server) (ht : t.mgr = s.mgr.deleteEntry connId)
    (connId' : UInt32) : t.entry? connId' = if connId' = connId then none else s.entry? connId' := by
  unfold entry?
  rw [ht]
  by_cases hid : connId' = connId
  · rw [if_pos hid, hid]
    unfold ConnectMgr.deleteEntry
    cases hlookup : s.mgr.connectMgr.lookup connId with
    | none =>
      simp only [hlookup]
      rfl
    | some v =>
      cases v with
      | none =>
        simp only [hlookup]
        rfl
      | some conn =>
        show ((s.mgr.connectMgr.insert connId none).lookup connId).join = none
        rw [AList.lookup_insert]
        rfl
  · rw [if_neg hid, deleteEntry_lookup s.mgr hid]

theorem deleteEntry_of_none {connId : UInt32} (he : s.entry? connId = none) :
    s.mgr.deleteEntry connId = s.mgr := by
  unfold entry? at he
  unfold ConnectMgr.deleteEntry
  cases hlookup : s.mgr.connectMgr.lookup connId with
  | none => rfl
  | some v =>
    cases v with
    | none => rfl
    | some conn =>
      rw [hlookup] at he
      cases he

theorem deleteEntry_of_some {connId : UInt32} {conn : ℕ} (he : s.entry? connId = some conn) :
    s.mgr.deleteEntry connId =
      { s.mgr.delete conn with connectMgr := s.mgr.connectMgr.insert connId none } := by
  unfold entry? at he
  unfold ConnectMgr.deleteEntry
  rw [Option.join_eq_some_iff.1 he]

theorem Inv.deleteEntry (h : Inv svc s) {connId : UInt32} {rest : List UInt32}
    (hstop : s.stop = .walking (connId :: rest)) (hok : Ok s .deleteEntry) :
    Inv svc { s with
      mgr := s.mgr.deleteEntry connId
      armed := ((s.entry? connId).map s.destroyed).getD s.armed
      stop := .visited connId rest } := by
  have hrest₀ : s.stop.rest? = some (connId :: rest) := by rw [hstop]; rfl
  cases he : s.entry? connId with
  | none =>
    rw [deleteEntry_of_none he]
    refine ⟨h.once, h.fresh, h.created, h.entries, h.registered, h.working, h.mine, h.armed,
      h.evSet, nofun, ?_, fun hcleared => absurd hcleared (not_cleared_of_rest? rfl), nofun⟩
    rintro rest' ⟨⟩ connId' p he'
    refine (List.mem_cons.1 (h.walk _ hrest₀ connId' p he')).resolve_left ?_
    rintro rfl
    have hsome : s.entry? connId' = some p := he'
    rw [he] at hsome
    cases hsome
  | some conn =>
    obtain ⟨hconn, hid⟩ := h.entries connId conn he
    -- the walk is not at the connection whose callback runs, so its event has been set
    have hother : s.loop.conn? ≠ some conn := hok connId rest conn hstop he
    obtain ⟨honce, hcreated⟩ := h.delete_once hconn
    have hset : s.evSet conn = true :=
      h.evSet_of_live hconn (fun hloop => hother (by rw [hloop]; rfl))
        fun hloop => hother (by rw [hloop]; rfl)
    obtain ⟨t, ht⟩ : ∃ t : Server, t = { s with
      mgr := s.mgr.deleteEntry connId
      armed := s.destroyed conn
      stop := .visited connId rest } := ⟨_, rfl⟩
    have hmgr : t.mgr = { s.mgr.delete conn with
        connectMgr := s.mgr.connectMgr.insert connId none } := by
      rw [ht]
      exact deleteEntry_of_some he
    have hlive : ∀ p, t.mgr.Live p ↔ s.mgr.Live p ∧ p ≠ conn := fun p => by
      rw [hmgr]
      exact delete_live_iff
    have hids : ∀ p, t.mgr.getConnonId p = s.mgr.getConnonId p := fun p => by rw [hmgr]; rfl
    have hentry : ∀ connId', t.entry? connId' =
        if connId' = connId then none else s.entry? connId' :=
      deleteEntry_entry? t (by rw [ht])
    show Inv svc { s with
      mgr := s.mgr.deleteEntry connId
      armed := s.destroyed conn
      stop := .visited connId rest }
    rw [← ht]
    constructor
    case once =>
      rw [hmgr]
      exact honce
    case fresh =>
      rw [ht]
      exact h.fresh
    case created =>
      rw [hmgr]
      exact hcreated
    case entries =>
      intro connId' p he'
      obtain ⟨he₀, hne⟩ := left_of_erased hentry he'
      obtain ⟨hp, hidp⟩ := h.entries connId' p he₀
      refine ⟨(hlive p).2 ⟨hp, ?_⟩, (hids p).trans hidp⟩
      rintro rfl
      exact hne (hidp.symm.trans hid)
    case registered =>
      intro p hp
      obtain ⟨hp, hpc⟩ := (hlive p).1 hp
      rw [hids, hentry]
      rcases h.registered p hp with he' | hfailed
      · rw [if_neg, he']
        · exact .inl rfl
        · intro hidp
          rw [hidp, he] at he'
          exact hpc (Option.some.inj he').symm
      · rw [ht]
        exact .inr hfailed
    case working =>
      intro p hp
      rw [ht] at hp
      have hp' : s.loop.conn? = some p := hp
      refine (hlive p).2 ⟨h.working p hp', ?_⟩
      rintro rfl
      exact hother hp'
    case mine =>
      intro p calls hfailed q hq
      rw [ht] at hfailed
      rw [hids] at hq
      exact h.mine p calls hfailed q (left_of_erased hentry hq).1
    case armed =>
      intro p hp
      rw [ht] at hp
      exact (hlive p).2 (h.destroyed_live hset hp)
    case evSet =>
      intro p hp
      rw [ht]
      exact h.evSet p ((hlive p).1 hp).1
    case valid =>
      rw [ht]
      nofun
    case walk =>
      intro rest' hrest connId' p he'
      rw [ht] at hrest
      cases hrest
      obtain ⟨he₀, hne⟩ := left_of_erased hentry he'
      exact (List.mem_cons.1 (h.walk _ hrest₀ connId' p he₀)).resolve_left hne
    case cleared =>
      intro hcleared
      rw [ht] at hcleared
      exact absurd hcleared (not_cleared_of_rest? rfl)
    case exited =>
      intro hjoined
      rw [ht] at hjoined
      cases hjoined

theorem Inv.clear (h : Inv svc s) (hstop : s.stop = .walking []) :
    Inv svc { s with mgr := s.mgr.clear, stop := .cleared } := by
  have hnone : ∀ connId p, s.entry? connId ≠ some p := fun connId p he =>
    absurd (h.walk [] (by rw [hstop]; rfl) connId p he) List.not_mem_nil
  refine ⟨h.once, h.fresh, h.created, fun connId p he => ?_, fun p hp => .inr ?_, h.working, ?_,
    h.armed, h.evSet, nofun, nofun, fun _ _ => rfl, nofun⟩
  · cases he
  · exact (h.registered p hp).resolve_left (hnone _ p)
  · rintro p calls hloop q ⟨⟩

/-- Nothing but the place of the calling thread has changed. -/
theorem Inv.withStop (h : Inv svc s) {listening : Bool} {stop : CallerAt}
    (hvalid : stop ≠ .dangling)
    (hwalk : ∀ rest, stop.rest? = some rest → ∀ connId p, s.entry? connId = some p → connId ∈ rest)
    (hcleared : stop = .cleared ∨ stop = .exitAsked ∨ stop = .joined →
      s.stop = .cleared ∨ s.stop = .exitAsked ∨ s.stop = .joined)
    (hjoined : stop = .joined → s.loop = .exited) :
    Inv svc { s with listening := listening, stop := stop } :=
  ⟨h.once, h.fresh, h.created, h.entries, h.registered, h.working, h.mine, h.armed, h.evSet,
    hvalid, hwalk, fun hc => h.cleared (hcleared hc), hjoined⟩

theorem Inv.walkBegin (h : Inv svc s) {order : List UInt32}
    (horder : order.Perm s.mgr.connectMgr.keys) : Inv svc { s with stop := .walking order } := by
  refine h.withStop nofun ?_ (fun hcleared => absurd hcleared (not_cleared_of_rest? rfl)) nofun
  rintro rest ⟨⟩ connId p he
  have hlookup := Option.join_eq_some_iff.1 he
  exact horder.mem_iff.2 (AList.mem_keys.1 (AList.lookup_isSome.1 (by rw [hlookup]; rfl)))

/-- `++it` -/
theorem Inv.next (h : Inv svc s) {connId : UInt32} {rest : List UInt32}
    (hstop : s.stop = .visited connId rest) : Inv svc { s with stop := .walking rest } := by
  refine h.withStop nofun ?_ (fun hcleared => absurd hcleared (not_cleared_of_rest? rfl)) nofun
  rintro _ ⟨⟩
  exact h.walk rest (by rw [hstop]; rfl)

/-- One step that is allowed. -/
theorem Inv.step {uniqueId : UInt32} {e : Event} (h : Inv svc s)
    (hstep : ((system svc uniqueId).restrict Ok).step s e t) : Inv svc t := by
  obtain ⟨hok, hstep⟩ := hstep
  have hlive : ∀ conn, s.loop.conn? = some conn → s.touch conn = s := fun conn hconn =>
    touch_live (h.working conn hconn)
  cases hstep with
  | accept loop | acceptFails loop =>
    refine h.withLoop ?_ nofun ?_ ?_ nofun <;> rw [loop] <;> simp
  | newConnect loop => exact h.newConnect loop hok
  | eventAdd loop => exact h.eventAdd loop
  | setEv loop =>
    rw [hlive _ (by rw [loop]; rfl)]
    exact h.setEv loop
  | @readCb conn loop armed =>
    rw [touch_live (h.armed conn armed)]
    refine h.withLoop ?_ ?_ ?_ ?_ nofun
    · rw [loop]
      nofun
    · rintro p ⟨⟩
      exact h.armed conn armed
    · rw [loop]
      nofun
    · rw [loop]
      exact fun p => ⟨nofun, nofun⟩
  | readOk loop =>
    rw [hlive _ (by rw [loop]; rfl)]
    refine h.withLoop ?_ nofun ?_ ?_ nofun <;> rw [loop] <;> simp
  | @readFails conn loop =>
    rw [hlive _ (by rw [loop]; rfl)]
    refine h.withLoop ?_ ?_ ?_ ?_ ?_
    · rw [loop]
      nofun
    · rintro p ⟨⟩
      exact h.working conn (by rw [loop]; rfl)
    · rw [loop]
      nofun
    · rw [loop]
      exact fun p => ⟨nofun, nofun⟩
    · rintro p calls ⟨⟩
      rfl
  | deleteConnect loop =>
    rw [hlive _ (by rw [loop]; rfl)]
    exact h.deleteConnect loop hok
  | delete loop =>
    rw [hlive _ (by rw [loop]; rfl)]
    exact h.delete loop
  | exit loop stop =>
    refine h.withLoop ?_ nofun ?_ ?_ nofun <;> rw [loop] <;> simp
  | freeListen stop => exact h.withStop nofun nofun (by rintro (hc | hc | hc) <;> cases hc) nofun
  | walkBegin stop entries => exact h.walkBegin entries
  | deleteEntry stop => exact h.deleteEntry stop hok
  | next stop => exact h.next stop
  | clear stop => exact h.clear stop
  | loopexit stop => exact h.withStop nofun nofun (fun _ => .inl stop) nofun
  | join stop loop => exact h.withStop nofun nofun (fun _ => .inr (.inl stop)) fun _ => loop

/-! ### The result -/

/-- In every run of either service in which every step is allowed, with any number of connections and
any interleaving, every state is safe. -/
theorem safe_of_ok (svc : Service) (uniqueId : UInt32) (events : List Event) (s : Server)
    (h : ((system svc uniqueId).restrict Ok).Run (new uniqueId) events s) : Safe s :=
  (h.invariant (fun _ _ _ hs hstep => hs.step hstep) (new_inv svc uniqueId)).safe

/-- A connection is accepted. -/
def accepts : List Event := [.accept, .newConnect .passed, .eventAdd, .setEv]

/-- `OnStop` and the loop thread at once: the loop over the map comes to a connection that is created
under it, and not to one whose read has failed. -/
theorem safe_of_ok_walk :
    ∃ s, ((system .tcp 0).restrict Ok).Run (new 0) (accepts ++ accepts ++ [.accept, .freeListen,
        .walkBegin [1, 0], .newConnect (.ahead 0), .eventAdd, .setEv, .readCb 0, .readFails,
        .deleteConnect, .delete, .deleteEntry, .next, .deleteEntry, .next, .clear, .loopexit, .exit,
        .join]) s ∧
      s.stop = .joined ∧ s.mgr.deleted = [0, 1, 2] ∧ Safe s := by
  have hrun : ((system .tcp 0).restrict Ok).Run (new 0) (accepts ++ accepts ++ [.accept, .freeListen,
        .walkBegin [1, 0], .newConnect (.ahead 0), .eventAdd, .setEv, .readCb 0, .readFails,
        .deleteConnect, .delete, .deleteEntry, .next, .deleteEntry, .next, .clear, .loopexit, .exit,
        .join]) _ :=
    .cons ⟨trivial, .accept rfl rfl⟩ <| .cons ⟨⟨by decide, .inl rfl⟩, .newConnect rfl _⟩ <|
    .cons ⟨trivial, .eventAdd rfl⟩ <| .cons ⟨trivial, .setEv rfl⟩ <|
    .cons ⟨trivial, .accept rfl rfl⟩ <| .cons ⟨⟨by decide, .inl rfl⟩, .newConnect rfl _⟩ <|
    .cons ⟨trivial, .eventAdd rfl⟩ <| .cons ⟨trivial, .setEv rfl⟩ <|
    .cons ⟨trivial, .accept rfl rfl⟩ <| .cons ⟨trivial, .freeListen rfl⟩ <|
    .cons ⟨trivial, .walkBegin rfl (.refl _)⟩ <|
    .cons ⟨⟨by decide, .inr (.inr ⟨1, [0], 0, rfl, by decide, .inl rfl⟩)⟩, .newConnect rfl _⟩ <|
    .cons ⟨trivial, .eventAdd rfl⟩ <| .cons ⟨trivial, .setEv rfl⟩ <|
    .cons ⟨trivial, .readCb rfl rfl⟩ <| .cons ⟨trivial, .readFails rfl⟩ <|
    .cons ⟨by rintro _ _ ⟨⟩; decide, .deleteConnect rfl⟩ <| .cons ⟨trivial, .delete rfl⟩ <|
    .cons ⟨fun _ _ _ _ _ => nofun, .deleteEntry rfl⟩ <| .cons ⟨trivial, .next rfl⟩ <|
    .cons ⟨fun _ _ _ _ _ => nofun, .deleteEntry rfl⟩ <| .cons ⟨trivial, .next rfl⟩ <|
    .cons ⟨trivial, .clear rfl⟩ <| .cons ⟨trivial, .loopexit rfl⟩ <|
    .cons ⟨trivial, .exit rfl rfl⟩ <| .cons ⟨trivial, .join rfl rfl⟩ <| .nil _
  exact ⟨_, hrun, rfl, rfl, safe_of_ok .tcp 0 _ _ hrun⟩

/-- `OnStop` deletes a connection in whose callback the loop thread is: the callback goes on, on a
connection that has been deleted, and deletes it again. -/
theorem deleted_twice :
    ∃ s, (system .tcp 0).Run (new 0) (accepts ++ [.freeListen, .walkBegin [0], .readCb 0,
        .deleteEntry, .readFails, .deleteConnect, .delete]) s ∧
      s.mgr.deleted = [0, 0] ∧ s.stale = [0, 0, 0] ∧ ¬ Safe s := by
  have hrun : (system .tcp 0).Run (new 0) (accepts ++ [.freeListen, .walkBegin [0], .readCb 0,
      .deleteEntry, .readFails, .deleteConnect, .delete]) _ :=
    .cons (.accept rfl rfl) <| .cons (.newConnect rfl _) <| .cons (.eventAdd rfl) <|
    .cons (.setEv rfl) <| .cons (.freeListen rfl) <| .cons (.walkBegin rfl (.refl _)) <|
    .cons (.readCb rfl rfl) <| .cons (.deleteEntry rfl) <| .cons (.readFails rfl) <|
    .cons (.deleteConnect rfl) <| .cons (.delete rfl) <| .nil _
  refine ⟨_, hrun, rfl, rfl, fun h => ?_⟩
  exact absurd h.fresh (List.cons_ne_nil _ _)

end Server
end NetService
