import NetService.EchoServer.Model
import NetService.Lib.Handles

/-!
# Every connection has one owner and gets its own bytes back

`Owned`: the descriptor of a connection is held by the thread that has accepted it until its handler
exists, and by the handler until the `close` of its destructor; no descriptor is closed by anybody
else.  `Echoes`: what a handler receives and writes goes through its own connection, so that echo
integrity of one handler is echo integrity of the server.
-/

namespace NetService
namespace EchoServer

variable {n : ℕ} {stream : ℕ → List UInt8}

/-! ### Owners -/

/-- Who is to close the descriptor of a connection. -/
inductive Owner (n : ℕ)
  | thread (d : Fin n)
  | handler

/-- A thread that has accepted `c` and has not created its handler. -/
def Thread.holds (t : Thread) (c fd : ℕ) : Prop := t = .handling c fd ∨ t = .refusing c fd

@[simp] theorem polling_holds (c fd : ℕ) : ¬ Thread.polling.holds c fd := nofun

@[simp] theorem accepting_holds (c fd : ℕ) : ¬ Thread.accepting.holds c fd := nofun

@[simp] theorem deleting_holds (c c' fd : ℕ) : ¬ (Thread.deleting c').holds c fd := nofun

@[simp] theorem handling_holds (c fd c' fd' : ℕ) :
    (Thread.handling c fd).holds c' fd' ↔ c = c' ∧ fd = fd' := by
  simp [Thread.holds]

@[simp] theorem refusing_holds (c fd c' fd' : ℕ) :
    (Thread.refusing c fd).holds c' fd' ↔ c = c' ∧ fd = fd' := by
  simp [Thread.holds]

def Owns (s : EchoServer n) : Owner n → ℕ → ℕ → Prop
  | .thread d, c, fd => (s.threads d).holds c fd
  | .handler, c, fd => ∃ obj, s.handlers c = some obj ∧ obj.fd = fd

theorem conn_injective : Function.Injective File.conn := fun _ _ h => File.conn.inj h

/-- The connections that are open are those owned; those that were closed are not, and were closed
once; a handler is deleted in the loop of its base. -/
structure Owned (s : EchoServer n) : Prop where
  exclusive : Exclusive File.conn s.table s.Owns
  born : ∀ o c fd, s.Owns o c fd → c < s.accepted
  closed_nodup : s.closed.Nodup
  closed_conn : ∀ f ∈ s.closed, ∃ c, f = some (.conn c) ∧ c < s.accepted ∧ ∀ o fd, ¬ s.Owns o c fd
  deleting : ∀ d c, s.threads d = .deleting c → ∃ obj, s.handlers c = some obj ∧ obj.disp = d

theorem new_owned {table : ℕ → Option File} (h : ∀ fd c, table fd ≠ some (.conn c)) :
    (new table : EchoServer n).Owned := by
  have hnone : ∀ o c fd, ¬ (new table : EchoServer n).Owns o c fd := by
    intro o c fd ho
    cases o with
    | thread d => exact polling_holds c fd ho
    | handler => obtain ⟨obj, hobj, -⟩ := ho; cases hobj
  refine ⟨⟨fun fd c => ?_, fun ho => absurd ho (hnone _ _ _)⟩, fun o c fd ho => absurd ho (hnone o c fd),
    List.nodup_nil, nofun, nofun⟩
  exact ⟨fun hc => absurd hc (h fd c), fun ⟨o, ho⟩ => absurd ho (hnone o c fd)⟩

section
variable {s s' : EchoServer n}

/-- A step that leaves the descriptors as they are. -/
theorem Owned.keep (hs : s.Owned) (htable : s'.table = s.table) (haccepted : s'.accepted = s.accepted)
    (hclosed : s'.closed = s.closed) (howns : ∀ o c fd, s'.Owns o c fd ↔ s.Owns o c fd)
    (hdeleting : ∀ d c, s'.threads d = .deleting c → ∃ obj, s'.handlers c = some obj ∧ obj.disp = d) :
    s'.Owned where
  exclusive := by
    rw [htable]
    exact hs.exclusive.congr howns
  born o c fd ho := by
    rw [haccepted]
    exact hs.born o c fd ((howns o c fd).1 ho)
  closed_nodup := by
    rw [hclosed]
    exact hs.closed_nodup
  closed_conn f hf := by
    rw [hclosed] at hf
    obtain ⟨c, rfl, hc, hnone⟩ := hs.closed_conn f hf
    exact ⟨c, rfl, by rwa [haccepted], fun o fd ho => hnone o fd ((howns o c fd).1 ho)⟩
  deleting := hdeleting

/-- The owner of `c` closes its descriptor. -/
theorem Owned.close (hs : s.Owned) {o : Owner n} {c fd : ℕ} (ho : s.Owns o c fd)
    (htable : s'.table = Function.update s.table fd none) (haccepted : s'.accepted = s.accepted)
    (hclosed : s'.closed = s.closed ++ [s.table fd])
    (howns : ∀ o' c' fd', s'.Owns o' c' fd' ↔ s.Owns o' c' fd' ∧ c' ≠ c)
    (hdeleting : ∀ d c, s'.threads d = .deleting c → ∃ obj, s'.handlers c = some obj ∧ obj.disp = d) :
    s'.Owned where
  exclusive := by
    rw [htable]
    exact hs.exclusive.drop conn_injective ho howns
  born o' c' fd' ho' := by
    rw [haccepted]
    exact hs.born o' c' fd' ((howns o' c' fd').1 ho').1
  closed_nodup := by
    rw [hclosed, (hs.exclusive.open_iff fd c).2 ⟨o, ho⟩, List.nodup_append]
    refine ⟨hs.closed_nodup, List.nodup_singleton _, fun f hf g hg heq => ?_⟩
    -- what was closed before is not owned
    rw [List.mem_singleton.1 hg] at heq
    obtain ⟨c', hc', -, hnone⟩ := hs.closed_conn f hf
    rw [heq, Option.some.injEq, File.conn.injEq] at hc'
    exact hnone o fd (hc' ▸ ho)
  closed_conn f hf := by
    rw [hclosed, (hs.exclusive.open_iff fd c).2 ⟨o, ho⟩, List.mem_append, List.mem_singleton] at hf
    rw [haccepted]
    rcases hf with hf | rfl
    · obtain ⟨c', rfl, hc', hnone⟩ := hs.closed_conn f hf
      exact ⟨c', rfl, hc', fun o' fd' ho' => hnone o' fd' ((howns o' c' fd').1 ho').1⟩
    · exact ⟨c, rfl, hs.born o c fd ho, fun o' fd' ho' => ((howns o' c fd').1 ho').2 rfl⟩
  deleting := hdeleting

/-- A thread moves that is not about to delete, before or after. -/
theorem deleting_update (hs : s.Owned) {d : Fin n} {t : Thread} (ht : ∀ c, t ≠ .deleting c)
    (hthreads : s'.threads = Function.update s.threads d t)
    (hhandlers : ∀ c obj, s.handlers c = some obj → s'.handlers c = some obj) (d' : Fin n) (c : ℕ)
    (hd : s'.threads d' = .deleting c) : ∃ obj, s'.handlers c = some obj ∧ obj.disp = d' := by
  rw [hthreads] at hd
  by_cases hdd : d' = d
  · rw [hdd, Function.update_self] at hd
    exact absurd hd (ht c)
  · rw [Function.update_of_ne hdd] at hd
    obtain ⟨obj, hobj, hdisp⟩ := hs.deleting d' c hd
    exact ⟨obj, hhandlers c obj hobj, hdisp⟩

theorem Owned.setThread (hs : s.Owned) {d : Fin n} {t : Thread} (ht : ∀ c, t ≠ .deleting c)
    (hholds : ∀ c fd, t.holds c fd ↔ (s.threads d).holds c fd) : (s.setThread d t).Owned := by
  refine hs.keep rfl rfl rfl (fun o c fd => ?_)
    (deleting_update hs ht rfl fun _ _ hobj => hobj)
  cases o with
  | handler => exact Iff.rfl
  | thread d' =>
    by_cases hdd : d' = d
    · subst hdd
      simp only [Owns, EchoServer.setThread, Function.update_self, hholds]
    · simp only [Owns, EchoServer.setThread, Function.update_of_ne hdd]

/-! ### The steps -/

theorem Owned.accept (hs : s.Owned) {d : Fin n} {fd : ℕ} (hd : s.threads d = .accepting)
    (hfd : s.table fd = none) :
    ({ s with
        table := Function.update s.table fd (some (.conn s.accepted))
        accepted := s.accepted + 1 }.setThread d (.handling s.accepted fd)).Owned := by
  have hfresh : ∀ o fd', ¬ s.Owns o s.accepted fd' := fun o fd' ho => lt_irrefl _ (hs.born _ _ _ ho)
  -- nobody held the new connection, and `d` held nothing
  have howns : ∀ o c fd', ({ s with
      table := Function.update s.table fd (some (.conn s.accepted))
      accepted := s.accepted + 1 }.setThread d (.handling s.accepted fd)).Owns o c fd' ↔
        s.Owns o c fd' ∨ o = .thread d ∧ c = s.accepted ∧ fd' = fd := by
    intro o c fd'
    cases o with
    | handler => simp [Owns, EchoServer.setThread]
    | thread d' =>
      by_cases hdd : d' = d
      · subst hdd
        simp [Owns, EchoServer.setThread, hd, eq_comm]
      · simp [Owns, EchoServer.setThread, hdd]
  refine ⟨hs.exclusive.add conn_injective hfd hfresh howns, fun o c fd' ho => ?_, hs.closed_nodup,
    fun f hf => ?_, deleting_update (t := .handling s.accepted fd) hs (fun _ => nofun) rfl fun _ _ hobj => hobj⟩
  · show c < s.accepted + 1
    rcases (howns o c fd').1 ho with ho | ⟨-, rfl, -⟩
    · exact Nat.lt_succ_of_lt (hs.born o c fd' ho)
    · exact Nat.lt_succ_self _
  · obtain ⟨c, rfl, hc, hnone⟩ := hs.closed_conn f hf
    refine ⟨c, rfl, Nat.lt_succ_of_lt hc, fun o fd' ho => ?_⟩
    rcases (howns o c fd').1 ho with ho | ⟨-, rfl, -⟩
    · exact hnone o fd' ho
    · exact lt_irrefl _ hc

theorem Owned.construct (hs : s.Owned) {d : Fin n} {c fd : ℕ} (hd : s.threads d = .handling c fd) :
    ({ s with
        handlers := Function.update s.handlers c (some ⟨d, fd, ⟨some .new, []⟩⟩) }.setThread d
          .accepting).Owned := by
  have hthread : s.Owns (.thread d) c fd := by simp [Owns, hd]
  have hnone : s.handlers c = none := by
    cases hc : s.handlers c with
    | none => rfl
    | some obj =>
      have hhandler : s.Owns .handler c obj.fd := ⟨obj, hc, rfl⟩
      cases (hs.exclusive.unique hthread hhandler).1
  have howns : ∀ o c' fd', ({ s with
      handlers := Function.update s.handlers c (some ⟨d, fd, ⟨some .new, []⟩⟩) }.setThread d
        .accepting).Owns o c' fd' ↔
        s.Owns o c' fd' ∧ c' ≠ c ∨ o = .handler ∧ c' = c ∧ fd' = fd := by
    intro o c' fd'
    cases o with
    | handler =>
      by_cases hcc : c' = c
      · subst hcc
        simp [Owns, EchoServer.setThread, eq_comm]
      · simp [Owns, EchoServer.setThread, hcc]
    | thread d' =>
      by_cases hdd : d' = d
      · subst hdd
        simp only [Owns, EchoServer.setThread, Function.update_self, accepting_holds, hd, handling_holds]
        exact ⟨nofun, fun h => by rcases h with ⟨⟨rfl, -⟩, hne⟩ | ⟨hno, -⟩ <;> [exact hne rfl; cases hno]⟩
      · -- another thread does not hold `c`
        have hne : s.Owns (.thread d') c' fd' → c' ≠ c := by
          rintro ho rfl
          cases (hs.exclusive.unique hthread ho).1
          exact hdd rfl
        simpa [Owns, EchoServer.setThread, hdd] using hne
  refine ⟨hs.exclusive.move hthread howns, fun o c' fd' ho => ?_, hs.closed_nodup, fun f hf => ?_,
    deleting_update (t := .accepting) hs (fun _ => nofun) rfl fun c' obj hobj => ?_⟩
  · rcases (howns o c' fd').1 ho with ⟨ho, -⟩ | ⟨-, rfl, -⟩
    · exact hs.born o c' fd' ho
    · exact hs.born _ _ _ hthread
  · obtain ⟨c', rfl, hc', hno⟩ := hs.closed_conn f hf
    refine ⟨c', rfl, hc', fun o fd' ho => ?_⟩
    rcases (howns o c' fd').1 ho with ⟨ho, -⟩ | ⟨-, rfl, rfl⟩
    · exact hno o fd' ho
    · exact hno _ _ hthread
  · have hcc : c' ≠ c := by
      rintro rfl
      rw [hnone] at hobj
      cases hobj
    show Function.update s.handlers c _ c' = some obj
    rw [Function.update_of_ne hcc, hobj]

theorem Owned.refuse (hs : s.Owned) {d : Fin n} {c fd : ℕ} (hd : s.threads d = .refusing c fd) :
    ((s.close fd).setThread d .accepting).Owned := by
  have hthread : s.Owns (.thread d) c fd := by simp [Owns, hd]
  refine Owned.close hs hthread rfl rfl rfl (fun o c' fd' => ?_)
    (deleting_update (t := .accepting) hs (fun _ => nofun) rfl fun _ _ hobj => hobj)
  have hne : o ≠ .thread d → s.Owns o c' fd' → c' ≠ c := by
    rintro ho howns rfl
    exact ho (hs.exclusive.unique howns hthread).1
  cases o with
  | handler => simpa [Owns, EchoServer.setThread, EchoServer.close] using hne nofun
  | thread d' =>
    by_cases hdd : d' = d
    · subst hdd
      simp only [Owns, EchoServer.setThread, Function.update_self, accepting_holds, hd, refusing_holds]
      exact ⟨nofun, fun h => h.2 h.1.1.symm⟩
    · have hne' : s.Owns (.thread d') c' fd' → c' ≠ c := hne fun heq => hdd (Owner.thread.inj heq)
      simpa [Owns, EchoServer.setThread, EchoServer.close, hdd] using hne'

theorem Owned.destroy (hs : s.Owned) {d : Fin n} {c : ℕ} {obj : Obj n} (hd : s.threads d = .deleting c)
    (hobj : s.handlers c = some obj) :
    ({ s.close obj.fd with handlers := Function.update s.handlers c none }.setThread d .polling).Owned := by
  have hhandler : s.Owns .handler c obj.fd := ⟨obj, hobj, rfl⟩
  refine Owned.close hs hhandler rfl rfl rfl (fun o c' fd' => ?_) fun d' c' hdel => ?_
  · cases o with
    | handler =>
      by_cases hcc : c' = c
      · subst hcc
        simp [Owns, EchoServer.setThread]
      · simp [Owns, EchoServer.setThread, EchoServer.close, hcc]
    | thread d' =>
      have hne : s.Owns (.thread d') c' fd' → c' ≠ c := by
        rintro howns rfl
        cases (hs.exclusive.unique howns hhandler).1
      by_cases hdd : d' = d
      · subst hdd
        simp [Owns, EchoServer.setThread, hd]
      · simpa [Owns, EchoServer.setThread, EchoServer.close, hdd] using hne
  · by_cases hdd : d' = d
    · rw [hdd] at hdel
      simp [EchoServer.setThread] at hdel
    · have hold : s.threads d' = .deleting c' := by
        simpa [EchoServer.setThread, EchoServer.close, hdd] using hdel
      obtain ⟨obj', hobj', hdisp'⟩ := hs.deleting d' c' hold
      -- the two threads delete handlers of different bases
      obtain ⟨obj'', hobj'', hdisp''⟩ := hs.deleting d c hd
      have hcc : c' ≠ c := by
        rintro rfl
        rw [hobj'] at hobj''
        cases hobj''
        exact hdd (hdisp'.symm.trans hdisp'')
      exact ⟨obj', by simpa [EchoServer.setThread, hcc] using hobj', hdisp'⟩

/-- What a callback does: its handler uses its own connection. -/
theorem callback_cases (hs : s.Owned) {d : Fin n} {c fuel : ℕ} {cb : Handler.Callback}
    (h : s.step stream (.callback d c fuel cb) = some s') :
    ∃ (obj : Obj n) (l : Handler) (calls : List Syscall) (l' : Option Handler),
      s.threads d = .polling ∧ s.handlers c = some obj ∧ obj.disp = d ∧
      obj.conn.handler = some l ∧ Handler.Delivers l cb.what ∧
      Handler.eventCb fuel cb.what l.fired cb.recvs cb.writes = some (.ok (calls, l')) ∧
      s.received c ++ Handler.received calls <+: stream c ∧
      s' = { s with
        received := Function.update s.received c (s.received c ++ Handler.received calls)
        written := Function.update s.written c (s.written c ++ Handler.written calls)
        handlers := Function.update s.handlers c
          (some { obj with conn := ⟨l', obj.conn.log ++ calls⟩ }) }.setThread d
            (if l'.isSome then .polling else .deleting c) := by
  simp only [step] at h
  split at h
  · rename_i obj hd hobj
    split at h
    · rename_i l hl
      split_ifs at h with hmay
      unfold runCallback at h
      split at h
      · rename_i calls l' hcb
        have hopen : s.table obj.fd = some (.conn c) :=
          (hs.exclusive.open_iff _ _).2 ⟨.handler, obj, hobj, rfl⟩
        obtain ⟨u, hu, rfl⟩ := Option.map_eq_some_iff.1 h
        simp only [transfer, hopen] at hu
        split_ifs at hu with hpre
        cases hu
        exact ⟨obj, l, calls, l', hd, hobj, hmay.1, hl, hmay.2, hcb, hpre, rfl⟩
      · cases h
    · cases h
  · cases h

theorem Owned.callback (hs : s.Owned) {d : Fin n} {c fuel : ℕ} {cb : Handler.Callback}
    (h : s.step stream (.callback d c fuel cb) = some s') : s'.Owned := by
  obtain ⟨obj, l, calls, l', hd, hobj, hdisp, -, -, -, -, rfl⟩ := callback_cases hs h
  refine hs.keep rfl rfl rfl (fun o c' fd => ?_) fun d' c' hdel => ?_
  · cases o with
    | handler =>
      by_cases hcc : c' = c
      · subst hcc
        simp [Owns, EchoServer.setThread, hobj]
      · simp [Owns, EchoServer.setThread, hcc]
    | thread d' =>
      by_cases hdd : d' = d
      · subst hdd
        cases l' <;> simp [Owns, EchoServer.setThread, hd]
      · simp [Owns, EchoServer.setThread, hdd]
  · by_cases hdd : d' = d
    · subst hdd
      cases l' with
      | some l' => simp [EchoServer.setThread] at hdel
      | none =>
        obtain rfl : c = c' := by simpa [EchoServer.setThread] using hdel
        exact ⟨_, Function.update_self .., hdisp⟩
    · have hold : s.threads d' = .deleting c' := by simpa [EchoServer.setThread, hdd] using hdel
      obtain ⟨obj', hobj', hdisp'⟩ := hs.deleting d' c' hold
      have hcc : c' ≠ c := by
        rintro rfl
        rw [hobj] at hobj'
        cases hobj'
        exact hdd (hdisp'.symm.trans hdisp)
      exact ⟨obj', by simpa [EchoServer.setThread, hcc] using hobj', hdisp'⟩

/-- Every step keeps the owners. -/
theorem Owned.step (hs : s.Owned) {a : Action n} (h : s.step stream a = some s') : s'.Owned := by
  cases a with
  | listen d =>
    simp only [EchoServer.step] at h
    split_ifs at h with hd
    cases h
    exact hs.setThread nofun fun c fd => by simp [hd]
  | accept d fd =>
    simp only [EchoServer.step] at h
    split_ifs at h with hd
    cases h
    exact hs.accept hd.1 hd.2
  | acceptFails d =>
    simp only [EchoServer.step] at h
    split_ifs at h with hd
    cases h
    exact hs.setThread nofun fun c fd => by simp [hd]
  | construct d ok =>
    simp only [EchoServer.step] at h
    split at h
    · rename_i c fd hd
      split_ifs at h
      · cases h
        exact hs.construct hd
      · cases h
        exact hs.setThread nofun fun c' fd' => by simp [hd]
    · cases h
  | refuse d =>
    simp only [EchoServer.step] at h
    split at h
    · rename_i c fd hd
      cases h
      exact hs.refuse hd
    · cases h
  | callback d c fuel cb => exact hs.callback h
  | destroy d =>
    simp only [EchoServer.step] at h
    split at h
    · rename_i c hd
      split at h
      · rename_i obj hobj
        cases h
        exact hs.destroy hd hobj
      · cases h
    · cases h

/-! ### The bytes -/

/-- What a connection has received and written is in the log of its handler, as long as there is one,
and the written bytes are always the first ones received. -/
structure Echoes (stream : ℕ → List UInt8) (s : EchoServer n) : Prop where
  quiet : ∀ c, (∀ fd, ¬ s.Owns .handler c fd) → some (.conn c) ∉ s.closed →
    s.received c = [] ∧ s.written c = []
  handler : ∀ c obj, s.handlers c = some obj → Handler.ConnInv obj.conn ∧
    s.received c = Handler.received obj.conn.log ∧ s.written c = Handler.written obj.conn.log
  echo : ∀ c, s.written c <+: s.received c
  sent : ∀ c, s.received c <+: stream c

theorem new_echoes (table : ℕ → Option File) : (new table : EchoServer n).Echoes stream where
  quiet _ _ _ := ⟨rfl, rfl⟩
  handler _ _ hobj := by cases hobj
  echo _ := List.prefix_rfl
  sent _ := List.nil_prefix

/-- A step without system calls on a connection. -/
theorem Echoes.keep (he : s.Echoes stream) (hreceived : s'.received = s.received)
    (hwritten : s'.written = s.written)
    (hquiet : ∀ c, (∀ fd, ¬ s'.Owns .handler c fd) → some (.conn c) ∉ s'.closed →
      (∀ fd, ¬ s.Owns .handler c fd) ∧ some (.conn c) ∉ s.closed)
    (hhandler : ∀ c obj, s'.handlers c = some obj → s.handlers c = some obj ∨
      obj.conn = ⟨some .new, []⟩ ∧ s.received c = [] ∧ s.written c = []) : s'.Echoes stream where
  quiet c hno hclosed := by
    rw [hreceived, hwritten]
    obtain ⟨hno', hclosed'⟩ := hquiet c hno hclosed
    exact he.quiet c hno' hclosed'
  handler c obj hobj := by
    rw [hreceived, hwritten]
    rcases hhandler c obj hobj with hold | ⟨hnew, hr, hw⟩
    · exact he.handler c obj hold
    · rw [hnew, hr, hw]
      exact ⟨Handler.new_connInv, rfl, rfl⟩
  echo c := by
    rw [hreceived, hwritten]
    exact he.echo c
  sent c := by
    rw [hreceived]
    exact he.sent c

theorem Echoes.callback (hs : s.Owned) (he : s.Echoes stream) {d : Fin n} {c fuel : ℕ}
    {cb : Handler.Callback} (h : s.step stream (.callback d c fuel cb) = some s') :
    s'.Echoes stream := by
  obtain ⟨obj, l, calls, l', hd, hobj, hdisp, hl, hdel, hcb, hpre, rfl⟩ := callback_cases hs h
  obtain ⟨hconn, hreceived, hwritten⟩ := he.handler c obj hobj
  have hconn' : Handler.ConnInv ⟨l', obj.conn.log ++ calls⟩ :=
    Handler.callback_inv obj.conn cb _ hconn ⟨l, hl, hdel, fuel, calls, l', hcb, rfl⟩
  have hreceived' : s.received c ++ Handler.received calls =
      Handler.received (obj.conn.log ++ calls) := by rw [Handler.received_append, hreceived]
  have hwritten' : s.written c ++ Handler.written calls =
      Handler.written (obj.conn.log ++ calls) := by rw [Handler.written_append, hwritten]
  refine ⟨fun c' hno hclosed => ?_, fun c' obj' hobj' => ?_, fun c' => ?_, fun c' => ?_⟩
  · have hcc : c' ≠ c := by
      rintro rfl
      exact hno obj.fd ⟨_, Function.update_self .., rfl⟩
    have hold := he.quiet c' (fun fd hfd => hno fd (by simpa [Owns, setThread, hcc] using hfd)) hclosed
    simpa [setThread, hcc] using hold
  · by_cases hcc : c' = c
    · subst hcc
      obtain rfl : { obj with conn := ⟨l', obj.conn.log ++ calls⟩ } = obj' := by
        simpa [setThread] using hobj'
      refine ⟨hconn', ?_, ?_⟩
      · simpa [setThread] using hreceived'
      · simpa [setThread] using hwritten'
    · have hold : s.handlers c' = some obj' := by simpa [setThread, hcc] using hobj'
      simpa [setThread, hcc] using he.handler c' obj' hold
  · by_cases hcc : c' = c
    · subst hcc
      have hprefix := hconn'.prefix_log
      rw [← hreceived', ← hwritten'] at hprefix
      simpa [setThread] using hprefix
    · simpa [setThread, hcc] using he.echo c'
  · by_cases hcc : c' = c
    · subst hcc
      simpa [setThread] using hpre
    · simpa [setThread, hcc] using he.sent c'

/-- Every step keeps the bytes apart. -/
theorem Echoes.step (hs : s.Owned) (he : s.Echoes stream) {a : Action n}
    (h : s.step stream a = some s') : s'.Echoes stream := by
  cases a with
  | callback d c fuel cb => exact he.callback hs h
  | listen d =>
    simp only [EchoServer.step] at h
    split_ifs at h
    cases h
    exact he.keep rfl rfl (fun c hno hclosed => ⟨hno, hclosed⟩) fun c obj hobj => .inl hobj
  | accept d fd =>
    simp only [EchoServer.step] at h
    split_ifs at h
    cases h
    exact he.keep rfl rfl (fun c hno hclosed => ⟨hno, hclosed⟩) fun c obj hobj => .inl hobj
  | acceptFails d =>
    simp only [EchoServer.step] at h
    split_ifs at h
    cases h
    exact he.keep rfl rfl (fun c hno hclosed => ⟨hno, hclosed⟩) fun c obj hobj => .inl hobj
  | construct d ok =>
    simp only [EchoServer.step] at h
    split at h
    · rename_i c fd hd
      split_ifs at h
      · cases h
        have hthread : s.Owns (.thread d) c fd := by simp [Owns, hd]
        have hnew : ∀ fd', ¬ s.Owns .handler c fd' := by
          intro fd' ho
          cases (hs.exclusive.unique hthread ho).1
        have hunclosed : some (.conn c) ∉ s.closed := by
          intro hmem
          obtain ⟨c', hc', -, hno⟩ := hs.closed_conn _ hmem
          rw [Option.some.injEq, File.conn.injEq] at hc'
          exact hno (.thread d) fd (hc' ▸ hthread)
        refine he.keep rfl rfl (fun c' hno hclosed => ⟨fun fd' ho => ?_, hclosed⟩) fun c' obj hobj => ?_
        · by_cases hcc : c' = c
          · exact hnew fd' (hcc ▸ ho)
          · exact hno fd' (by simpa [Owns, setThread, hcc] using ho)
        · by_cases hcc : c' = c
          · subst hcc
            obtain rfl : ⟨d, fd, ⟨some .new, []⟩⟩ = obj := by simpa [setThread] using hobj
            exact .inr ⟨rfl, he.quiet c' hnew hunclosed⟩
          · exact .inl (by simpa [setThread, hcc] using hobj)
      · cases h
        exact he.keep rfl rfl (fun c hno hclosed => ⟨hno, hclosed⟩) fun c obj hobj => .inl hobj
    · cases h
  | refuse d =>
    simp only [EchoServer.step] at h
    split at h
    · cases h
      refine he.keep rfl rfl (fun c hno hclosed => ⟨hno, fun hmem => hclosed ?_⟩) fun c obj hobj => .inl hobj
      exact List.mem_append_left _ hmem
    · cases h
  | destroy d =>
    simp only [EchoServer.step] at h
    split at h
    · rename_i c hd
      split at h
      · rename_i obj hobj
        cases h
        have hopen : s.table obj.fd = some (.conn c) :=
          (hs.exclusive.open_iff _ _).2 ⟨.handler, obj, hobj, rfl⟩
        refine he.keep rfl rfl (fun c' hno hclosed => ?_) fun c' obj' hobj' => .inl ?_
        · have hclosed' : some (.conn c') ∉ s.closed ++ [s.table obj.fd] := hclosed
          rw [hopen, List.mem_append, List.mem_singleton, not_or] at hclosed'
          have hcc : c' ≠ c := fun heq => hclosed'.2 (by rw [heq])
          exact ⟨fun fd ho => hno fd (by simpa [Owns, setThread, hcc] using ho), hclosed'.1⟩
        · by_cases hcc : c' = c
          · subst hcc
            simp [setThread] at hobj'
          · simpa [setThread, hcc] using hobj'
      · cases h
    · cases h

end

/-! ### The results -/

theorem reachable_inv {s : EchoServer n} (h : (system n stream).Reachable s) :
    s.Owned ∧ s.Echoes stream := by
  refine h.invariant (I := fun s => s.Owned ∧ s.Echoes stream) ?_ ?_
  · rintro _ ⟨table, htable, rfl⟩
    exact ⟨new_owned htable, new_echoes table⟩
  · intro s a s' hs hstep
    exact ⟨hs.1.step hstep, hs.2.step hs.1 hstep⟩

/-- In every reachable state of the server, with connections and descriptors coming and going in all
its threads: what has been written to a connection is a prefix of what was received from it, which is
a prefix of what its client sends; and what a living handler has received and not written is in its
`write_buf_`, in order. -/
theorem echoes_own_connection {s : EchoServer n} (h : (system n stream).Reachable s) (c : ℕ) :
    s.written c <+: s.received c ∧ s.received c <+: stream c ∧
      ∀ obj l, s.handlers c = some obj → obj.conn.handler = some l →
        s.written c ++ l.writeBuf.content = s.received c := by
  obtain ⟨-, he⟩ := reachable_inv h
  refine ⟨he.echo c, he.sent c, fun obj l hobj hl => ?_⟩
  obtain ⟨hconn, hreceived, hwritten⟩ := he.handler c obj hobj
  rw [hreceived, hwritten]
  exact (hconn.live l hl).2

/-- Two of four loops: the first echoes a connection on descriptor 4, which is closed; then the second
gets 4 for another connection. -/
def sampleActions : List (Action 4) :=
  [.listen 0, .accept 0 4, .construct 0 true, .acceptFails 0,
    .callback 0 0 3 ⟨{ read := true }, [.data [1, 2, 3]], []⟩,
    .callback 0 0 3 ⟨{ write := true }, [], [.sent 2, .sent 1]⟩,
    .callback 0 0 3 ⟨{ read := true }, [.closed], []⟩, .destroy 0,
    .listen 1, .accept 1 4, .construct 1 true, .acceptFails 1,
    .callback 1 1 3 ⟨{ read := true }, [.data [7]], []⟩]

/-- The first client sends three bytes and the others one. -/
def sampleStream (c : ℕ) : List UInt8 := if c = 0 then [1, 2, 3] else [7]

/-- The listening sockets. -/
def sampleTable (fd : ℕ) : Option File := if fd < 4 then some .other else none

theorem sampleTable_conn (fd c : ℕ) : sampleTable fd ≠ some (.conn c) := by
  unfold sampleTable
  split_ifs <;> simp

theorem sample_reachable {s : EchoServer 4}
    (h : sampleActions.foldlM (step sampleStream) (new sampleTable) = some s) :
    (system 4 sampleStream).Reachable s :=
  ⟨new sampleTable, sampleActions, ⟨sampleTable, sampleTable_conn, rfl⟩,
    .of_foldlM (fun _ _ _ hstep => hstep) h⟩

theorem echoes_own_connection_sample :
    ∃ s : EchoServer 4, (system 4 sampleStream).Reachable s ∧ s.written 0 = [1, 2, 3] ∧
      s.written 1 = [] ∧ s.received 1 = [7] ∧ s.written 1 <+: s.received 1 := by
  obtain ⟨s, hs, h0, h1, h2⟩ : ∃ s : EchoServer 4,
      sampleActions.foldlM (step sampleStream) (new sampleTable) = some s ∧ s.written 0 = [1, 2, 3] ∧
        s.written 1 = [] ∧ s.received 1 = [7] := ⟨_, rfl, rfl, rfl, rfl⟩
  exact ⟨s, sample_reachable hs, h0, h1, h2, (echoes_own_connection (sample_reachable hs) 1).1⟩

/-- The descriptor of a connection is never leaked, shared or closed twice: an open one belongs to
exactly one living handler or to the thread that is about to create one; a handler's `fd_` refers to
its own connection; `close` is called for each connection at most once, for nothing else, and leaves it
open nowhere; and a `delete` that has begun finds its handler. -/
theorem descriptors_owned {s : EchoServer n} (h : (system n stream).Reachable s) :
    (∀ fd c, s.table fd = some (.conn c) → ∃! o, s.Owns o c fd) ∧
    (∀ c obj, s.handlers c = some obj → s.table obj.fd = some (.conn c)) ∧
    s.closed.Nodup ∧
    (∀ f ∈ s.closed, ∃ c, f = some (.conn c) ∧ ∀ fd, s.table fd ≠ some (.conn c)) ∧
    ∀ d c, s.threads d = .deleting c → ∃ obj, s.handlers c = some obj ∧ obj.disp = d := by
  obtain ⟨hs, -⟩ := reachable_inv h
  refine ⟨fun fd c hopen => ?_, fun c obj hobj => ?_, hs.closed_nodup, fun f hf => ?_, hs.deleting⟩
  · obtain ⟨o, ho⟩ := (hs.exclusive.open_iff fd c).1 hopen
    exact ⟨o, ho, fun o' ho' => (hs.exclusive.unique ho' ho).1⟩
  · exact (hs.exclusive.open_iff _ _).2 ⟨.handler, obj, hobj, rfl⟩
  · obtain ⟨c, rfl, -, hno⟩ := hs.closed_conn f hf
    refine ⟨c, rfl, fun fd hopen => ?_⟩
    obtain ⟨o, ho⟩ := (hs.exclusive.open_iff fd c).1 hopen
    exact hno o fd ho

theorem descriptors_owned_sample :
    ∃ s : EchoServer 4, (system 4 sampleStream).Reachable s ∧ s.closed = [some (.conn 0)] ∧
      s.table 4 = some (.conn 1) ∧ ∃! o, s.Owns o 1 4 := by
  obtain ⟨s, hs, hclosed, hopen⟩ : ∃ s : EchoServer 4,
      sampleActions.foldlM (step sampleStream) (new sampleTable) = some s ∧
        s.closed = [some (.conn 0)] ∧ s.table 4 = some (.conn 1) := ⟨_, rfl, rfl, rfl⟩
  obtain ⟨howned, -⟩ := descriptors_owned (sample_reachable hs)
  exact ⟨s, sample_reachable hs, hclosed, hopen, howned 4 1 hopen⟩

end EchoServer
end NetService
