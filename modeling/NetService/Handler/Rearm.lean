import NetService.Handler.Echo

/-!
# When a live `tl::Handler` has a pending event

`Armed` is what keeps a connection going: the event is pending, with `EV_WRITE` if `write_buf_`
holds data and with `EV_READ` if not.  Every return path re-arms the event except one: when
`write` reports `EAGAIN` or `EINTR`, `handleWrite` returns zero without calling `event_add`.

`callback_armed` is the step; `armed_iff` says that on a run every state is armed exactly when no
`write` of the run was refused; `blocked_write_stalls` is the shortest run that stalls.
-/

namespace NetService
namespace Handler

/-- The event is pending with the interest that fits `write_buf_`. -/
structure Armed (h : Handler) : Prop where
  pending : h.ev.pending = true
  write : h.writeBuf.content ≠ [] → h.ev.what.write = true
  read : h.writeBuf.content = [] → h.ev.what.read = true

/-- The event waits for reading alone or for writing alone. -/
def OneInterest (h : Handler) : Prop :=
  h.ev.what = { read := true } ∨ h.ev.what = { write := true }

/-- Some `write` was refused with `EAGAIN` or `EINTR`. -/
def Refused (log : List Syscall) : Prop := ∃ buf, .write buf .again ∈ log

theorem rearm_armed {h : Handler} (hw : h.writeBuf.Inv) : h.rearm.Armed ∧ h.rearm.OneInterest := by
  have hnil : h.writeBuf.size = 0 ↔ h.writeBuf.content = [] := by
    rw [hw.size_eq, List.length_eq_zero_iff]
  unfold rearm
  split_ifs with hsize
  · exact ⟨⟨rfl, fun _ => rfl, fun he => absurd (hnil.2 he) hsize⟩, .inr rfl⟩
  · exact ⟨⟨rfl, fun hne => absurd (hnil.1 (not_not.1 hsize)) hne, fun _ => rfl⟩, .inl rfl⟩

theorem new_armed : new.Armed ∧ new.OneInterest :=
  ⟨⟨rfl, fun h => absurd new_inv.empty h, fun _ => rfl⟩, .inl rfl⟩

/-! ### The two callbacks -/

/-- The receiving loop issues no `write`. -/
theorem recvLoop_not_refused {rs : List RecvResult} {rb : Buffer UInt8}
    {x : List Syscall × Bool × Buffer UInt8} (h : recvLoop rs rb = some (.ok x)) :
    ¬ Refused x.1 := by
  induction rs generalizing rb x with
  | nil => cases h
  | cons r rs ih =>
    cases r with
    | closed | error | again =>
      cases h
      rintro ⟨buf, hbuf⟩
      cases List.mem_singleton.1 hbuf
    | data bs =>
      simp only [recvLoop] at h
      split at h <;> try cases h
      split at h <;> try cases h
      split at h <;> try cases h
      split at h
      · cases h
        rintro ⟨buf, hbuf⟩
        cases List.mem_singleton.1 hbuf
      · obtain ⟨o, ho, heq⟩ := Option.map_eq_some_iff.1 h
        cases o with
        | error e => cases heq
        | ok y =>
          cases heq
          rintro ⟨buf, hbuf⟩
          rcases List.mem_cons.1 hbuf with heq | hbuf
          · cases heq
          · exact ih ho ⟨buf, hbuf⟩

/-- `handleRead` re-arms the event when it returns zero. -/
theorem handleRead_armed {h h' : Handler} (hi : h.Inv) {fuel : ℕ} {rs : List RecvResult}
    {tr : List Syscall} {r : ℤ} (hout : h.handleRead fuel rs = some (.ok (tr, r, h'))) :
    ¬ Refused tr ∧ (r = 0 → h'.Armed ∧ h'.OneInterest) := by
  unfold handleRead at hout
  cases hrecv : recvLoop rs h.readBuf with
  | none =>
    rw [hrecv] at hout
    cases hout
  | some o =>
    obtain ⟨tr, ok, rb, rfl, hinv, -⟩ := recvLoop_spec hi.readBuf hrecv
    have hno := recvLoop_not_refused hrecv
    rw [hrecv] at hout
    cases ok with
    | false =>
      cases hout
      exact ⟨hno, by simp⟩
    | true =>
      obtain ⟨o, ho, heq⟩ := Option.map_eq_some_iff.1 hout
      obtain ⟨rb', wb', hends, -, -, hw', -⟩ := echoLoop_spec hinv hi.writeBuf
      obtain rfl := Loop.Ends.unique ⟨fuel, ho⟩ hends
      cases heq
      exact ⟨hno, fun _ => rearm_armed hw'⟩

/-- `handleWrite` returns zero in two ways: with the event re-armed, or, after a refused `write`,
with the event as the callback found it. -/
theorem handleWrite_armed {h h' : Handler} (hi : h.Inv) {ws : List WriteResult}
    {tr : List Syscall} {r : ℤ} (hout : h.handleWrite ws = some (.ok (tr, r, h'))) :
    (¬ Refused tr ∧ (r = 0 → h'.Armed ∧ h'.OneInterest)) ∨
      (Refused tr ∧ r = 0 ∧ h'.ev = h.ev) := by
  obtain ⟨o, ho, heq⟩ := Option.map_eq_some_iff.1 hout
  obtain ⟨tr', ex, wb, rfl, hinv, -, -, -, -, hblocked⟩ := writeLoop_spec hi.writeBuf ho
  cases ex with
  | drained =>
    cases heq
    exact .inl ⟨fun hr => (nomatch hblocked.2 hr), fun _ => rearm_armed hinv⟩
  | blocked =>
    cases heq
    exact .inr ⟨hblocked.1 rfl, rfl, rfl⟩
  | failed =>
    cases heq
    exact .inl ⟨fun hr => (nomatch hblocked.2 hr), by simp⟩

/-- A callback that libevent delivers leaves a live handler armed, unless a `write` was refused;
then the handler is alive and its event is not pending. -/
theorem eventCb_armed {h : Handler} (hi : h.Inv) (hone : h.OneInterest) {fuel : ℕ} {what : What}
    (hwhat : Delivers h what) {rs : List RecvResult} {ws : List WriteResult} {tr : List Syscall}
    {h' : Option Handler} (hout : eventCb fuel what h.fired rs ws = some (.ok (tr, h'))) :
    (∀ h'', h' = some h'' → h''.OneInterest) ∧
      (¬ Refused tr → ∀ h'', h' = some h'' → h''.Armed) ∧
      (Refused tr → ∃ h'', h' = some h'' ∧ h''.ev.pending = false) := by
  have hnil : ¬ Refused [] := by
    rintro ⟨buf, hbuf⟩
    cases hbuf
  obtain ⟨-, hsome, hread, hwrite⟩ := hwhat
  unfold eventCb at hout
  split_ifs at hout with htimeout
  · cases hout
    exact ⟨by simp, by simp, fun hr => absurd hr hnil⟩
  -- the event is for one of the two, and libevent delivers no other
  rcases hone with hev | hev
  · -- waiting for reading: `handleRead` alone runs
    have hw : what.write = false := by
      cases hw : what.write with
      | false => rfl
      | true => simpa [hev] using hwrite hw
    have hr : what.read = true := by simpa [htimeout, hw] using hsome
    simp only [onRead, hr, if_true, onWrite, hw, Bool.false_eq_true, if_false] at hout
    cases ho : h.fired.handleRead fuel rs with
    | none =>
      rw [ho] at hout
      cases hout
    | some o =>
      obtain ⟨tr₁, r, h₁, rfl, -⟩ := handleRead_spec (fired_inv hi) ho
      obtain ⟨hno, harmed⟩ := handleRead_armed (fired_inv hi) ho
      rw [ho] at hout
      simp only at hout
      split_ifs at hout with hzero
      · cases hout
        exact ⟨by simp, by simp, fun hr => absurd hr hno⟩
      · obtain ⟨ha, ho₁⟩ := harmed (not_not.1 hzero)
        simp only [Option.map_some, Except.map, List.append_nil, ne_eq, not_true_eq_false,
          if_false, Option.some.injEq, Except.ok.injEq, Prod.mk.injEq] at hout
        obtain ⟨rfl, rfl⟩ := hout
        refine ⟨fun h'' he => ?_, fun _ h'' he => ?_, fun hr => absurd hr hno⟩
        · cases he
          exact ho₁
        · cases he
          exact ha
  · -- waiting for writing: `handleWrite` alone runs
    have hr : what.read = false := by
      cases hr : what.read with
      | false => rfl
      | true => simpa [hev] using hread hr
    have hw : what.write = true := by simpa [htimeout, hr] using hsome
    simp only [onRead, hr, Bool.false_eq_true, if_false, onWrite, hw, if_true, ne_eq,
      not_true_eq_false, List.nil_append] at hout
    obtain ⟨o, ho, heq⟩ := Option.map_eq_some_iff.1 hout
    obtain ⟨tr₁, r, h₁, rfl, -⟩ := handleWrite_spec (fired_inv hi) ho
    simp only [Except.map, Except.ok.injEq, Prod.mk.injEq] at heq
    obtain ⟨rfl, rfl⟩ := heq
    rcases handleWrite_armed (fired_inv hi) ho with ⟨hno, harmed⟩ | ⟨hyes, hzero, hsame⟩
    · refine ⟨fun h'' he => ?_, fun _ h'' he => ?_, fun hr => absurd hr hno⟩
      all_goals
        split_ifs at he with hzero
        cases he
      · exact (harmed hzero).2
      · exact (harmed hzero).1
    · rw [if_neg (not_not.2 hzero)]
      refine ⟨fun h'' he => ?_, fun hr => absurd hyes hr, fun _ => ⟨h₁, rfl, ?_⟩⟩
      · cases he
        exact .inr (by rw [hsame]; exact hev)
      · rw [hsame]
        rfl

/-! ### The result of a callback does not depend on the fuel -/

theorem handleRead_unique {h : Handler} {rs : List RecvResult} {m n : ℕ}
    {o₁ o₂ : Except Buffer.Fault (List Syscall × ℤ × Handler)}
    (h₁ : h.handleRead m rs = some o₁) (h₂ : h.handleRead n rs = some o₂) : o₁ = o₂ := by
  unfold handleRead at h₁ h₂
  rcases hrecv : recvLoop rs h.readBuf with _ | _ | ⟨tr, _ | _, rb⟩
  all_goals
    simp only [hrecv] at h₁ h₂
  · cases h₁
  · exact Option.some.inj (h₁.symm.trans h₂)
  · exact Option.some.inj (h₁.symm.trans h₂)
  · obtain ⟨p₁, hp₁, rfl⟩ := Option.map_eq_some_iff.1 h₁
    obtain ⟨p₂, hp₂, rfl⟩ := Option.map_eq_some_iff.1 h₂
    rw [Loop.Ends.unique ⟨m, hp₁⟩ ⟨n, hp₂⟩]

theorem eventCb_unique {h : Handler} {what : What} {rs : List RecvResult} {ws : List WriteResult}
    {m n : ℕ} {o₁ o₂ : Except Buffer.Fault (List Syscall × Option Handler)}
    (h₁ : eventCb m what h rs ws = some o₁) (h₂ : eventCb n what h rs ws = some o₂) : o₁ = o₂ := by
  have hread : ∀ p₁ p₂, h.onRead m what rs = some p₁ → h.onRead n what rs = some p₂ → p₁ = p₂ := by
    intro p₁ p₂ hp₁ hp₂
    unfold onRead at hp₁ hp₂
    split_ifs at hp₁ hp₂
    · exact handleRead_unique hp₁ hp₂
    · exact Option.some.inj (hp₁.symm.trans hp₂)
  unfold eventCb at h₁ h₂
  split_ifs at h₁ h₂ with htimeout
  · exact Option.some.inj (h₁.symm.trans h₂)
  cases hp₁ : h.onRead m what rs with
  | none =>
    rw [hp₁] at h₁
    cases h₁
  | some p₁ =>
    cases hp₂ : h.onRead n what rs with
    | none =>
      rw [hp₂] at h₂
      cases h₂
    | some p₂ =>
      obtain rfl := hread p₁ p₂ hp₁ hp₂
      rw [hp₁] at h₁
      rw [hp₂] at h₂
      exact Option.some.inj (h₁.symm.trans h₂)

theorem connSys_deterministic {allowed : Handler → What → Prop} (c : Conn) (l : Callback)
    (c₁ c₂ : Conn) (h₁ : (connSys allowed).step c l c₁) (h₂ : (connSys allowed).step c l c₂) :
    c₁ = c₂ := by
  obtain ⟨h, hh, -, m, tr, h', hcb, rfl⟩ := h₁
  obtain ⟨k, hk, -, n, tr', k', hcb', rfl⟩ := h₂
  obtain rfl := Option.some.inj (hh.symm.trans hk)
  cases eventCb_unique hcb hcb'
  rfl

/-! ### Runs -/

/-- The invariant of a connection driven by libevent. -/
structure ArmInv (c : Conn) : Prop where
  conn : ConnInv c
  interest : ∀ h, c.handler = some h → h.OneInterest
  armed : ¬ Refused c.log → ∀ h, c.handler = some h → h.Armed

theorem new_armInv : ArmInv ⟨some new, []⟩ := by
  refine ⟨new_connInv, fun h hh => ?_, fun _ h hh => ?_⟩
  · cases hh
    exact new_armed.2
  · cases hh
    exact new_armed.1

theorem refused_append {l l' : List Syscall} : Refused (l ++ l') ↔ Refused l ∨ Refused l' := by
  simp only [Refused, List.mem_append, exists_or]

/-- Every callback keeps the invariant, and a callback in which a `write` is refused leaves a live
handler whose event is not pending. -/
theorem callback_armed {c c' : Conn} {l : Callback} (hc : ArmInv c)
    (hstep : (connSys Delivers).step c l c') :
    ArmInv c' ∧ ∃ tr, c'.log = c.log ++ tr ∧
      (Refused tr → ∃ h, c'.handler = some h ∧ h.ev.pending = false) := by
  have hconn := callback_inv c l c' hc.conn hstep
  obtain ⟨h, hh, hdel, fuel, tr, h', hcb, rfl⟩ := hstep
  obtain ⟨hone, harmed, hstall⟩ :=
    eventCb_armed (hc.conn.live h hh).1 (hc.interest h hh) hdel hcb
  refine ⟨⟨hconn, hone, fun hno => harmed fun hr => hno ?_⟩, tr, rfl, hstall⟩
  exact refused_append.2 (.inr hr)

/-- A run on which some `write` is refused passes through a stalled state. -/
theorem stalled_of_refused {c c' : Conn} {ls : List Callback} (hc : ArmInv c)
    (hno : ¬ Refused c.log) (hrun : (connSys Delivers).Run c ls c') (hr : Refused c'.log) :
    ∃ ls₁ ls₂ c₁, ls = ls₁ ++ ls₂ ∧ (connSys Delivers).Run c ls₁ c₁ ∧
      ∃ h, c₁.handler = some h ∧ h.ev.pending = false := by
  induction hrun with
  | nil => exact absurd hr hno
  | @cons s t u a as hstep hrest ih =>
    obtain ⟨ht, tr, hlog, hstall⟩ := callback_armed hc hstep
    by_cases htr : Refused tr
    · exact ⟨[a], as, t, rfl, .cons hstep (.nil t), hstall htr⟩
    · have hnot : ¬ Refused t.log := by
        rw [hlog, refused_append]
        exact fun h => h.elim hno htr
      obtain ⟨ls₁, ls₂, c₁, rfl, hrun₁, hc₁⟩ := ih ht hnot hr
      exact ⟨a :: ls₁, ls₂, c₁, rfl, .cons hstep hrun₁, hc₁⟩

/-- The log only grows. -/
theorem log_grows {c c' : Conn} {ls : List Callback} (hrun : (connSys Delivers).Run c ls c') :
    c.log <+: c'.log := by
  induction hrun with
  | nil => exact List.prefix_rfl
  | cons hstep _ ih =>
    obtain ⟨h, -, -, fuel, tr, h', -, rfl⟩ := hstep
    exact (List.prefix_append _ tr).trans ih

/-- **Pending events.**  On a run of callbacks delivered by libevent, every state with a live
handler has its event pending, with the interest that fits `write_buf_`, if and only if no
`write` of the run was refused with `EAGAIN` or `EINTR`. -/
theorem armed_iff {ls : List Callback} {c : Conn}
    (hrun : (connSys Delivers).Run ⟨some new, []⟩ ls c) :
    (∀ ls₁ ls₂ c₁, ls = ls₁ ++ ls₂ → (connSys Delivers).Run ⟨some new, []⟩ ls₁ c₁ →
        ∀ h, c₁.handler = some h → h.Armed) ↔
      ∀ buf, .write buf .again ∉ c.log := by
  have hnone : ¬ Refused ([] : List Syscall) := by
    rintro ⟨buf, hbuf⟩
    cases hbuf
  constructor
  · intro harmed buf hbuf
    obtain ⟨ls₁, ls₂, c₁, heq, hrun₁, h, hh, hp⟩ :=
      stalled_of_refused new_armInv hnone hrun ⟨buf, hbuf⟩
    have := (harmed ls₁ ls₂ c₁ heq hrun₁ h hh).pending
    rw [hp] at this
    cases this
  · rintro hnot ls₁ ls₂ c₁ rfl hrun₁ h hh
    obtain ⟨c₂, hpre, hpost⟩ := hrun.split
    obtain rfl := hrun₁.deterministic connSys_deterministic hpre
    have hinv := hrun₁.invariant (fun _ _ _ hs hst => (callback_armed hs hst).1) new_armInv
    refine hinv.armed ?_ h hh
    rintro ⟨buf, hbuf⟩
    exact hnot buf ((log_grows hpost).subset hbuf)

/-- Three bytes come in and all of them go out. -/
def echoCallbacks : List Callback :=
  [⟨{ read := true }, [.data [1, 2, 3]], []⟩, ⟨{ write := true }, [], [.sent 2, .sent 1]⟩]

theorem armed_iff_sample :
    ∃ c h, (connSys Delivers).Run ⟨some new, []⟩ echoCallbacks c ∧ c.handler = some h ∧
      h.Armed := by
  have hrun : ∃ c h, (connSys Delivers).Run ⟨some new, []⟩ echoCallbacks c ∧
      c.handler = some h ∧ c.log = [.recv 4096 (.data [1, 2, 3]), .write [1, 2, 3] (.sent 2),
        .write [3] (.sent 1)] :=
    ⟨_, _, .cons ⟨_, rfl, by decide, 3, _, _, rfl, rfl⟩
      (.cons ⟨_, rfl, by decide, 3, _, _, rfl, rfl⟩ (.nil _)), rfl, rfl⟩
  obtain ⟨c, h, hc, hh, hlog⟩ := hrun
  have hno : ∀ buf, .write buf .again ∉ c.log := by simp [hlog]
  exact ⟨c, h, hc, hh, (armed_iff hc).2 hno _ [] c (List.append_nil _).symm hc h hh⟩

/-- Three bytes come in, and the first `write` is refused. -/
def refusedCallbacks : List Callback :=
  [⟨{ read := true }, [.data [1, 2, 3]], []⟩, ⟨{ write := true }, [], [.again]⟩]

/-- After a refused `write` the handler is alive and its event is not pending. -/
theorem blocked_write_stalls :
    ¬ ∀ ls c, (connSys Delivers).Run ⟨some new, []⟩ ls c →
      ∀ h, c.handler = some h → h.Armed := by
  intro hall
  have hrun : ∃ c h, (connSys Delivers).Run ⟨some new, []⟩ refusedCallbacks c ∧
      c.handler = some h ∧ h.ev.pending = false :=
    ⟨_, _, .cons ⟨_, rfl, by decide, 3, _, _, rfl, rfl⟩
      (.cons ⟨_, rfl, by decide, 3, _, _, rfl, rfl⟩ (.nil _)), rfl, rfl⟩
  obtain ⟨c, h, hc, hh, hp⟩ := hrun
  have := (hall _ c hc h hh).pending
  rw [hp] at this
  cases this

end Handler
end NetService
