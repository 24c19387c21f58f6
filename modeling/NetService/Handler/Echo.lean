import NetService.Buffer.Visit
import NetService.Handler.Model

/-!
# Echo integrity of `tl::Handler`

The bytes written to the socket, followed by the content of `write_buf_`, are the bytes received,
after every callback that does not delete the handler.  The three loops have one specification
lemma each; `handleRead_spec` and `handleWrite_spec` combine them, `callback_inv` is the step and
`echo_integrity` the run.
-/

namespace NetService

/-! ### The log -/

/-- The length a system call was issued with. -/
def Syscall.len : Syscall → ℕ
  | .recv len _ => len
  | .write buf _ => buf.length

/-- The bytes a system call received. -/
def Syscall.received : Syscall → List UInt8
  | .recv _ (.data bs) => bs
  | _ => []

/-- The bytes a system call wrote. -/
def Syscall.written : Syscall → List UInt8
  | .write buf (.sent n) => buf.take n
  | _ => []

namespace Handler

/-- The bytes received so far. -/
def received (log : List Syscall) : List UInt8 := log.flatMap Syscall.received

/-- The bytes written so far. -/
def written (log : List Syscall) : List UInt8 := log.flatMap Syscall.written

@[simp] theorem received_nil : received [] = [] := rfl

@[simp] theorem written_nil : written [] = [] := rfl

@[simp] theorem received_cons (c : Syscall) (log : List Syscall) :
    received (c :: log) = c.received ++ received log := rfl

@[simp] theorem written_cons (c : Syscall) (log : List Syscall) :
    written (c :: log) = c.written ++ written log := rfl

@[simp] theorem received_append (l l' : List Syscall) :
    received (l ++ l') = received l ++ received l' := by
  simp [received]

@[simp] theorem written_append (l l' : List Syscall) :
    written (l ++ l') = written l ++ written l' := by
  simp [written]

/-! ### The loops -/

/-- The receiving loop appends what it receives to `read_buf_`. -/
theorem recvLoop_spec {rs : List RecvResult} {rb : Buffer UInt8} (h : rb.Inv)
    {out : Except Buffer.Fault (List Syscall × Bool × Buffer UInt8)}
    (hout : recvLoop rs rb = some out) :
    ∃ tr ok rb', out = .ok (tr, ok, rb') ∧ rb'.Inv ∧ rb'.content = rb.content ++ received tr ∧
      written tr = [] ∧ ∀ c ∈ tr, 1 ≤ c.len := by
  induction rs generalizing rb out with
  | nil => cases hout
  | cons r rs ih =>
    obtain ⟨hinv, hcontent, hroom, hpos⟩ := Buffer.spaceChunk_spec h
    -- a call is for at least one byte: `spaceChunk` never offers an empty region
    have hone : ∀ r', ∀ c ∈ [Syscall.recv rb.spaceChunk.1.2 r'], 1 ≤ c.len := fun r' c hc => by
      rw [List.mem_singleton.1 hc]
      exact hpos
    cases r with
    | closed =>
      cases hout
      exact ⟨_, _, _, rfl, hinv, by simp [hcontent, Syscall.received], rfl, hone _⟩
    | error =>
      cases hout
      exact ⟨_, _, _, rfl, hinv, by simp [hcontent, Syscall.received], rfl, hone _⟩
    | again =>
      cases hout
      exact ⟨_, _, _, rfl, hinv, by simp [hcontent, Syscall.received], rfl, hone _⟩
    | data bs =>
      simp only [recvLoop] at hout
      by_cases hbs : 1 ≤ bs.length ∧ bs.length ≤ rb.spaceChunk.1.2
      case neg =>
        rw [if_neg hbs] at hout
        cases hout
      rw [if_pos hbs] at hout
      obtain ⟨b₁, b₂, hstore, hset, hinv₂, hcontent₂⟩ := Buffer.fill_spec hinv hroom hbs.2
      simp only [hstore, hset] at hout
      split_ifs at hout with hshort
      · -- a short read ends the loop
        cases hout
        exact ⟨_, _, _, rfl, hinv₂, by simp [hcontent₂, hcontent, Syscall.received], rfl, hone _⟩
      · obtain ⟨o, ho, rfl⟩ := Option.map_eq_some_iff.1 hout
        obtain ⟨tr, ok, rb', rfl, hinv', hcontent', hw, hlen⟩ := ih hinv₂ ho
        refine ⟨.recv rb.spaceChunk.1.2 (.data bs) :: tr, ok, rb', rfl, hinv', ?_, hw, ?_⟩
        · simp [hcontent', hcontent₂, hcontent, Syscall.received]
        · intro c hc
          rcases List.mem_cons.1 hc with rfl | hc
          · exact hpos
          · exact hlen c hc

/-- The writing loop removes what it writes from `write_buf_`; it is left empty unless a call
fails, and left by `blocked` exactly when a call reports `EAGAIN`. -/
theorem writeLoop_spec {ws : List WriteResult} {wb : Buffer UInt8} (h : wb.Inv)
    {out : Except Buffer.Fault (List Syscall × WriteExit × Buffer UInt8)}
    (hout : writeLoop ws wb = some out) :
    ∃ tr ex wb', out = .ok (tr, ex, wb') ∧ wb'.Inv ∧ written tr ++ wb'.content = wb.content ∧
      received tr = [] ∧ (∀ c ∈ tr, 1 ≤ c.len) ∧ (ex = .drained → wb'.size = 0) ∧
      (ex = .blocked ↔ ∃ buf, .write buf .again ∈ tr) := by
  induction ws generalizing wb out with
  | nil =>
    simp only [writeLoop] at hout
    split_ifs at hout with hsize
    cases hout
    exact ⟨_, _, _, rfl, h, by simp, rfl, by simp, fun _ => hsize, by simp⟩
  | cons r ws ih =>
    simp only [writeLoop] at hout
    split_ifs at hout with hsize
    · cases hout
      exact ⟨_, _, _, rfl, h, by simp, rfl, by simp, fun _ => hsize, by simp⟩
    -- with bytes in the buffer `dataChunk` gives a non-empty slice, and the slice comes first
    obtain ⟨q, n, hchunk, hpos, hle, hload⟩ := Buffer.dataChunk_spec h (Nat.pos_of_ne_zero hsize)
    have hlen : (wb.content.take n).length = n := by
      rw [List.length_take, ← h.size_eq]
      omega
    have hone : ∀ r', ∀ c ∈ [Syscall.write (wb.content.take n) r'], 1 ≤ c.len := fun r' c hc => by
      rw [List.mem_singleton.1 hc]
      simpa [Syscall.len, hlen] using hpos
    simp only [hchunk, hload] at hout
    cases r with
    | again =>
      cases hout
      exact ⟨_, _, _, rfl, h, by simp [Syscall.written], rfl, hone _, by simp, by simp⟩
    | error =>
      cases hout
      exact ⟨_, _, _, rfl, h, by simp [Syscall.written], rfl, hone _, by simp, by simp⟩
    | sent m =>
      simp only at hout
      split_ifs at hout with hm
      obtain ⟨o, ho, rfl⟩ := Option.map_eq_some_iff.1 hout
      obtain ⟨-, hinv₁, hcontent₁⟩ := Buffer.drain_spec h m
      obtain ⟨tr, ex, wb', rfl, hinv', hcontent', hr, hlens, hdrained, hblocked⟩ := ih hinv₁ ho
      refine ⟨.write (wb.content.take n) (.sent m) :: tr, ex, wb', rfl, hinv', ?_, ?_, ?_,
        hdrained, ?_⟩
      · rw [written_cons, List.append_assoc, hcontent', hcontent₁]
        simp only [Syscall.written, List.take_take, Nat.min_eq_left hm.2, List.take_append_drop]
      · simpa [Syscall.received] using hr
      · intro c hc
        rcases List.mem_cons.1 hc with rfl | hc
        · simpa [Syscall.len, hlen] using hpos
        · exact hlens c hc
      · simpa using hblocked

/-- The echo loop visits `read_buf_` and pushes what it sees. -/
theorem echoBody_eq_visitBody :
    echoBody = Buffer.visitBody fun (wb : Buffer UInt8) buf => (wb.push buf).2 := by
  funext s
  unfold echoBody Buffer.visitBody
  cases s.1.dataChunk with
  | error e => rfl
  | ok r =>
    obtain ⟨q, n⟩ := r
    cases hload : s.1.load q n <;> simp only [hload]

theorem push_all {wb : Buffer UInt8} (h : wb.Inv) (slices : List (List UInt8)) :
    (slices.foldl (fun wb buf => (wb.push buf).2) wb).Inv ∧
      (slices.foldl (fun wb buf => (wb.push buf).2) wb).content = wb.content ++ slices.flatten := by
  induction slices generalizing wb with
  | nil => exact ⟨h, (List.append_nil _).symm⟩
  | cons slice slices ih =>
    obtain ⟨-, h₁, hcontent⟩ := Buffer.push_spec h slice
    obtain ⟨hinv, hall⟩ := ih h₁
    refine ⟨hinv, ?_⟩
    rw [List.foldl_cons, hall, hcontent, List.flatten_cons, List.append_assoc]

/-- The echo loop ends and moves the content of `read_buf_` to the end of `write_buf_`. -/
theorem echoLoop_spec {rb wb : Buffer UInt8} (hr : rb.Inv) (hw : wb.Inv) :
    ∃ rb' wb', Loop.Ends echoBody (rb, wb) (.ok (rb', wb')) ∧ rb'.Inv ∧ rb'.content = [] ∧
      wb'.Inv ∧ wb'.content = wb.content ++ rb.content := by
  obtain ⟨slices, rb', hends, hflat, -, hr', hnil⟩ :=
    Buffer.visitLoop_spec (fun wb buf => (wb.push buf).2) hr wb
  obtain ⟨hw', hcontent⟩ := push_all hw slices
  rw [← echoBody_eq_visitBody] at hends
  rw [hflat] at hcontent
  exact ⟨rb', _, hends, hr', hnil, hw', hcontent⟩

/-! ### The callbacks -/

/-- Both buffers are well formed and nothing is left in `read_buf_`. -/
structure Inv (h : Handler) : Prop where
  readBuf : h.readBuf.Inv
  writeBuf : h.writeBuf.Inv
  empty : h.readBuf.content = []

theorem new_inv : new.Inv := by
  have hempty := Buffer.inv_empty (b := ({} : Buffer UInt8)) rfl rfl (by simp)
  exact ⟨hempty.1, hempty.1, hempty.2⟩

@[simp] theorem rearm_readBuf (h : Handler) : h.rearm.readBuf = h.readBuf := rfl

@[simp] theorem rearm_writeBuf (h : Handler) : h.rearm.writeBuf = h.writeBuf := rfl

theorem rearm_inv {h : Handler} (hi : h.Inv) : h.rearm.Inv := ⟨hi.readBuf, hi.writeBuf, hi.empty⟩

theorem fired_inv {h : Handler} (hi : h.Inv) : h.fired.Inv := ⟨hi.readBuf, hi.writeBuf, hi.empty⟩

/-- `handleRead` appends what it receives to `write_buf_` when it returns zero. -/
theorem handleRead_spec {h : Handler} (hi : h.Inv) {fuel : ℕ} {rs : List RecvResult}
    {out : Except Buffer.Fault (List Syscall × ℤ × Handler)}
    (hout : h.handleRead fuel rs = some out) :
    ∃ tr r h', out = .ok (tr, r, h') ∧ written tr = [] ∧ (∀ c ∈ tr, 1 ≤ c.len) ∧
      (r = 0 → h'.Inv ∧ h'.writeBuf.content = h.writeBuf.content ++ received tr) := by
  unfold handleRead at hout
  cases hrecv : recvLoop rs h.readBuf with
  | none =>
    rw [hrecv] at hout
    cases hout
  | some o =>
    obtain ⟨tr, ok, rb, rfl, hinv, hcontent, hw, hlen⟩ := recvLoop_spec hi.readBuf hrecv
    rw [hrecv] at hout
    cases ok with
    | false =>
      cases hout
      exact ⟨_, _, _, rfl, hw, hlen, by simp⟩
    | true =>
      obtain ⟨o, ho, rfl⟩ := Option.map_eq_some_iff.1 hout
      obtain ⟨rb', wb', hends, hr', hempty, hw', hcontent'⟩ := echoLoop_spec hinv hi.writeBuf
      obtain rfl := Loop.Ends.unique ⟨fuel, ho⟩ hends
      refine ⟨_, _, _, rfl, hw, hlen, fun _ => ⟨rearm_inv ⟨hr', hw', hempty⟩, ?_⟩⟩
      rw [rearm_writeBuf, hcontent', hcontent, hi.empty, List.nil_append]

/-- `handleWrite` removes what it writes from `write_buf_`. -/
theorem handleWrite_spec {h : Handler} (hi : h.Inv) {ws : List WriteResult}
    {out : Except Buffer.Fault (List Syscall × ℤ × Handler)}
    (hout : h.handleWrite ws = some out) :
    ∃ tr r h', out = .ok (tr, r, h') ∧ received tr = [] ∧ (∀ c ∈ tr, 1 ≤ c.len) ∧ h'.Inv ∧
      written tr ++ h'.writeBuf.content = h.writeBuf.content := by
  obtain ⟨o, ho, rfl⟩ := Option.map_eq_some_iff.1 hout
  obtain ⟨tr, ex, wb, rfl, hinv, hcontent, hr, hlen, -⟩ := writeLoop_spec hi.writeBuf ho
  have hinv' : ({ h with writeBuf := wb } : Handler).Inv := ⟨hi.readBuf, hinv, hi.empty⟩
  cases ex with
  | drained => exact ⟨_, _, _, rfl, hr, hlen, rearm_inv hinv', hcontent⟩
  | blocked => exact ⟨_, _, _, rfl, hr, hlen, hinv', hcontent⟩
  | failed => exact ⟨_, _, _, rfl, hr, hlen, hinv', hcontent⟩

/-- A callback that returns has not faulted; the bytes it wrote are the next ones to write, and
unless it deletes the handler the others are in `write_buf_`. -/
theorem eventCb_spec {h : Handler} (hi : h.Inv) {fuel : ℕ} {what : What} {rs : List RecvResult}
    {ws : List WriteResult} {out : Except Buffer.Fault (List Syscall × Option Handler)}
    (hout : eventCb fuel what h rs ws = some out) :
    ∃ tr h', out = .ok (tr, h') ∧ (∀ c ∈ tr, 1 ≤ c.len) ∧
      written tr <+: h.writeBuf.content ++ received tr ∧
      ∀ h'', h' = some h'' →
        h''.Inv ∧ written tr ++ h''.writeBuf.content = h.writeBuf.content ++ received tr := by
  -- `handleRead` may not have run at all
  have hread : ∀ o, h.onRead fuel what rs = some o → ∃ tr r h', o = .ok (tr, r, h') ∧
      written tr = [] ∧ (∀ c ∈ tr, 1 ≤ c.len) ∧
      (r = 0 → h'.Inv ∧ h'.writeBuf.content = h.writeBuf.content ++ received tr) := by
    intro o ho
    unfold onRead at ho
    split_ifs at ho with hw
    · exact handleRead_spec hi ho
    · cases ho
      exact ⟨_, _, _, rfl, rfl, by simp, fun _ => ⟨hi, by simp⟩⟩
  unfold eventCb at hout
  split_ifs at hout with htimeout
  · cases hout
    exact ⟨_, _, rfl, by simp, by simp, by simp⟩
  cases ho : h.onRead fuel what rs with
  | none =>
    rw [ho] at hout
    cases hout
  | some o =>
    obtain ⟨tr, r, h₁, rfl, hwr, hlen, hzero⟩ := hread o ho
    rw [ho] at hout
    simp only at hout
    split_ifs at hout with hr
    · cases hout
      exact ⟨_, _, rfl, hlen, by simp [hwr], by simp⟩
    · obtain ⟨hi₁, hcontent₁⟩ := hzero (not_not.1 hr)
      obtain ⟨o, ho', rfl⟩ := Option.map_eq_some_iff.1 hout
      -- and neither `handleWrite`, on what `handleRead` has left
      have hwrite : ∃ tr' r' h', o = .ok (tr', r', h') ∧ received tr' = [] ∧
          (∀ c ∈ tr', 1 ≤ c.len) ∧ h'.Inv ∧
          written tr' ++ h'.writeBuf.content = h₁.writeBuf.content := by
        unfold onWrite at ho'
        split_ifs at ho' with hw
        · exact handleWrite_spec hi₁ ho'
        · cases ho'
          exact ⟨_, _, _, rfl, rfl, by simp, hi₁, by simp⟩
      obtain ⟨tr', r', h₂, rfl, hrcv, hlen', hi₂, hcontent₂⟩ := hwrite
      refine ⟨_, _, rfl, ?_, ⟨h₂.writeBuf.content, ?_⟩, ?_⟩
      · intro c hc
        rcases List.mem_append.1 hc with hc | hc
        · exact hlen c hc
        · exact hlen' c hc
      · simp [hwr, hrcv, hcontent₂, hcontent₁]
      · intro h'' heq
        split_ifs at heq
        cases heq
        exact ⟨hi₂, by simp [hwr, hrcv, hcontent₂, hcontent₁]⟩

/-! ### Runs -/

/-- The invariant of a connection. -/
structure ConnInv (c : Conn) : Prop where
  len_pos : ∀ call ∈ c.log, 1 ≤ call.len
  prefix_log : written c.log <+: received c.log
  live : ∀ h, c.handler = some h →
    h.Inv ∧ written c.log ++ h.writeBuf.content = received c.log

theorem new_connInv : ConnInv ⟨some new, []⟩ := by
  refine ⟨by simp, List.prefix_rfl, fun h hh => ?_⟩
  cases hh
  exact ⟨new_inv, rfl⟩

variable {allowed : Handler → What → Prop}

/-- Every callback keeps the invariant. -/
theorem callback_inv (c : Conn) (l : Callback) (c' : Conn) (hc : ConnInv c)
    (hstep : (connSys allowed).step c l c') : ConnInv c' := by
  obtain ⟨h, hh, -, fuel, tr, h', hcb, rfl⟩ := hstep
  obtain ⟨hi, hlog⟩ := hc.live h hh
  obtain ⟨tr₁, h₁, heq, hlen, hpre, hlive⟩ := eventCb_spec (fired_inv hi) hcb
  cases heq
  refine ⟨fun call hcall => ?_, ?_, fun h'' hh'' => ?_⟩
  · rcases List.mem_append.1 hcall with hcall | hcall
    · exact hc.len_pos call hcall
    · exact hlen call hcall
  · simp only [written_append, received_append, ← hlog, List.append_assoc]
    exact (List.prefix_append_right_inj _).2 hpre
  · obtain ⟨hi'', hcontent⟩ := hlive h'' hh''
    refine ⟨hi'', ?_⟩
    simp only [written_append, received_append, ← hlog, List.append_assoc, hcontent]
    rfl

/-- **Echo integrity.**  After any callbacks on one handler, with any results of `recv` and
`write`: unless the handler was deleted, the bytes written and then the content of `write_buf_`
are the bytes received, and `read_buf_` is empty; what was written is a prefix of what was
received; every system call was issued with a positive length; no callback faults, and
`handleRead` returns once its `recv` calls are over. -/
theorem echo_integrity {ls : List Callback} {c : Conn}
    (hrun : (connSys fun _ _ => True).Run ⟨some new, []⟩ ls c) :
    (∀ h, c.handler = some h →
        written c.log ++ h.writeBuf.content = received c.log ∧
          h.readBuf.content = [] ∧ h.readBuf.size = 0) ∧
      written c.log <+: received c.log ∧ (∀ call ∈ c.log, 1 ≤ call.len) ∧
      ∀ h, c.handler = some h → ∀ what rs ws,
        (∀ fuel e, eventCb fuel what h.fired rs ws ≠ some (.error e)) ∧
          ∀ tr rb, recvLoop rs h.fired.readBuf = some (.ok (tr, true, rb)) →
            ∃ fuel x, h.fired.handleRead fuel rs = some (.ok x) := by
  have hc := hrun.invariant callback_inv new_connInv
  refine ⟨fun h hh => ?_, hc.prefix_log, hc.len_pos, fun h hh what rs ws => ⟨?_, ?_⟩⟩
  · obtain ⟨hi, hlog⟩ := hc.live h hh
    exact ⟨hlog, hi.empty, by rw [hi.readBuf.size_eq, hi.empty]; rfl⟩
  · intro fuel e he
    obtain ⟨tr, h', heq, -⟩ := eventCb_spec (fired_inv (hc.live h hh).1) he
    cases heq
  · intro tr rb hrecv
    have hi := fired_inv (hc.live h hh).1
    obtain ⟨tr', ok', rb', heq, hinv, -⟩ := recvLoop_spec hi.readBuf hrecv
    cases heq
    obtain ⟨rb₁, wb₁, ⟨fuel, hiter⟩, -⟩ := echoLoop_spec hinv hi.writeBuf
    exact ⟨fuel, _, by simp only [handleRead, hrecv, hiter]; rfl⟩

/-- Three bytes come in; two of them go out before the socket is full, then the last one. -/
def sampleCallbacks : List Callback :=
  [⟨{ read := true }, [.data [1, 2, 3]], []⟩, ⟨{ write := true }, [], [.sent 2, .again]⟩,
    ⟨{ write := true }, [], [.sent 1]⟩]

theorem echo_integrity_sample :
    ∃ c h, (connSys fun _ _ => True).Run ⟨some new, []⟩ sampleCallbacks c ∧ c.handler = some h ∧
      written c.log = [1, 2, 3] ∧ written c.log ++ h.writeBuf.content = received c.log := by
  have hrun : ∃ c h, (connSys fun _ _ => True).Run ⟨some new, []⟩ sampleCallbacks c ∧
      c.handler = some h ∧ written c.log = [1, 2, 3] :=
    ⟨_, _, .cons ⟨_, rfl, trivial, 3, _, _, rfl, rfl⟩ (.cons ⟨_, rfl, trivial, 3, _, _, rfl, rfl⟩
      (.cons ⟨_, rfl, trivial, 3, _, _, rfl, rfl⟩ (.nil _))), rfl, rfl⟩
  obtain ⟨c, h, hc, hh, hw⟩ := hrun
  exact ⟨c, h, hc, hh, hw, ((echo_integrity hc).1 h hh).1⟩

end Handler
end NetService
