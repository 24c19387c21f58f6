import NetService.Ws.Parse

/-!
# What `readData` does after a call of `parseWsHead`

While a frame is unfinished nothing happens.  A complete frame is answered if it is a close or a
ping, handed over if it is a data frame that is alone in the buffer, and otherwise left where it is.
`finish_spec` joins the cases, and `pass_comes` says what a round of the loop comes to.
-/

namespace NetService
namespace Ws

open Memory WsStickyWrap

variable {send : ℕ → ℤ} {s : WsStickyWrap} {k : ℕ} {f : Frame} {rest : List UInt8}

theorem afterParse_unfinished (send : ℕ → ℤ) (h : Unfinished s.deal) :
    afterParse send s = .ok (s, true) := by
  obtain ⟨o, hwbs, hidx⟩ := h
  unfold afterParse
  rw [hwbs]
  simp only
  rw [if_neg (by omega)]

theorem InFrame.calFrameHeadSize {d : WsDealWith} {i : ℕ} (h : InFrame d k f i) :
    d.calFrameHeadSize k = f.headSize := by
  unfold WsDealWith.calFrameHeadSize Frame.headSize
  rw [h.payLoad, f.length_ext]

/-- A complete frame is acted on if it has `fin`. -/
theorem afterParse_complete (send : ℕ → ℤ) (h : Complete s.deal k f rest) :
    afterParse send s = if f.fin = true then s.onFrame send k else .ok (s, true) := by
  have hpos := List.length_pos_iff.2 h.ne
  have hindex := h.frame.index
  have hlen := h.len
  unfold afterParse
  rw [h.frame.wbs]
  simp only
  rw [h.frame.cells.1, f.fin_base]
  refine if_congr (and_iff_left ?_) rfl rfl
  omega

theorem onFrame_eq (h : Complete s.deal k f rest) :
    s.onFrame send k =
      if f.opcod = opClse then s.reply send f.headSize opClse
      else if f.opcod = opPing then s.reply send f.headSize opPing
      else if f.opcod = opPong then .ok (s, true)
      else if f.opcod = opUnsupported then .ok (s, true)
      else s.deliver f.headSize := by
  unfold onFrame
  rw [h.frame.calFrameHeadSize, h.frame.cells.1, f.opcod_base]

/-- A reply is sent from what is in the buffer behind the first `headSize` bytes. -/
theorem reply_eq (h : Complete s.deal k f rest) (type : ℕ) :
    s.reply send f.headSize type =
      .ok ({ s with
        calls := s.calls ++ [.write (sendFrame
          (load s.deal.pData f.headSize (s.deal.dataSize - f.headSize)) type)] },
        decide (0 ≤ send (written s.calls).length)) := by
  have hdata := h.buffered.dataSize
  have hroom := h.buffered.room
  have hcap := h.buffered.cap
  have hsize : f.size = f.headSize + f.payload.length := rfl
  have hwrap : Word.wrap 64 ((s.deal.dataSize : ℤ) - f.headSize) = s.deal.dataSize - f.headSize :=
    Word.wrap_sub (by omega) (by omega)
  unfold reply
  rw [hwrap]
  simp only
  rw [if_pos (by omega)]

/-- A data frame that is alone in the buffer is handed over, and the buffer is empty after it. -/
theorem deliver_eq (h : Complete s.deal 0 f []) :
    s.deliver f.headSize =
      .ok (⟨{ s.deal with dataSize := 0, readSize := 0 }, s.calls ++ [.finishParse f.payload]⟩,
        true) := by
  have hroom := h.buffered.room
  have hcap := h.buffered.cap
  have hsize : f.size = f.headSize + f.payload.length := rfl
  have hdata : s.deal.dataSize = f.headSize + f.payload.length := by
    rw [h.buffered.dataSize, hsize, List.length_nil]
    omega
  have hzero : ((f.headSize + f.payload.length : ℕ) : ℤ) - f.headSize - f.payload.length = 0 := by
    omega
  have hload := h.load
  rw [Nat.zero_add] at hload
  unfold deliver
  simp only [h.len, hdata, hzero]
  rw [if_pos (by rw [Word.wrap_sub (by omega) (by omega)]; omega), show Word.wrap 64 0 = 0 from rfl,
    if_pos (by omega), load_zero, store_nil, hload]
  rfl

/-- With more in the buffer than the head and the payload nothing is handed over. -/
theorem deliver_behind {headsize : ℕ}
    (hmore : s.deal.head.len.toNat < Word.wrap 64 ((s.deal.dataSize : ℤ) - headsize)) :
    s.deliver headsize = .ok (s, false) := by
  unfold deliver
  simp only
  rw [if_neg (not_le.2 hmore)]

/-- A data frame with bytes behind it stays where it is. -/
theorem afterParse_behind (send : ℕ → ℤ) (h : Complete s.deal k f rest) (hdel : f.Delivered)
    (hmore : f.size < s.deal.dataSize) : afterParse send s = .ok (s, false) := by
  obtain ⟨hfin, -, hop⟩ := hdel
  simp only [List.mem_cons, List.not_mem_nil, or_false, not_or] at hop
  obtain ⟨hclse, hping, hpong, hunsup⟩ := hop
  have hsize : f.size = f.headSize + f.payload.length := rfl
  have hroom := h.buffered.room
  have hdata := h.buffered.dataSize
  have hbehind : s.deal.head.len.toNat < Word.wrap 64 ((s.deal.dataSize : ℤ) - f.headSize) := by
    rw [Word.wrap_sub (by omega) (by omega), h.len]
    omega
  rw [afterParse_complete send h, if_pos hfin, onFrame_eq h, if_neg hclse, if_neg hping,
    if_neg hpong, if_neg hunsup]
  exact deliver_behind hbehind

theorem written_append (calls calls' : List Call) :
    written (calls ++ calls') = written calls ++ written calls' :=
  List.filterMap_append

theorem delivered_append (calls calls' : List Call) :
    delivered (calls ++ calls') = delivered calls ++ delivered calls' :=
  List.filterMap_append

/-- After a frame is complete, the parser stands behind it. -/
theorem Complete.holding {d : WsDealWith} (h : Complete d k f rest) (fs : List Frame) :
    Holding d (k + f.size) fs 0 rest := by
  obtain ⟨hcap, hhead, hread, hsize, hroom, hload⟩ := h.buffered
  exact ⟨⟨hcap, hhead, hread, hsize, hroom, hload⟩, .idle h.op⟩

/-- What is done about a complete frame: the parser is ready for the next one, the payload has been
delivered if it is a data frame, and a reply has been sent if it is a close or a ping. -/
structure Finished (send : ℕ → ℤ) (s : WsStickyWrap) (k : ℕ) (f : Frame) (fs : List Frame)
    (rest : List UInt8) (s' : WsStickyWrap) : Prop where
  after : afterParse send s = .ok (s', true)
  holding : Holding s'.deal (if f.Delivered then 0 else k + f.size) fs 0 rest
  delivered : delivered s'.calls =
    delivered s.calls ++ if f.Delivered then [f.payload] else []
  written : (written s'.calls).length = (written s.calls).length + if f.Replied then 1 else 0

/-- A frame that is neither delivered nor answered. -/
theorem finished_stay (fs : List Frame) (h : Complete s.deal k f rest) (hd : ¬ f.Delivered)
    (hr : ¬ f.Replied) (hafter : afterParse send s = .ok (s, true)) :
    Finished send s k f fs rest s := by
  refine ⟨hafter, ?_, ?_, ?_⟩
  · rw [if_neg hd]
    exact h.holding fs
  · rw [if_neg hd, List.append_nil]
  · rw [if_neg hr, Nat.add_zero]

theorem finished_reply {type : ℕ} (fs : List Frame) (h : Complete s.deal k f rest)
    (hd : ¬ f.Delivered) (hr : f.Replied) (hsend : 0 ≤ send (written s.calls).length)
    (hafter : afterParse send s = s.reply send f.headSize type) :
    ∃ s', Finished send s k f fs rest s' := by
  rw [reply_eq h, decide_eq_true hsend] at hafter
  refine ⟨_, hafter, ?_, ?_, ?_⟩
  · rw [if_neg hd]
    exact h.holding fs
  · rw [if_neg hd, delivered_append]
    rfl
  · rw [if_pos hr, written_append]
    exact List.length_append

theorem finished_deliver (fs : List Frame) (h : Complete s.deal 0 f []) (hd : f.Delivered)
    (hr : ¬ f.Replied) (hafter : afterParse send s = s.deliver f.headSize) :
    ∃ s', Finished send s 0 f fs [] s' := by
  rw [deliver_eq h] at hafter
  refine ⟨_, hafter, ?_, ?_, ?_⟩
  · rw [if_pos hd]
    exact ⟨⟨h.buffered.cap, h.buffered.headSize, rfl, rfl, by show 0 < 8192; decide, rfl⟩,
      .idle h.op⟩
  · rw [if_pos hd, delivered_append]
    rfl
  · rw [if_neg hr, written_append]
    exact List.length_append

theorem finish_spec (fs : List Frame) (h : Complete s.deal k f rest)
    (halone : f.Delivered → k = 0 ∧ rest = [])
    (hsend : f.Replied → 0 ≤ send (written s.calls).length) :
    ∃ s', Finished send s k f fs rest s' := by
  have hafter := afterParse_complete send h
  by_cases hfin : f.fin = true
  · rw [if_pos hfin, onFrame_eq h] at hafter
    by_cases hclse : f.opcod = opClse
    · rw [if_pos hclse] at hafter
      have hr : f.Replied := ⟨hfin, h.ne, .inl hclse⟩
      exact finished_reply fs h (fun hd => hd.2.2 (by simp [hclse])) hr (hsend hr) hafter
    by_cases hping : f.opcod = opPing
    · rw [if_neg hclse, if_pos hping] at hafter
      have hr : f.Replied := ⟨hfin, h.ne, .inr hping⟩
      exact finished_reply fs h (fun hd => hd.2.2 (by simp [hping])) hr (hsend hr) hafter
    have hr : ¬ f.Replied := fun hr => hr.2.2.elim hclse hping
    rw [if_neg hclse, if_neg hping] at hafter
    by_cases hpong : f.opcod = opPong
    · rw [if_pos hpong] at hafter
      exact ⟨s, finished_stay fs h (fun hd => hd.2.2 (by simp [hpong])) hr hafter⟩
    by_cases hunsup : f.opcod = opUnsupported
    · rw [if_neg hpong, if_pos hunsup] at hafter
      exact ⟨s, finished_stay fs h (fun hd => hd.2.2 (by simp [hunsup])) hr hafter⟩
    have hd : f.Delivered := ⟨hfin, h.ne, by simp [hclse, hping, hpong, hunsup]⟩
    obtain ⟨rfl, rfl⟩ := halone hd
    rw [if_neg hpong, if_neg hunsup] at hafter
    exact finished_deliver fs h hd hr hafter
  · rw [if_neg hfin] at hafter
    exact ⟨s, finished_stay fs h (fun hd => hfin hd.1) (fun hr => hfin hr.1) hafter⟩

/-- The calls about a complete frame, of which the first `headSize` bytes of the buffer are taken to
be the head. -/
theorem Finished.calls {fs : List Frame} {s' : WsStickyWrap} (hf : Finished send s k f fs rest s')
    (h : Complete s.deal k f rest) (halone : f.Delivered → k = 0 ∧ rest = []) :
    s'.calls = s.calls ++
      if f.Replied then [.write (sendFrame
        (load s.deal.pData f.headSize (s.deal.dataSize - f.headSize)) f.opcod)]
      else if f.Delivered then [.finishParse f.payload] else [] := by
  have hafter := hf.after
  rw [afterParse_complete send h] at hafter
  by_cases hfin : f.fin = true
  case neg =>
    rw [if_neg hfin] at hafter
    rw [if_neg fun hr => hfin hr.1, if_neg fun hd => hfin hd.1, List.append_nil]
    cases hafter
    rfl
  rw [if_pos hfin, onFrame_eq h] at hafter
  -- by the opcode, in the order of the tests in the source
  by_cases hclse : f.opcod = opClse
  · have hr : f.Replied := ⟨hfin, h.ne, .inl hclse⟩
    rw [if_pos hclse, reply_eq h, ← hclse] at hafter
    rw [if_pos hr]
    injection hafter with hafter
    rw [← (Prod.mk.inj hafter).1]
  by_cases hping : f.opcod = opPing
  · have hr : f.Replied := ⟨hfin, h.ne, .inr hping⟩
    rw [if_neg hclse, if_pos hping, reply_eq h, ← hping] at hafter
    rw [if_pos hr]
    injection hafter with hafter
    rw [← (Prod.mk.inj hafter).1]
  rw [if_neg hclse, if_neg hping] at hafter
  rw [if_neg fun hr : f.Replied => hr.2.2.elim hclse hping]
  by_cases hdel : f.Delivered
  · obtain ⟨rfl, rfl⟩ := halone hdel
    have hskip := hdel.2.2
    simp only [List.mem_cons, not_or] at hskip
    rw [if_neg hskip.2.2.1, if_neg hskip.2.2.2.1, deliver_eq h] at hafter
    rw [if_pos hdel]
    cases hafter
    rfl
  · rw [if_neg hdel, List.append_nil]
    by_cases hpong : f.opcod = opPong
    · rw [if_pos hpong] at hafter
      cases hafter
      rfl
    by_cases hunsup : f.opcod = opUnsupported
    · rw [if_neg hpong, if_pos hunsup] at hafter
      cases hafter
      rfl
    · exact absurd ⟨hfin, h.ne, by simp [hclse, hping, hpong, hunsup]⟩ hdel

/-! ### A round of the loop -/

/-- What a round comes to, by what `parseWsHead` and the test behind it return. -/
inductive Comes (send : ℕ → ℤ) (realLen : ℕ) (s : WsStickyWrap) :
    Loop.Pass WsStickyWrap (ℤ × WsStickyWrap) WsFault → Prop
  | fault (e : WsFault) : Comes send realLen s (.fault e)
  | failed {d : WsDealWith}
      (parse : s.deal.parseWsHead s.deal.readSize ((s.deal.dataSize : ℤ) - s.deal.readSize) =
        .ok (d, none)) : Comes send realLen s (.done (realLen, { s with deal := d }))
  | refused {d : WsDealWith} {l : ℕ} {t : WsStickyWrap}
      (parse : s.deal.parseWsHead s.deal.readSize ((s.deal.dataSize : ℤ) - s.deal.readSize) =
        .ok (d, some l))
      (after : afterParse send { s with deal := taken d l } = .ok (t, false)) :
      Comes send realLen s (.done (-1, t))
  | next {d : WsDealWith} {l : ℕ} {t : WsStickyWrap}
      (parse : s.deal.parseWsHead s.deal.readSize ((s.deal.dataSize : ℤ) - s.deal.readSize) =
        .ok (d, some l))
      (after : afterParse send { s with deal := taken d l } = .ok (t, true))
      (more : 0 < (t.deal.dataSize : ℤ) - t.deal.readSize) : Comes send realLen s (.next t)
  | last {d : WsDealWith} {l : ℕ} {t : WsStickyWrap}
      (parse : s.deal.parseWsHead s.deal.readSize ((s.deal.dataSize : ℤ) - s.deal.readSize) =
        .ok (d, some l))
      (after : afterParse send { s with deal := taken d l } = .ok (t, true))
      (used : ¬ 0 < (t.deal.dataSize : ℤ) - t.deal.readSize) :
      Comes send realLen s (.done (realLen, t))

/-- A round in which `parseWsHead` fails is the last one. -/
theorem pass_failed (send : ℕ → ℤ) (realLen : ℕ) {d : WsDealWith}
    (hparse : s.deal.parseWsHead s.deal.readSize ((s.deal.dataSize : ℤ) - s.deal.readSize) =
      .ok (d, none)) : pass send realLen s = .done (realLen, { s with deal := d }) := by
  unfold WsStickyWrap.pass
  simp only [hparse]

/-- A round in which a reply or a delivery leaves the buffers. -/
theorem pass_faults (realLen : ℕ) {d : WsDealWith} {l : ℕ} {e : WsFault}
    (hparse : s.deal.parseWsHead s.deal.readSize ((s.deal.dataSize : ℤ) - s.deal.readSize) =
      .ok (d, some l))
    (hafter : afterParse send { s with deal := taken d l } = .error e) :
    pass send realLen s = .fault e := by
  unfold WsStickyWrap.pass
  simp only [hparse]
  rw [show ({ d with readSize := u16 (d.readSize + l) } : WsDealWith) = taken d l from rfl, hafter]

/-- A round in which it does not. -/
theorem pass_taken (realLen : ℕ) {d : WsDealWith} {l : ℕ} {t : WsStickyWrap} {b : Bool}
    (hparse : s.deal.parseWsHead s.deal.readSize ((s.deal.dataSize : ℤ) - s.deal.readSize) =
      .ok (d, some l))
    (hafter : afterParse send { s with deal := taken d l } = .ok (t, b)) :
    pass send realLen s = if b = true then
      if 0 < (t.deal.dataSize : ℤ) - t.deal.readSize then .next t else .done (realLen, t)
    else .done (-1, t) := by
  unfold WsStickyWrap.pass
  simp only [hparse]
  rw [show ({ d with readSize := u16 (d.readSize + l) } : WsDealWith) = taken d l from rfl, hafter]
  cases b <;> rfl

theorem pass_comes (send : ℕ → ℤ) (realLen : ℕ) (s : WsStickyWrap) :
    Comes send realLen s (pass send realLen s) := by
  cases hparse : s.deal.parseWsHead s.deal.readSize ((s.deal.dataSize : ℤ) - s.deal.readSize) with
  | error e =>
    have hpass : pass send realLen s = .fault e := by
      unfold WsStickyWrap.pass
      simp only [hparse]
    rw [hpass]
    exact .fault e
  | ok x =>
    obtain ⟨d, l⟩ := x
    cases l with
    | none =>
      rw [pass_failed send realLen hparse]
      exact .failed hparse
    | some l =>
      cases hafter : afterParse send { s with deal := taken d l } with
      | error e =>
        rw [pass_faults realLen hparse hafter]
        exact .fault e
      | ok y =>
        obtain ⟨t, b⟩ := y
        rw [pass_taken realLen hparse hafter]
        cases b with
        | false => exact .refused hparse hafter
        | true =>
          rw [if_pos rfl]
          by_cases hmore : 0 < (t.deal.dataSize : ℤ) - t.deal.readSize
          · rw [if_pos hmore]
            exact .next hparse hafter hmore
          · rw [if_neg hmore]
            exact .last hparse hafter hmore

/-! ### A call of `readData` -/

/-- The chunk fits, and the loop is entered. -/
def Enters (s : WsStickyWrap) (chunk : Chunk) : Prop :=
  0 < chunk.bytes.length ∧ (chunk.bytes.length : ℤ) < (s.deal.dataCap : ℤ) - s.deal.dataSize

/-- The object with the chunk behind what `_pData` holds. -/
def stored (s : WsStickyWrap) (chunk : Chunk) : WsStickyWrap :=
  { s with
    deal := { s.deal with
      pData := store s.deal.pData s.deal.dataSize chunk.bytes
      dataSize := u16 (s.deal.dataSize + chunk.bytes.length) } }

/-- `readData` is its loop when the loop is entered. -/
theorem readData_enters {chunk : Chunk} (h : Enters s chunk) (fuel : ℕ) :
    s.readData send fuel chunk.bytes =
      Loop.iter (pass send chunk.bytes.length) fuel (stored s chunk) := by
  unfold readData
  rw [if_pos h.1, if_pos h.2]
  rfl

/-- Otherwise it returns at once, and nothing has changed. -/
theorem readData_refuses (send : ℕ → ℤ) {chunk : Chunk} (h : ¬ Enters s chunk) (fuel : ℕ) :
    ∃ r, s.readData send fuel chunk.bytes = some (.ok (r, s)) := by
  unfold readData
  by_cases hpos : 0 < chunk.bytes.length
  · rw [if_pos hpos, if_neg fun hfits => h ⟨hpos, hfits⟩]
    exact ⟨-1, rfl⟩
  · rw [if_neg hpos]
    exact ⟨0, rfl⟩

end Ws
end NetService
