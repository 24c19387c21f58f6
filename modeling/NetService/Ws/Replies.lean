import NetService.Ws.Delivery

/-!
# Replies to ping and close frames

The reply is cut out of `_pData` from `CalFrameHeadSize()` to `_Data_size`, under the opcode of the
frame, and only for a frame with a payload.  It is the right one for a close frame that is alone in
the buffer; a ping is answered with a ping, or not at all.  `answered_iff` says when all replies of a
run are right, and `ping_answered_with_ping` shows a run in which one is not.
-/

namespace NetService
namespace Ws

open Memory WsStickyWrap

variable {send : ℕ → ℤ} {c : Cursor} {s : WsStickyWrap} {k n : ℕ} {f : Frame} {fs : List Frame}
  {rest : List UInt8}

/-! ### What the replies should be -/

/-- A ping or close frame. -/
def Frame.Control (f : Frame) : Prop := f.opcod = opClse ∨ f.opcod = opPing

instance (f : Frame) : Decidable f.Control :=
  inferInstanceAs (Decidable (_ ∨ _))

/-- The opcode of the reply to a ping or close frame. -/
def Frame.replyOp (f : Frame) : ℕ := if f.opcod = opPing then opPong else opClse

/-- A ping or close frame has `fin`, and a payload of at most 125 bytes. -/
def Frame.WellFormed (f : Frame) : Prop := f.Control → f.fin = true ∧ f.payload.length ≤ 125

/-- The calls that were made about the frames, one after the other: one reply for each ping or close
frame, with its payload, and none for the others. -/
inductive Answers : List Frame → List Call → Prop
  | nil : Answers [] []
  | control {f : Frame} {fs : List Frame} {calls : List Call} (control : f.Control)
      (rest : Answers fs calls) :
      Answers (f :: fs) (.write (sendFrame f.payload f.replyOp) :: calls)
  | other {f : Frame} {fs : List Frame} {acts calls : List Call} (other : ¬ f.Control)
      (quiet : written acts = []) (rest : Answers fs calls) : Answers (f :: fs) (acts ++ calls)

theorem Answers.append {gs : List Frame} {calls calls' : List Call} (h : Answers fs calls)
    (h' : Answers gs calls') : Answers (fs ++ gs) (calls ++ calls') := by
  induction h with
  | nil => exact h'
  | control hcontrol _ ih => exact .control hcontrol ih
  | @other f fs acts calls hother hquiet _ ih =>
    rw [List.append_assoc]
    exact .other hother hquiet ih

/-- The byte strings that should be sent about the frames. -/
def replies (fs : List Frame) : List (List UInt8) :=
  (fs.filter fun f => f.Control).map fun f => sendFrame f.payload f.replyOp

theorem replies_append (fs gs : List Frame) : replies (fs ++ gs) = replies fs ++ replies gs := by
  unfold replies
  rw [List.filter_append, List.map_append]

theorem replies_cons (f : Frame) (fs : List Frame) : replies (f :: fs) =
    (if f.Control then [sendFrame f.payload f.replyOp] else []) ++ replies fs := by
  unfold replies
  by_cases h : f.Control <;> simp [h]

theorem Answers.written {calls : List Call} (h : Answers fs calls) : written calls = replies fs := by
  induction h with
  | nil => rfl
  | @control f fs calls hcontrol _ ih =>
    rw [replies_cons, if_pos hcontrol, ← ih]
    rfl
  | @other f fs acts calls hother hquiet _ ih =>
    rw [replies_cons, if_neg hother, written_append, hquiet, ih]

/-- Calls about the frames among which a reply is missing or is not the right one. -/
def Misses (fs : List Frame) (calls : List Call) : Prop :=
  (Ws.written calls).length ≤ (replies fs).length ∧ Ws.written calls ≠ replies fs

theorem Answers.not_misses {calls : List Call} (h : Answers fs calls) : ¬ Misses fs calls :=
  fun hmisses => hmisses.2 h.written

/-- No later reply makes up for it. -/
theorem Misses.append {gs : List Frame} {calls calls' : List Call} (h : Misses fs calls)
    (hle : (Ws.written calls').length ≤ (replies gs).length) :
    Misses (fs ++ gs) (calls ++ calls') := by
  obtain ⟨hshort, hne⟩ := h
  refine ⟨?_, fun heq => hne ?_⟩
  · rw [written_append, replies_append, List.length_append, List.length_append]
    omega
  · rw [written_append, replies_append] at heq
    have hlen := congrArg List.length heq
    rw [List.length_append, List.length_append] at hlen
    exact (List.append_inj heq (by omega)).1

theorem Answers.append_misses {gs : List Frame} {calls calls' : List Call} (h : Answers fs calls)
    (h' : Misses gs calls') : Misses (fs ++ gs) (calls ++ calls') := by
  obtain ⟨hshort, hne⟩ := h'
  unfold Misses
  rw [written_append, replies_append, h.written, List.length_append, List.length_append]
  exact ⟨by omega, fun heq => hne (List.append_cancel_left heq)⟩

/-- However many of `chunks` have been received, no `readData` has failed or is still running, and
the frames that are complete have been answered. -/
def Answered (send : ℕ → ℤ) (m : ℕ → UInt8) (junk : WsHead) (fs : List Frame)
    (chunks : List Chunk) : Prop :=
  ∀ pre post, chunks = pre ++ post → ∃ s, (system send m junk).Run (new m junk) pre s ∧
    Answers (completed fs (received pre).length) s.calls

/-! ### The bytes of a short reply -/

theorem sendFrame_short {data : List UInt8} (h : data.length ≤ 125) (type : ℕ) :
    sendFrame data type = UInt8.ofNat (128 ||| type) ::
      ((UInt64.ofNat data.length).toUInt8 &&& 0x7F) :: (data ++ [0]) := by
  have hle : UInt64.ofNat data.length ≤ 125 := by
    rw [UInt64.le_iff_toNat_le, UInt64.toNat_ofNat']
    exact (Nat.mod_le _ _).trans h
  unfold sendFrame frameHead
  simp only [if_pos hle]
  rfl

theorem length_sendFrame (data : List UInt8) (type : ℕ) :
    data.length + 3 ≤ (sendFrame data type).length := by
  unfold sendFrame frameHead
  simp only
  split_ifs <;> simp only [List.length_append, List.length_cons, List.length_nil] <;> omega

/-- A reply with the bytes of a short one has its first byte and its payload. -/
theorem sendFrame_eq_short {data payload : List UInt8} {type type' : ℕ} (h : payload.length ≤ 125)
    (heq : sendFrame data type = sendFrame payload type') :
    UInt8.ofNat (128 ||| type) = UInt8.ofNat (128 ||| type') ∧ data = payload := by
  have hlen := length_sendFrame data type
  rw [heq, sendFrame_short h, List.length_cons, List.length_cons, List.length_append,
    List.length_singleton] at hlen
  rw [sendFrame_short (by omega), sendFrame_short h] at heq
  injection heq with hfirst heq
  injection heq with _ heq
  exact ⟨hfirst, List.append_cancel_right heq⟩

/-! ### When they are -/

/-- The reply to a ping or close frame, complete behind `k` other bytes in `_pData` and with `r`
behind it, is the right one. -/
def Frame.AnsweredAt (f : Frame) (k r : ℕ) : Prop :=
  f.Control → f.opcod = opClse ∧ f.payload ≠ [] ∧ k = 0 ∧ r = 0

instance (f : Frame) (k r : ℕ) : Decidable (f.AnsweredAt k r) :=
  inferInstanceAs (Decidable (_ → _))

/-- Of the frames that are complete after `e` bytes, behind `kept` others, only close frames with a
payload are to be answered, each alone in the buffer when it is complete. -/
def Answerable : ℕ → List Frame → ℕ → Prop
  | _, [], _ => True
  | kept, f :: fs, e =>
      e < f.size ∨ f.AnsweredAt kept (e - f.size) ∧
        Answerable (if f.Delivered then 0 else kept + f.size) fs (e - f.size)

instance decidableAnswerable : ∀ kept fs e, Decidable (Answerable kept fs e)
  | _, [], _ => .isTrue trivial
  | kept, f :: fs, e =>
      have := decidableAnswerable (if f.Delivered then 0 else kept + f.size) fs (e - f.size)
      inferInstanceAs (Decidable (e < f.size ∨ f.AnsweredAt kept (e - f.size) ∧
        Answerable (if f.Delivered then 0 else kept + f.size) fs (e - f.size)))

/-- Where the parser waits, no frame is complete. -/
theorem Waiting.answerable (h : Waiting send c s) : Answerable c.kept c.frames c.got := by
  obtain ⟨k, fs, n⟩ := c
  have hwithin := h.holding.standing.within
  cases fs with
  | nil => trivial
  | cons f fs => exact .inl hwithin

/-- No frame has more replies than it should have. -/
theorem Frame.Acts.le {acts : List Call} (h : f.Acts k rest acts) :
    (written acts).length ≤ (replies [f]).length := by
  unfold Frame.Acts at h
  by_cases hr : f.Replied
  · rw [if_pos hr] at h
    obtain ⟨data, rfl, -⟩ := h
    have hcontrol : f.Control := hr.2.2
    rw [replies_cons, if_pos hcontrol]
    exact Nat.le_refl 1
  · rw [if_neg hr] at h
    rw [h]
    exact Nat.zero_le _

/-- A reply has the payload of its frame if and only if the frame is alone in the buffer. -/
theorem reply_right_iff {data : List UInt8} (hcontrol : f.Control) (hwell : f.WellFormed)
    (hlen : data.length = k + f.payload.length + rest.length)
    (halone : k = 0 → rest = [] → data = f.payload) :
    sendFrame data f.opcod = sendFrame f.payload f.replyOp ↔
      f.opcod = opClse ∧ k = 0 ∧ rest.length = 0 := by
  constructor
  · intro heq
    obtain ⟨hfirst, rfl⟩ := sendFrame_eq_short (hwell hcontrol).2 heq
    refine ⟨hcontrol.resolve_right fun hping => ?_, by omega, by omega⟩
    -- the first byte of a ping is not that of a pong
    unfold Frame.replyOp at hfirst
    rw [if_pos hping, hping] at hfirst
    exact absurd hfirst (by decide)
  · rintro ⟨hclse, hk, hrest⟩
    rw [halone hk (List.length_eq_zero_iff.1 hrest)]
    unfold Frame.replyOp
    rw [hclse]
    rfl

/-- A frame that is complete is answered as it should be, or never will be. -/
theorem answers_frame {acts : List Call} (hwell : f.WellFormed) (habout : f.Acts k rest acts) :
    Answers [f] acts ∧ f.AnsweredAt k rest.length ∨
      Misses [f] acts ∧ ¬ f.AnsweredAt k rest.length := by
  have hle := habout.le
  unfold Frame.Acts at habout
  by_cases hcontrol : f.Control
  case neg =>
    rw [if_neg fun hr : f.Replied => hcontrol hr.2.2] at habout
    rw [← List.append_nil acts]
    exact .inl ⟨.other hcontrol habout .nil, fun h => absurd h hcontrol⟩
  by_cases hne : f.payload = []
  · rw [if_neg fun hr : f.Replied => hr.2.1 hne] at habout
    refine .inr ⟨⟨hle, ?_⟩, fun h => (h hcontrol).2.1 hne⟩
    rw [habout, replies_cons, if_pos hcontrol]
    exact (List.cons_ne_nil _ _).symm
  · have hr : f.Replied := ⟨(hwell hcontrol).1, hne, hcontrol⟩
    rw [if_pos hr] at habout
    obtain ⟨data, rfl, hlen, halone⟩ := habout
    have hiff := reply_right_iff hcontrol hwell hlen halone
    by_cases hright : sendFrame data f.opcod = sendFrame f.payload f.replyOp
    · obtain ⟨hclse, hk, hrest⟩ := hiff.1 hright
      rw [hright]
      exact .inl ⟨.control hcontrol .nil, fun _ => ⟨hclse, hne, hk, hrest⟩⟩
    · refine .inr ⟨⟨hle, fun heq => hright ?_⟩, fun h => hright ?_⟩
      · rw [replies_cons, if_pos hcontrol] at heq
        exact (List.cons.inj heq).1
      · obtain ⟨hclse, -, hk, hrest⟩ := h hcontrol
        exact hiff.2 ⟨hclse, hk, hrest⟩

/-- With the frames that the bytes complete, those before are `gs`; they have been answered, and all
of `gs` will be if and only if `ok`, or they have not and `ok` is false. -/
structure Answering (ok : Prop) (gs : List Frame) (s : WsStickyWrap) (k : ℕ) (fs : List Frame) (n : ℕ)
    (rest : List UInt8) : Prop where
  wellFormed : ∀ f ∈ fs, f.WellFormed
  outcome : ∃ before, before ++ completed fs (n + rest.length) = gs ∧
    (Answers before s.calls ∧ (Answerable k fs (n + rest.length) ↔ ok) ∨
      Misses before s.calls ∧ ¬ ok)

theorem answering_keeps (ok : Prop) (gs : List Frame) : Keeps (Answering ok gs) := by
  intro s k fs n rest s' k' fs' n' rest' h hwent
  obtain ⟨hwell, before, hgs, hcase⟩ := h
  cases hwent with
  | within calls sum =>
    refine ⟨hwell, before, ?_, ?_⟩
    · rw [sum]
      exact hgs
    · rw [sum, calls]
      exact hcase
  | @behind f _ n rest rest' s' acts calls sum about =>
    have hge : f.size ≤ n + rest.length := by omega
    have hleft : n + rest.length - f.size = 0 + rest'.length := by omega
    have hright : Answerable k (f :: fs') (n + rest.length) ↔ f.AnsweredAt k rest'.length ∧
        Answerable (if f.Delivered then 0 else k + f.size) fs' (0 + rest'.length) := by
      have hlt : ¬ n + rest.length < f.size := by omega
      rw [Answerable, hleft, Nat.zero_add]
      exact or_iff_right hlt
    rw [completed_of_le hge, hleft] at hgs
    refine ⟨fun g hg => hwell g (List.mem_cons_of_mem f hg), before ++ [f], ?_, ?_⟩
    · rw [← hgs, List.append_assoc]
      rfl
    rw [calls]
    rcases hcase with ⟨hanswers, hok⟩ | ⟨hmisses, hok⟩
    · rw [hright] at hok
      rcases answers_frame (hwell f List.mem_cons_self) about with ⟨hf, hat⟩ | ⟨hf, hat⟩
      · exact .inl ⟨hanswers.append hf, (and_iff_right hat).symm.trans hok⟩
      · exact .inr ⟨hanswers.append_misses hf, fun h => hat (hok.2 h).1⟩
    · exact .inr ⟨hmisses.append about.le, hok⟩

theorem cursor_suffix (k : ℕ) (fs : List Frame) (e : ℕ) : (cursor k fs e).frames <:+ fs := by
  induction fs generalizing k e with
  | nil => exact List.suffix_rfl
  | cons f fs ih =>
    by_cases h : e < f.size
    · rw [cursor_of_lt h]
    · rw [cursor_of_le (by omega)]
      exact (ih _ _).trans (List.suffix_cons f fs)

/-- A chunk of `r` bytes completes no ping or close frame that is not answered as it should be. -/
def Cursor.AnswersRight (c : Cursor) (r : ℕ) : Prop := Answerable c.kept c.frames (c.got + r)

instance (c : Cursor) (r : ℕ) : Decidable (c.AnswersRight r) :=
  inferInstanceAs (Decidable (Answerable _ _ _))

/-- One chunk. -/
theorem readData_answers {pre post : List Chunk} {chunk : Chunk} (hfs : ∀ f ∈ fs, f.WellFormed)
    (hcut : received (pre ++ chunk :: post) <+: wire fs)
    (htakes : (cursor k fs (received pre).length).Takes chunk.bytes.length)
    (h : Waiting send (cursor k fs (received pre).length) s)
    (hanswers : Answers (completed fs (received pre).length) s.calls) :
    ∃ s', Reads send s chunk s' ∧
      (Answers (completed fs (received (pre ++ [chunk])).length) s'.calls ↔
        (cursor k fs (received pre).length).AnswersRight chunk.bytes.length) := by
  have hlen : (received (pre ++ [chunk])).length = (received pre).length + chunk.bytes.length := by
    rw [received_append, List.length_append, length_received_cons]
    rfl
  have hchunk : chunk.bytes <+: (wire fs).drop (received pre).length := by
    rw [received_append] at hcut
    have hdrop := hcut.drop (received pre).length
    rw [List.drop_left] at hdrop
    exact (List.prefix_append _ _).trans hdrop
  rw [hlen]
  generalize (received pre).length = e at *
  have hstart : ∀ t : WsStickyWrap, t.calls = s.calls →
      Answering ((cursor k fs e).AnswersRight chunk.bytes.length)
        (completed fs (e + chunk.bytes.length)) t (cursor k fs e).kept (cursor k fs e).frames
        (cursor k fs e).got chunk.bytes := fun t ht =>
    ⟨fun f hf => hfs f ((cursor_suffix k fs e).subset hf), completed fs e,
      (completed_add k fs e _).symm, .inl ⟨ht ▸ hanswers, Iff.rfl⟩⟩
  obtain ⟨s', hreads, hwait, -, hall⟩ :=
    readData_keeps (answering_keeps _ _) h chunk (cursor_ahead hchunk) htakes hstart
  obtain ⟨before, hgs, hcase⟩ := hall.outcome
  rw [List.length_nil, Nat.add_zero] at hgs hcase
  rw [hwait.holding.standing.completed_eq, List.append_nil] at hgs
  subst hgs
  refine ⟨s', hreads, ?_⟩
  rcases hcase with ⟨hright, hok⟩ | ⟨hmisses, hok⟩
  · exact iff_of_true hright (hok.1 hwait.answerable)
  · exact iff_of_false (fun hright => hright.not_misses hmisses) hok

/-! ### Runs -/

theorem reads_deterministic {m : ℕ → UInt8} {junk : WsHead} (s : WsStickyWrap) (chunk : Chunk)
    (t t' : WsStickyWrap) (h : (system send m junk).step s chunk t)
    (h' : (system send m junk).step s chunk t') : t = t' := by
  obtain ⟨i, r, hr, -⟩ := h
  obtain ⟨j, r', hr', -⟩ := h'
  have heq := readData_unique hr hr'
  injection heq with heq
  exact (Prod.mk.inj heq).2

/-- After every run in which the parser can take each chunk where it stands, it waits for the next
one. -/
theorem waits_of_takes (m : ℕ → UInt8) (junk : WsHead) {chunks : List Chunk}
    (hcut : received chunks <+: wire fs)
    (hsend : ∀ i < (fs.filter fun f => f.Replied).length, 0 ≤ send i)
    (htakes : ∀ pre chunk post, chunks = pre ++ chunk :: post →
      (cursor 0 fs (received pre).length).Takes chunk.bytes.length) :
    ∀ pre post, chunks = pre ++ post → ∃ s, (system send m junk).Run (new m junk) pre s ∧
      Waiting send (cursor 0 fs (received pre).length) s := by
  have hstart := new_waiting m junk hsend
  rw [← hstart.holding.standing.cursor_eq] at hstart
  have hruns := runs_from (Q := fun e s => Waiting send (cursor 0 fs e) s)
    (C := fun e chunk => (cursor 0 fs e).Takes chunk.bytes.length) m junk ?_ chunks hstart hstart
    hcut ?_
  · intro pre post heq
    obtain ⟨s, hrun, hwait⟩ := hruns pre post heq
    rw [Nat.zero_add] at hwait
    exact ⟨s, hrun, hwait⟩
  · intro e s chunk h _ hchunk htakes
    obtain ⟨s', hreads, hwait, -⟩ := readData_spec h chunk (cursor_ahead hchunk) htakes
    rw [cursor_add] at hwait
    exact ⟨s', hreads, hwait, hwait⟩
  · intro pre chunk post heq
    rw [Nat.zero_add]
    exact htakes pre chunk post heq

/-- In a run in which the parser can take each chunk where it stands, and no reply is refused, the
frames are answered as they should be if and only if no chunk completes a ping or close frame other
than a close with a payload that is then alone in the buffer. -/
theorem answered_iff (send : ℕ → ℤ) (m : ℕ → UInt8) (junk : WsHead) (fs : List Frame)
    (chunks : List Chunk) (hfs : ∀ f ∈ fs, f.WellFormed) (hcut : received chunks <+: wire fs)
    (hsend : ∀ i < (fs.filter fun f => f.Replied).length, 0 ≤ send i)
    (htakes : ∀ pre chunk post, chunks = pre ++ chunk :: post →
      (cursor 0 fs (received pre).length).Takes chunk.bytes.length) :
    Answered send m junk fs chunks ↔ ∀ pre chunk post, chunks = pre ++ chunk :: post →
      (cursor 0 fs (received pre).length).AnswersRight chunk.bytes.length := by
  have hwaits := waits_of_takes m junk hcut hsend htakes
  constructor
  · intro h pre chunk post heq
    obtain ⟨s, hrun, hanswers⟩ := h pre (chunk :: post) heq
    obtain ⟨s₀, hrun₀, hwait⟩ := hwaits pre (chunk :: post) heq
    obtain rfl := hrun.deterministic reads_deterministic hrun₀
    obtain ⟨s', hreads, hiff⟩ :=
      readData_answers hfs (heq ▸ hcut) (htakes pre chunk post heq) hwait hanswers
    obtain ⟨s₁, hrun₁, hanswers₁⟩ := h (pre ++ [chunk]) post (by rw [heq, List.append_cons])
    obtain rfl := hrun₁.deterministic reads_deterministic (hrun.append (.cons hreads (.nil _)))
    exact hiff.1 hanswers₁
  · intro hright pre
    -- chunk by chunk, every frame is answered
    induction pre using List.reverseRecOn with
    | nil =>
      intro post _
      have hnone := (new_waiting m junk hsend).holding.standing.completed_eq
      exact ⟨new m junk, .nil _, by rw [show (received []).length = 0 from rfl, hnone]; exact .nil⟩
    | append_singleton pre chunk ih =>
      intro post heq
      rw [← List.append_cons] at heq
      obtain ⟨s, hrun, hanswers⟩ := ih (chunk :: post) heq
      obtain ⟨s₀, hrun₀, hwait⟩ := hwaits pre (chunk :: post) heq
      obtain rfl := hrun.deterministic reads_deterministic hrun₀
      obtain ⟨s', hreads, hiff⟩ :=
        readData_answers hfs (heq ▸ hcut) (htakes pre chunk post heq) hwait hanswers
      exact ⟨s', hrun.append (.cons hreads (.nil _)), hiff.2 (hright pre chunk post heq)⟩

/-- A close frame with one byte of payload, under the masking key 0. -/
def closeFrame (b : UInt8) : Frame :=
  { textFrame b with opcod := opClse, opcod_lt := by decide }

/-- A ping with one byte of payload, under the masking key 0. -/
def pingFrame (b : UInt8) : Frame :=
  { textFrame b with opcod := opPing, opcod_lt := emptyPing.opcod_lt }

/-- A text frame and a close frame, each in a chunk of its own. -/
def closingChunks : List Chunk :=
  [⟨[129, 129, 0, 0, 0, 0, 67], by decide⟩, ⟨[136, 129, 0, 0, 0, 0, 66], by decide⟩]

theorem answered_iff_sample :
    Answered (fun _ => 4) (fun _ => 0) ⟨none, 0, fun _ => 0⟩ [textFrame 67, closeFrame 66]
      closingChunks := by
  refine (answered_iff (fun _ => 4) (fun _ => 0) ⟨none, 0, fun _ => 0⟩ [textFrame 67, closeFrame 66]
    closingChunks ?_ (by decide) (fun _ _ => by decide) ?_).2 ?_
  · rw [List.forall_mem_cons, List.forall_mem_singleton]
    exact ⟨fun _ => ⟨rfl, show 1 ≤ 125 by decide⟩, fun _ => ⟨rfl, show 1 ≤ 125 by decide⟩⟩
  · unfold closingChunks
    rw [Stream.forall_split_cons, Stream.forall_split_cons]
    refine ⟨by decide, by decide, fun pre chunk post heq => ?_⟩
    simp at heq
  · unfold closingChunks
    rw [Stream.forall_split_cons, Stream.forall_split_cons]
    refine ⟨by decide, by decide, fun pre chunk post heq => ?_⟩
    simp at heq

/-- A ping that arrives alone: the reply is a ping. -/
theorem ping_answered_with_ping :
    (pingFrame 65).WellFormed ∧
    received [⟨[137, 129, 0, 0, 0, 0, 65], by decide⟩] = wire [pingFrame 65] ∧
    (∃ s, (system (fun _ => 4) (fun _ => 0) ⟨none, 0, fun _ => 0⟩).Run
      (new (fun _ => 0) ⟨none, 0, fun _ => 0⟩) [⟨[137, 129, 0, 0, 0, 0, 65], by decide⟩] s ∧
      s.calls = [.write [137, 1, 65, 0]]) ∧
    ¬ Answered (fun _ => 4) (fun _ => 0) ⟨none, 0, fun _ => 0⟩ [pingFrame 65]
      [⟨[137, 129, 0, 0, 0, 0, 65], by decide⟩] := by
  have hping : ∃ s, (system (fun _ => 4) (fun _ => 0) ⟨none, 0, fun _ => 0⟩).Run
      (new (fun _ => 0) ⟨none, 0, fun _ => 0⟩) [⟨[137, 129, 0, 0, 0, 0, 65], by decide⟩] s ∧
      s.calls = [.write [137, 1, 65, 0]] := ⟨_, .cons ⟨4, 7, rfl, by decide⟩ (.nil _), rfl⟩
  refine ⟨fun _ => ⟨rfl, show 1 ≤ 125 by decide⟩, by decide, hping, fun hanswered => ?_⟩
  obtain ⟨s, hrun, hcalls⟩ := hping
  obtain ⟨s', hrun', hanswers⟩ := hanswered [⟨[137, 129, 0, 0, 0, 0, 65], by decide⟩] [] rfl
  obtain rfl := hrun.deterministic reads_deterministic hrun'
  have hreplies := hanswers.written
  rw [hcalls] at hreplies
  exact absurd hreplies (by decide)

end Ws
end NetService
