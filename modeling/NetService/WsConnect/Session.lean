import NetService.Handshake.Response
import NetService.WsConnect.Handshake

/-!
# A WebSocket session

A client sends an upgrade request, waits, and sends frames, all of them in less than 4096 bytes; the
response is computed by `get_handshake_response`.  Between two calls of `FdBridge::read` everything
that has arrived has been handed on (`Session`), in one piece for each call since it lies in one node,
so that the messages delivered are those of the frames that are complete.  A message is delivered by the
call of `finishParse`, which is taken as a callback that returns.
-/

namespace NetService

open MemoryBuff (Client Progress Inv)

/-- What lies in the first node is offered in one piece. -/
theorem MemoryBuff.Inv.next_whole {c : Client} {p : Progress} (hinv : Inv 2 c p)
    (hshort : c.stored.length < 4096) (hlt : c.consumed.length < c.stored.length) :
    ∃ q, c.buff.getReadBuff = .ok (some (q, c.stored.length - c.consumed.length)) ∧
      c.buff.load q (c.stored.length - c.consumed.length) = c.stored.drop c.consumed.length := by
  have hcap : MemoryBuff.capacity 2 = 8192 := rfl
  cases hinv.shape with
  | first _ _ _ _ hr _ hfirst =>
    obtain ⟨q, k, hget, hk, hload⟩ := hfirst.offers hr hlt (List.prefix_refl _)
    rw [hk] at hget hload
    refine ⟨q, hget, hload.trans (List.take_of_length_le ?_)⟩
    rw [List.length_drop]
  | both _ hlow => omega
  | firstFull _ hfull => omega
  | last _ hlow => omega
  | lastFull hfull => omega
  | used hfull => omega

namespace WsConnect

open Ws (Frame WsStickyWrap cursor wire completed delivered payloads)

/-! ### The calls of `WsStickyWrap::readData` -/

/-- A call that does not fail returns the length it was given. -/
theorem returned_of_reads {send : ℕ → ℤ} {s s' : WsStickyWrap} {chunk : Ws.Chunk}
    (h : WsStickyWrap.Reads send s chunk s') :
    WsStickyWrap.returned send s chunk.bytes = some ((chunk.bytes.length : ℤ), s') := by
  obtain ⟨fuel, r, hread, hr⟩ := h
  have hreturned := WsStickyWrap.returned_eq_some.2 ⟨fuel, hread⟩
  rwa [WsStickyWrap.returned_length hreturned hr] at hreturned

/-! ### The state between two calls -/

section
variable {getHandshakeResponse : List UInt8 → Option (List UInt8)} {send : ℤ} {reply : ℕ → ℤ}
  {text response got : List UInt8} {fs : List Frame} {w : WsConnect}

/-- The response has been sent, and everything received behind the request, `got`, has been handed on
and parsed. -/
structure Session (text response : List UInt8) (reply : ℕ → ℤ) (fs : List Frame)
    (got : List UInt8) (w : WsConnect) : Prop where
  buff : ∃ c p, Open text response w c p ∧ c.stored = text ++ got ∧ c.consumed = text ++ got
  waiting : Ws.Waiting reply (cursor 0 fs got.length) w.wrap
  messages : delivered w.wrap.calls = payloads (completed fs got.length)

/-- A round that finds everything handed on leaves the loop. -/
theorem pass_idle (env : Env) {c : Client} {p : Progress} (hinv : Inv 2 c p) (hbuff : w.buff = c.buff)
    (hlow : c.consumed.length < MemoryBuff.capacity 2) (hall : c.consumed = c.stored) (readlen : ℕ) :
    pass env (w, readlen) = .done (readlen, w) := by
  rcases hinv.next hlow with ⟨hget, -⟩ | ⟨q, n, -, hn, -, hle, -⟩
  · unfold pass
    simp only [hbuff, hget]
  · rw [hall] at hle
    omega

/-- A round that hands on what a node offers, all of it being taken. -/
theorem pass_hands_on (env : Env) {q : MemoryBuff.Addr} {n : ℕ} {bytes : List UInt8}
    {wrap : WsStickyWrap} {buff : MemoryBuff} (hw : w.isHandshark = true)
    (hget : w.buff.getReadBuff = .ok (some (q, n))) (hload : w.buff.load q n = bytes)
    (hcall : env.readData w.wrap bytes = some ((n : ℤ), wrap)) (hn : n < 65536)
    (hadjust : w.buff.adjustReadSize n = .ok buff) (readlen : ℕ) :
    pass env (w, readlen) =
      .next ({ w.logged bytes (some n) with wrap := wrap, buff := buff }, u16 (readlen + n)) := by
  have hopen : ¬ w.isHandshark = false := by
    rw [hw]
    decide
  have hu16 : u16 (n : ℤ) = n := Word.wrap_natCast (by norm_num; omega)
  have hneg : ¬ (n : ℤ) < 0 := not_lt.2 (Int.natCast_nonneg n)
  unfold pass
  simp only [hget, if_neg hopen, hload, hcall, if_neg hneg, hu16, hadjust]
  rfl

variable (getHandshakeResponse send) in
/-- A call of `FdBridge::read` with a chunk that the parser takes. -/
theorem Session.advances (h : Session text response reply fs got w) (chunk : Ws.Chunk)
    (hchunk : chunk.bytes <+: (wire fs).drop got.length)
    (htakes : (cursor 0 fs got.length).Takes chunk.bytes.length)
    (hshort : text.length + (got.length + chunk.bytes.length) < 4096) :
    ∃ w' r, 0 ≤ r ∧ Leads (.ws getHandshakeResponse send reply) w chunk.bytes (.ok (r, w')) ∧
      Session text response reply fs (got ++ chunk.bytes) w' := by
  obtain ⟨⟨c, p, hopen, hstored, hconsumed⟩, hwait, hmessages⟩ := h
  have hcap : MemoryBuff.capacity 2 = 8192 := rfl
  have hlen : c.stored.length = text.length + got.length := by rw [hstored, List.length_append]
  have hlen' : c.consumed.length = text.length + got.length := by rw [hconsumed, List.length_append]
  obtain ⟨b, p', hends, hinv⟩ := @FdBridge.receives 2 _ _ chunk.bytes hopen.inv (by decide)
    (by decide) (by omega)
  rw [← hopen.buff] at hends
  by_cases hnil : chunk.bytes = []
  · have hidle := pass_idle (w := { w with buff := b }) (.ws getHandshakeResponse send reply)
      hinv rfl (by rw [hlen']; omega) (by rw [hnil, List.append_nil, hstored, hconsumed]) 0
    rw [hnil, List.append_nil] at hinv
    refine ⟨_, _, Int.natCast_nonneg 0, .of_received hends (.done hidle), ?_, ?_, ?_⟩
    · refine ⟨_, p', ⟨hinv, rfl, hopen.handshark, hopen.sent, hopen.consumed, hopen.room⟩, ?_, ?_⟩
      · rw [hnil, List.append_nil, hstored]
      · rw [hnil, List.append_nil, hconsumed]
    · rwa [hnil, List.append_nil]
    · rwa [hnil, List.append_nil]
  · have hpos := List.length_pos_iff.2 hnil
    have hn : (c.stored ++ chunk.bytes).length - c.consumed.length = chunk.bytes.length := by
      rw [List.length_append]
      omega
    obtain ⟨q, hget, hload⟩ := hinv.next_whole
      (by rw [List.length_append]; omega) (by rw [hlen', List.length_append]; omega)
    have hdrop : (c.stored ++ chunk.bytes).drop c.consumed.length = chunk.bytes :=
      List.drop_left' (hlen.trans hlen'.symm)
    dsimp only at hget hload
    rw [hn] at hget hload
    rw [hdrop] at hload
    obtain ⟨b', p'', hadjust, hinv'⟩ := hinv.consume (by decide) (by decide)
      (by rw [hlen']; omega) hget
    obtain ⟨s', hreads, hwait', hdel⟩ := Ws.readData_spec hwait chunk
      (Ws.cursor_ahead hchunk) htakes
    have hhand := pass_hands_on (w := { w with buff := b }) (.ws getHandshakeResponse send reply)
      hopen.handshark hget hload (returned_of_reads hreads) chunk.fits hadjust 0
    dsimp only at hinv'
    rw [hload] at hinv'
    have hall : c.consumed ++ chunk.bytes = c.stored ++ chunk.bytes := by rw [hstored, hconsumed]
    have hidle := pass_idle (w := { w.logged chunk.bytes (some (chunk.bytes.length : ℤ)) with
        wrap := s', buff := b' }) (.ws getHandshakeResponse send reply) hinv' rfl
      (by rw [List.length_append]; omega) hall (u16 ((0 : ℕ) + chunk.bytes.length))
    refine ⟨_, _, Int.natCast_nonneg _, .of_received hends (.next hhand (.done hidle)), ?_, ?_, ?_⟩
    · refine ⟨_, p'', ⟨hinv', rfl, hopen.handshark, hopen.sent, ?_, ?_⟩, ?_, ?_⟩
      · show c.consumed ++ chunk.bytes = text ++ (w.logged chunk.bytes _).given
        rw [given_logged, ← List.append_assoc, ← hopen.consumed]
      · rw [List.length_append]
        omega
      · rw [hstored, List.append_assoc]
      · rw [hconsumed, List.append_assoc]
    · rwa [List.length_append, ← Ws.cursor_add]
    · rw [List.length_append, Ws.completed_add 0 fs, Ws.payloads_append, ← hmessages]
      exact hdel

end

/-! ### The request -/

/-- `get_handshake_response`, whatever memory it finds. -/
def answer (ctx : Sha1.SHA1Context) (block : Vector UInt8 Handshake.wsHsAcclen) (text : List UInt8) :
    Option (List UInt8) :=
  (Handshake.getHandshakeResponse ctx block text).getD none

/-- An upgrade request with its key. -/
structure Upgrade (text key : List UInt8) : Prop where
  noNul : 0 ∉ text
  ends : crlfcrlf <:+ text
  /-- nothing before the end is an empty line -/
  first : ∀ n < text.length, ¬ crlfcrlf <:+: text.take n
  key : Handshake.keyOf text = some key

/-- The request is answered with the hash of its key. -/
def Upgrade.request {text key : List UInt8} (h : Upgrade text key) (ctx : Sha1.SHA1Context)
    (block : Vector UInt8 Handshake.wsHsAcclen) : Request (answer ctx block) where
  text := text
  response := Handshake.response key
  noNul := h.noNul
  ends := h.ends
  first := h.first
  valid := by rw [answer, Handshake.getHandshakeResponse_spec ctx block h.noNul, h.key]; rfl

/-- The call that finds the request. -/
theorem Session.start {getHandshakeResponse : List UInt8 → Option (List UInt8)} {send : ℤ}
    {reply : ℕ → ℤ} (req : Request getHandshakeResponse) (hsend : 0 ≤ send)
    (hshort : req.text.length < 4096) (m : ℕ → UInt8) (junk : Ws.WsHead) {fs : List Frame}
    (hreply : ∀ i < (fs.filter fun f => f.Replied).length, 0 ≤ reply i) :
    ∃ w r, 0 ≤ r ∧
      Leads (.ws getHandshakeResponse send reply) (new m junk) req.text (.ok (r, w)) ∧
      Session req.text req.response reply fs [] w := by
  have hcap : MemoryBuff.capacity 2 = 8192 := rfl
  have hpos := req.text_pos
  have hne : req.text ≠ [] := List.length_pos_iff.1 hpos
  obtain ⟨b, p, n, hends, hinv, hget, hstr, hn⟩ := first_node hne (by omega)
  obtain rfl := hn hshort
  have hload : b.load ⟨0, 0⟩ req.text.length = req.text := by
    obtain ⟨q, hwhole, hload⟩ := hinv.next_whole hshort hpos
    rw [hwhole] at hget
    cases hget
    exact hload
  obtain ⟨b', p', hadjust, hinv'⟩ := hinv.consume (by decide) (by decide)
    (show 0 < 8192 by decide) hget
  have hpass : pass (.ws getHandshakeResponse send reply) ({ new m junk with buff := b }, 0) =
      .done (_, _) :=
    pass_answers rfl hget ((hstr req.noNul).trans (if_pos hshort)) req.ends.isInfix req.valid hsend
      hadjust
  have hstart : Ws.Waiting reply ⟨0, fs, 0⟩ (WsStickyWrap.new m junk) :=
    Ws.new_waiting m junk hreply
  refine ⟨_, _, Int.natCast_nonneg _, .of_received hends (.done hpass), ?_, ?_, ?_⟩
  · refine ⟨_, p', ⟨hinv', rfl, rfl, rfl, ?_, ?_⟩, ?_, ?_⟩
    · exact hload.trans (List.append_nil _).symm
    · exact lt_trans hshort (by decide)
    · exact (List.append_nil _).symm
    · exact hload.trans (List.append_nil _).symm
  · rw [List.length_nil, show cursor 0 fs 0 = ⟨0, fs, 0⟩ from hstart.holding.standing.cursor_eq]
    exact hstart
  · rw [List.length_nil, show completed fs 0 = [] from hstart.holding.standing.completed_eq]
    rfl

/-! ### The session -/

/-- A whole session in less than 4096 bytes, with a `finishParse` that returns when it is given a
message: an upgrade request that arrives alone, and frames in any chunks that the parser takes.  After
any number of the chunks no call has failed, the one response is that to the key, and `finishParse` has
been called with the messages of the frames that are complete.  (The one of `Ws.FinishParse` does not
return from a first message.) -/
theorem session_delivers (ctx : Sha1.SHA1Context) (block : Vector UInt8 Handshake.wsHsAcclen)
    {send : ℤ} (hsend : 0 ≤ send) (reply : ℕ → ℤ) (m : ℕ → UInt8) (junk : Ws.WsHead)
    {text key : List UInt8} (hup : Upgrade text key) (fs : List Frame) (chunks : List Ws.Chunk)
    (hfs : ∀ f ∈ fs, f.Admitted) (hcut : Ws.received chunks = wire fs)
    (hreply : ∀ i < (fs.filter fun f => f.Replied).length, 0 ≤ reply i)
    (htakes : ∀ pre chunk post, chunks = pre ++ chunk :: post →
      (cursor 0 fs (Ws.received pre).length).Takes chunk.bytes.length)
    (hshort : text.length + (wire fs).length < 4096) :
    ∀ pre post, chunks = pre ++ post →
      ∃ w, (system (.ws (answer ctx block) send reply) m junk).Run (new m junk)
          (text :: pre.map Ws.Chunk.bytes) w ∧
        w.sent = [Handshake.response key] ∧
        delivered w.wrap.calls = Ws.messages (completed fs (Ws.received pre).length) := by
  have hruns : ∀ pre post, chunks = pre ++ post →
      ∃ w, (system (.ws (answer ctx block) send reply) m junk).Run (new m junk)
          (text :: pre.map Ws.Chunk.bytes) w ∧
        Session text (Handshake.response key) reply fs (Ws.received pre) w := by
    intro pre
    induction pre using List.reverseRecOn with
    | nil =>
      intro post _
      obtain ⟨w, r, hr, hleads, hw⟩ := Session.start (hup.request ctx block) hsend
        (by show text.length < 4096; omega) m junk hreply
      exact ⟨w, .cons ⟨r, hr, hleads⟩ (.nil w), hw⟩
    | append_singleton pre chunk ih =>
      intro post heq
      rw [List.append_assoc, List.singleton_append] at heq
      obtain ⟨w, hrun, hw⟩ := ih (chunk :: post) heq
      have hwire : wire fs = Ws.received pre ++ (chunk.bytes ++ Ws.received post) := by
        rw [← hcut, heq, Ws.received_append]
        rfl
      have hlen := congrArg List.length hwire
      rw [List.length_append, List.length_append] at hlen
      obtain ⟨w', r, hr, hleads, hw'⟩ := hw.advances (answer ctx block) send chunk
        (by rw [hwire, List.drop_left]; exact List.prefix_append _ _)
        (htakes pre chunk post heq) (by omega)
      refine ⟨w', ?_, ?_⟩
      · rw [List.map_append, ← List.cons_append]
        exact hrun.append (.cons ⟨r, hr, hleads⟩ (.nil w'))
      · rw [Ws.received_append]
        have hone : Ws.received [chunk] = chunk.bytes := List.append_nil _
        rwa [hone]
  intro pre post heq
  obtain ⟨w, hrun, ⟨c, p, hopen, -, -⟩, -, hmessages⟩ := hruns pre post heq
  refine ⟨w, hrun, hopen.sent, ?_⟩
  rw [hmessages]
  exact Ws.payloads_eq_messages fun f hf => hfs f ((Ws.completed_sublist fs _).subset hf)

/-- The key of `sampleText`. -/
def sampleKey : List UInt8 := CString.ascii "dGhlIHNhbXBsZSBub25jZQ=="

theorem sampleText_upgrade : Upgrade sampleText sampleKey where
  noNul := by decide +kernel
  ends := by decide +kernel
  first := first_of_dropLast (by decide +kernel)
  key := by decide +kernel

theorem session_delivers_sample :
    ∃ w, (system (.ws (answer Sha1.blank (Vector.replicate 130 0)) 1 fun _ => 1) (fun _ => 0)
        ⟨none, 0, fun _ => 0⟩).Run (new (fun _ => 0) ⟨none, 0, fun _ => 0⟩)
        (sampleText :: Ws.sampleChunks.map Ws.Chunk.bytes) w ∧
      w.sent = [Handshake.response sampleKey] ∧
      delivered w.wrap.calls =
        Ws.messages (completed [Ws.textFrame 65, Ws.emptyPing] (Ws.received Ws.sampleChunks).length) := by
  refine session_delivers Sha1.blank (Vector.replicate 130 0) (by decide) (fun _ => 1) (fun _ => 0)
    ⟨none, 0, fun _ => 0⟩ sampleText_upgrade [Ws.textFrame 65, Ws.emptyPing] Ws.sampleChunks ?_
    (by decide) (fun _ _ => by decide) ?_ (by decide +kernel) Ws.sampleChunks [] (List.append_nil _).symm
  · rw [List.forall_mem_cons, List.forall_mem_singleton]
    exact ⟨Ws.textFrame_admitted 65, rfl, .inr ⟨.inl rfl, by decide⟩, by decide⟩
  · unfold Ws.sampleChunks
    rw [Stream.forall_split_cons, Stream.forall_split_cons, Stream.forall_split_cons]
    refine ⟨by decide, by decide, by decide, fun pre chunk post heq => ?_⟩
    simp at heq

end WsConnect
end NetService
