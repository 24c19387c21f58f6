import NetService.Ws.Cursor
import NetService.Ws.Finish

/-!
# Delivery of frames, however they are cut into chunks

`pass_spec` follows one round of the loop of `readData`, `readData_spec` a chunk and `runs_from` the
chunks one after the other: as long as the cursor takes every chunk, the payloads handed to
`finishParse` are those of the complete frames.  `delivery_exact` is the result for a connection, and
`coalesced_frames_fail` shows a chunk that is not taken.
-/

namespace NetService
namespace Ws

open Memory WsStickyWrap

/-! ### One round of the loop -/

/-- The parser stands after `n` bytes of the first frame of `fs`, with `rest` to be parsed; when
that is done the stream will stand at `c`, with the payloads `ds` delivered. -/
structure Reading (send : ℕ → ℤ) (c : Cursor) (ds : List (List UInt8)) (s : WsStickyWrap) (k : ℕ)
    (fs : List Frame) (n : ℕ) (rest : List UInt8) : Prop where
  holding : Holding s.deal k fs n rest
  stream : rest <+: (wire fs).drop n
  fine : rest ≠ [] → Fine k fs (n + rest.length)
  sends : ∀ i < (written s.calls).length + (fs.filter fun f => f.Replied).length, 0 ≤ send i
  cursor : cursor k fs (n + rest.length) = c
  delivered : delivered s.calls ++ payloads (completed fs (n + rest.length)) = ds

variable {send : ℕ → ℤ} {c : Cursor} {ds : List (List UInt8)} {s : WsStickyWrap} {k n : ℕ}
  {f : Frame} {fs : List Frame} {rest : List UInt8}

/-- Where the parser stands is within a frame, or there is none. -/
theorem Standing.within {d : WsDealWith} (h : Standing d k fs n) :
    match fs with
    | [] => n = 0
    | f :: _ => n < f.size := by
  cases h with
  | idle | drained =>
    cases fs with
    | nil => rfl
    | cons f fs => exact f.size_pos
  | @base f | @length f =>
    show _ < f.size
    unfold Frame.size Frame.headSize
    omega
  | payload _ _ _ _ lt => exact Nat.add_lt_add_left lt _

theorem Standing.cursor_eq {d : WsDealWith} (h : Standing d k fs n) : cursor k fs n = ⟨k, fs, n⟩ := by
  cases fs with
  | nil => rfl
  | cons f fs => exact cursor_of_lt h.within

theorem Standing.completed_eq {d : WsDealWith} (h : Standing d k fs n) : completed fs n = [] := by
  cases fs with
  | nil => rfl
  | cons f fs => exact completed_of_lt h.within

/-- Some bytes of the frame have been taken. -/
theorem Reading.within (h : Reading send c ds s k fs n rest) {d : WsDealWith} {l : ℕ}
    (hle : l ≤ rest.length) (hd : Holding d k fs (n + l) (rest.drop l)) :
    Reading send c ds { s with deal := d } k fs (n + l) (rest.drop l) := by
  have hsum : n + l + (rest.drop l).length = n + rest.length := by
    rw [List.length_drop]
    omega
  refine ⟨hd, ?_, fun hne => ?_, h.sends, ?_, ?_⟩
  · rw [← List.drop_drop]
    exact h.stream.drop l
  · rw [hsum]
    exact h.fine fun hnil => hne (by rw [hnil, List.drop_nil])
  · rw [hsum, h.cursor]
  · rw [hsum]
    exact h.delivered

/-- The frame is behind the parser. -/
theorem Reading.behind (h : Reading send c ds s k (f :: fs) n rest) {s' : WsStickyWrap} {l : ℕ}
    (hne : rest ≠ []) (hle : l ≤ rest.length) (hsize : n + l = f.size)
    (hd : Holding s'.deal (if f.Delivered then 0 else k + f.size) fs 0 (rest.drop l))
    (hdelivered : Ws.delivered s'.calls =
      Ws.delivered s.calls ++ if f.Delivered then [f.payload] else [])
    (hwritten : (written s'.calls).length =
      (written s.calls).length + if f.Replied then 1 else 0) :
    Reading send c ds s' (if f.Delivered then 0 else k + f.size) fs 0 (rest.drop l) := by
  have hge : f.size ≤ n + rest.length := by omega
  have hlen : (rest.drop l).length = rest.length - l := List.length_drop
  have hsum : n + rest.length - f.size = 0 + (rest.drop l).length := by omega
  have hpos := List.length_pos_iff.2 hne
  obtain ⟨-, -, halone, hfine⟩ := (h.fine hne).cons (by omega)
  refine ⟨hd, ?_, fun hne' => ?_, fun i hi => h.sends i ?_, ?_, ?_⟩
  · have hdrop := h.stream.drop l
    rw [List.drop_drop, hsize] at hdrop
    exact hdrop.trans (by rw [← Nat.add_zero f.size, drop_wire_size])
  · have hnot : ¬ f.Delivered := fun hdel => by
      have hpos' := List.length_pos_iff.2 hne'
      have := (halone hge hdel).2
      omega
    rw [if_neg hnot, ← hsum]
    exact hfine hge hnot
  · rw [hwritten] at hi
    by_cases hr : f.Replied
    · rw [List.filter_cons_of_pos (by simpa using hr), List.length_cons]
      rw [if_pos hr] at hi
      omega
    · rw [List.filter_cons_of_neg (by simpa using hr)]
      rw [if_neg hr] at hi
      omega
  · rw [← h.cursor, cursor_of_le hge, hsum]
  · rw [← h.delivered, completed_of_le hge, payloads_cons, hdelivered, hsum, List.append_assoc]

/-- A round whose call of `parseWsHead` and whose test succeed. -/
theorem pass_eq {realLen : ℕ} {d' : WsDealWith} {l : ℕ} {s' : WsStickyWrap}
    (hparse : s.deal.parseWsHead s.deal.readSize ((s.deal.dataSize : ℤ) - s.deal.readSize) =
      .ok (d', some l))
    (hafter : afterParse send { s with deal := taken d' l } = .ok (s', true))
    (hb : Buffered s'.deal k n rest) :
    pass send realLen s = if rest = [] then .done (realLen, s') else .next s' := by
  rw [pass_taken realLen hparse hafter, if_pos rfl]
  simp only [hb.dataSize, hb.readSize]
  by_cases hnil : rest = []
  · rw [if_pos hnil, if_neg (by rw [hnil, List.length_nil]; omega)]
  · have hpos := List.length_pos_iff.2 hnil
    rw [if_neg hnil, if_pos (by omega)]

/-- The calls about a complete frame: a reply if it is answered, with its payload if it is alone in
the buffer, and with more if it is not. -/
def Frame.Acts (f : Frame) (k : ℕ) (rest : List UInt8) (acts : List Call) : Prop :=
  if f.Replied then ∃ data, acts = [.write (sendFrame data f.opcod)] ∧
    data.length = k + f.payload.length + rest.length ∧ (k = 0 → rest = [] → data = f.payload)
  else written acts = []

/-- Where a round leads: the parser stays in the frame, or the frame is behind it and the calls about
it have been made. -/
inductive Went (s : WsStickyWrap) (k : ℕ) : List Frame → ℕ → List UInt8 →
    WsStickyWrap → ℕ → List Frame → ℕ → List UInt8 → Prop
  | within {fs : List Frame} {n n' : ℕ} {rest rest' : List UInt8} {s' : WsStickyWrap}
      (calls : s'.calls = s.calls) (sum : n' + rest'.length = n + rest.length) :
      Went s k fs n rest s' k fs n' rest'
  | behind {f : Frame} {fs : List Frame} {n : ℕ} {rest rest' : List UInt8} {s' : WsStickyWrap}
      {acts : List Call} (calls : s'.calls = s.calls ++ acts)
      (sum : f.size + rest'.length = n + rest.length) (about : f.Acts k rest' acts) :
      Went s k (f :: fs) n rest s' (if f.Delivered then 0 else k + f.size) fs 0 rest'

theorem Finished.acts {fs : List Frame} {s' : WsStickyWrap} (hf : Finished send s k f fs rest s')
    (h : Complete s.deal k f rest) (halone : f.Delivered → k = 0 ∧ rest = []) :
    ∃ acts, s'.calls = s.calls ++ acts ∧ f.Acts k rest acts := by
  refine ⟨_, hf.calls h halone, ?_⟩
  unfold Frame.Acts
  by_cases hr : f.Replied
  · have hsize : s.deal.dataSize - f.headSize = k + f.payload.length + rest.length := by
      have hdata : s.deal.dataSize = k + f.size + rest.length := h.buffered.dataSize
      rw [hdata]
      unfold Frame.size
      omega
    rw [if_pos hr, if_pos hr]
    refine ⟨_, rfl, by rw [length_load, hsize], ?_⟩
    rintro rfl rfl
    have hload := h.load
    rw [Nat.zero_add] at hload
    rw [hsize, Nat.zero_add, List.length_nil, Nat.add_zero, hload]
  · rw [if_neg hr, if_neg hr]
    split_ifs <;> rfl

/-- One round of the loop: the parser stands further on, and the loop ends with the bytes. -/
theorem pass_spec (h : Reading send c ds s k fs n rest) (hne : rest ≠ []) (realLen : ℕ) :
    ∃ s' k' fs' n' rest', Reading send c ds s' k' fs' n' rest' ∧
      Went s k fs n rest s' k' fs' n' rest' ∧
      weight s'.deal rest'.length < weight s.deal rest.length ∧
      pass send realLen s = if rest' = [] then .done (realLen, s') else .next s' := by
  have hpos := List.length_pos_iff.2 hne
  cases fs with
  | nil =>
    have hnil : rest <+: [] := by simpa [wire] using h.stream
    exact absurd (List.prefix_nil.1 hnil) hne
  | cons f fs =>
    obtain ⟨hclean, hcut, halone, -⟩ := (h.fine hne).cons (by omega)
    obtain ⟨d', l, hparse, hle, hadvance⟩ := parse_spec h.holding hne h.stream hcut hclean
    have hlen : (rest.drop l).length = rest.length - l := List.length_drop
    cases hadvance with
    -- inside the frame nothing happens but that the parser stands further on
    | within hd hunf hw =>
      have hafter : afterParse send { s with deal := taken d' l } = .ok (_, true) :=
        afterParse_unfinished send hunf
      refine ⟨_, _, _, _, _, h.within hle hd, .within rfl (by omega), ?_,
        pass_eq hparse hafter hd.buffered⟩
      rw [hlen]
      exact hw
    -- an empty frame is passed over: it is neither delivered nor answered
    | passed hempty hsize hd hunf hl =>
      have hafter : afterParse send { s with deal := taken d' l } = .ok (_, true) :=
        afterParse_unfinished send hunf
      have hnd : ¬ f.Delivered := fun hdel => hdel.2.1 hempty
      have hnr : ¬ f.Replied := fun hr => hr.2.1 hempty
      have hd' : Holding (taken d' l) (if f.Delivered then 0 else k + f.size) fs 0 (rest.drop l) := by
        rwa [if_neg hnd]
      have hbehind : Reading send c ds { s with deal := taken d' l } _ fs 0 (rest.drop l) :=
        h.behind hne hle hsize hd' (by rw [if_neg hnd, List.append_nil])
          (by rw [if_neg hnr, Nat.add_zero])
      have habout : f.Acts k (rest.drop l) [] := by
        unfold Frame.Acts
        rw [if_neg hnr]
        rfl
      refine ⟨_, _, _, _, _, hbehind, .behind (List.append_nil _).symm (by omega) habout, ?_,
        pass_eq hparse hafter hd.buffered⟩
      rw [hlen]
      exact weight_lt_of_taken hl hle
    | complete hsize hc hl =>
      -- the frame is acted on; a delivered one is alone, as the chunks are cut
      have halone' : f.Delivered → k = 0 ∧ rest.drop l = [] := by
        intro hdel
        obtain ⟨hk, he⟩ := halone (by omega) hdel
        exact ⟨hk, List.drop_eq_nil_of_le (by omega)⟩
      have hsend : f.Replied → 0 ≤ send (written s.calls).length := by
        intro hr
        apply h.sends
        rw [List.filter_cons_of_pos (by simpa using hr), List.length_cons]
        omega
      obtain ⟨s', hf⟩ : ∃ s', Finished send { s with deal := taken d' l } k f fs (rest.drop l) s' :=
        finish_spec fs hc halone' hsend
      obtain ⟨acts, hcalls, habout⟩ := hf.acts hc halone'
      refine ⟨s', _, _, _, _, h.behind hne hle hsize hf.holding hf.delivered hf.written,
        .behind hcalls (by omega) habout, ?_, pass_eq hparse hf.after hf.holding.buffered⟩
      rw [hlen]
      exact weight_lt_of_taken hl hle

/-! ### One call of `readData` -/

/-- What every round keeps. -/
def Keeps (P : WsStickyWrap → ℕ → List Frame → ℕ → List UInt8 → Prop) : Prop :=
  ∀ ⦃s k fs n rest s' k' fs' n' rest'⦄, P s k fs n rest → Went s k fs n rest s' k' fs' n' rest' →
    P s' k' fs' n' rest'

/-- The loop of `readData` ends with all bytes parsed, and with what every round keeps. -/
theorem loop_spec {P : WsStickyWrap → ℕ → List Frame → ℕ → List UInt8 → Prop} (hkeeps : Keeps P)
    (h : Reading send c ds s k fs n rest) (hp : P s k fs n rest) (hne : rest ≠ []) (realLen : ℕ) :
    ∃ s', Loop.Ends (pass send realLen) s (.ok (realLen, s')) ∧
      Reading send c ds s' c.kept c.frames c.got [] ∧ P s' c.kept c.frames c.got [] := by
  have hends := Loop.ends_of_measure (pass send realLen)
    (fun s => ∃ k fs n rest, rest ≠ [] ∧ Reading send c ds s k fs n rest ∧ P s k fs n rest)
    (fun s => weight s.deal (s.deal.dataSize - s.deal.readSize))
    (fun out => ∃ s', out = .ok (realLen, s') ∧ Reading send c ds s' c.kept c.frames c.got [] ∧
      P s' c.kept c.frames c.got [])
    (fun s ⟨k, fs, n, rest, hne, h, hp⟩ => ?_) ⟨k, fs, n, rest, hne, h, hp⟩
  · obtain ⟨_, hends, s', rfl, hread⟩ := hends
    exact ⟨s', hends, hread⟩
  · obtain ⟨s', k', fs', n', rest', h', hwent, hw, hpass⟩ := pass_spec h hne realLen
    have hp' := hkeeps hp hwent
    have hunread : ∀ {s k fs n rest}, Reading send c ds s k fs n rest →
        s.deal.dataSize - s.deal.readSize = rest.length := fun h => by
      rw [h.holding.buffered.dataSize, h.holding.buffered.readSize, Nat.add_sub_cancel_left]
    by_cases hnil : rest' = []
    · rw [if_pos hnil] at hpass
      subst hnil
      have hc : (⟨k', fs', n'⟩ : Cursor) = c :=
        h'.holding.standing.cursor_eq.symm.trans h'.cursor
      subst hc
      exact .inr ⟨_, Loop.Ends.done hpass, s', rfl, h', hp'⟩
    · rw [if_neg hnil] at hpass
      refine .inl ⟨s', hpass, ⟨k', fs', n', rest', hnil, h', hp'⟩, ?_⟩
      rw [hunread h', hunread h]
      exact hw

/-- A chunk stored behind what `_pData` holds changes nothing about where the parser stands. -/
theorem Standing.congr {d d' : WsDealWith} (h : Standing d k fs n) (hop : d'.op = d.op)
    (hhead : d'.head = d.head) (hindex : d'.parseIndex = d.parseIndex)
    (hdata : ∀ a < k + n, d'.pData a = d.pData a) : Standing d' k fs n := by
  cases h with
  | idle op => exact .idle (hop.trans op)
  | drained op wbs len index =>
    rw [← hhead] at wbs len
    exact .drained (hop.trans op) wbs len (hindex.trans index)
  | base op frame =>
    refine .base (hop.trans op) ?_
    exact frame.congr (by rw [hhead]) (hindex.trans frame.index) hdata
  | length op frame len =>
    refine .length (hop.trans op) ?_ (by rw [hhead, len])
    exact frame.congr (by rw [hhead]) (hindex.trans frame.index) fun a ha => hdata a (by omega)
  | @payload f fs i op frame len masks lt load =>
    have hpos := f.headSize_pos
    refine .payload (hop.trans op) ?_ (by rw [hhead, len]) (by rw [hhead, masks]) lt ?_
    · exact frame.congr (by rw [hhead]) (hindex.trans frame.index) fun a ha => hdata a (by omega)
    · rw [← load]
      exact load_congr fun a _ ha => hdata a (by omega)

/-- Between two calls of `readData` all bytes are parsed; `sends` is what the replies to come need. -/
structure Waiting (send : ℕ → ℤ) (c : Cursor) (s : WsStickyWrap) : Prop where
  holding : Holding s.deal c.kept c.frames c.got []
  sends : ∀ i < (written s.calls).length + (c.frames.filter fun f => f.Replied).length, 0 ≤ send i

/-- A chunk that fits is stored behind what `_pData` holds. -/
theorem Waiting.stored {chunk : Chunk} (h : Waiting send c s) (he : Enters s chunk) :
    Holding (stored s chunk).deal c.kept c.frames c.got chunk.bytes := by
  obtain ⟨hb, hstanding⟩ := h.holding
  have hcap := hb.cap
  have hsize : s.deal.dataSize = c.kept + c.got := hb.dataSize
  have hfits := he.2
  have hu16 : u16 ((s.deal.dataSize : ℤ) + chunk.bytes.length) =
      s.deal.dataSize + chunk.bytes.length := by
    exact_mod_cast u16_natCast (n := s.deal.dataSize + chunk.bytes.length) (by omega)
  refine ⟨⟨hcap, hb.headSize, hb.readSize, ?_, ?_, ?_⟩, ?_⟩
  · show u16 ((s.deal.dataSize : ℤ) + chunk.bytes.length) = _
    rw [hu16, hsize]
  · show u16 ((s.deal.dataSize : ℤ) + chunk.bytes.length) < 8192
    omega
  · show load (store s.deal.pData s.deal.dataSize chunk.bytes) _ _ = _
    rw [hsize, load_store]
  · exact hstanding.congr rfl rfl rfl fun a ha => store_below _ _ (by omega)

/-- A chunk that the cursor takes is read to its end, with what every round keeps. -/
theorem readData_keeps {P : WsStickyWrap → ℕ → List Frame → ℕ → List UInt8 → Prop}
    (hkeeps : Keeps P) (h : Waiting send c s) (chunk : Chunk)
    (hchunk : chunk.bytes <+: (wire c.frames).drop c.got) (htakes : c.Takes chunk.bytes.length)
    (hp : ∀ t, t.calls = s.calls → P t c.kept c.frames c.got chunk.bytes) :
    ∃ s', Reads send s chunk s' ∧ Waiting send (c.advance chunk.bytes.length) s' ∧
      delivered s'.calls =
        delivered s.calls ++ payloads (completed c.frames (c.got + chunk.bytes.length)) ∧
      P s' (c.advance chunk.bytes.length).kept (c.advance chunk.bytes.length).frames
        (c.advance chunk.bytes.length).got [] := by
  obtain ⟨hb, hstanding⟩ := h.holding
  have hcap := hb.cap
  have hsize : s.deal.dataSize = c.kept + c.got := hb.dataSize
  have hroom := htakes.1
  -- an empty chunk does not enter the loop
  by_cases hnil : chunk.bytes = []
  · have hadvance : c.advance 0 = c := hstanding.cursor_eq
    have hp' := hp s rfl
    rw [hnil] at hp'
    rw [hnil, List.length_nil, hadvance]
    refine ⟨s, ⟨0, 0, ?_, by decide⟩, h, ?_, hp'⟩
    · unfold readData
      simp only [hnil, List.length_nil]
      rfl
    · rw [Nat.add_zero, hstanding.completed_eq]
      exact (List.append_nil _).symm
  · have hpos := List.length_pos_iff.2 hnil
    have he : Enters s chunk := ⟨hpos, by omega⟩
    have hreading : Reading send (c.advance chunk.bytes.length)
        (delivered s.calls ++ payloads (completed c.frames (c.got + chunk.bytes.length)))
        (Ws.stored s chunk) c.kept c.frames c.got chunk.bytes :=
      ⟨h.stored he, hchunk, fun _ => htakes.2, h.sends, rfl, rfl⟩
    obtain ⟨s', hends, hread, hp'⟩ :=
      loop_spec hkeeps hreading (hp _ rfl) hnil chunk.bytes.length
    obtain ⟨fuel, hfuel⟩ := hends
    refine ⟨s', ⟨fuel, chunk.bytes.length, ?_, by omega⟩, ⟨hread.holding, hread.sends⟩, ?_, hp'⟩
    · rw [readData_enters he, hfuel]
    · have hdelivered := hread.delivered
      rw [List.length_nil, Nat.add_zero, hread.holding.standing.completed_eq] at hdelivered
      rw [← hdelivered]
      exact (List.append_nil _).symm

/-- A chunk that the cursor takes is read to its end. -/
theorem readData_spec (h : Waiting send c s) (chunk : Chunk)
    (hchunk : chunk.bytes <+: (wire c.frames).drop c.got) (htakes : c.Takes chunk.bytes.length) :
    ∃ s', Reads send s chunk s' ∧ Waiting send (c.advance chunk.bytes.length) s' ∧
      delivered s'.calls =
        delivered s.calls ++ payloads (completed c.frames (c.got + chunk.bytes.length)) := by
  have hkeeps : Keeps fun _ _ _ _ _ => True := fun _ _ _ _ _ _ _ _ _ _ _ _ => trivial
  obtain ⟨s', hreads, hwait, hdel, -⟩ :=
    readData_keeps hkeeps h chunk hchunk htakes fun _ _ => trivial
  exact ⟨s', hreads, hwait, hdel⟩

/-! ### The chunks one after the other -/

/-- The bytes received with `chunks`. -/
def received (chunks : List Chunk) : List UInt8 := chunks.flatMap Chunk.bytes

theorem length_received_cons (chunk : Chunk) (chunks : List Chunk) :
    (received (chunk :: chunks)).length = chunk.bytes.length + (received chunks).length :=
  List.length_append

theorem received_append (chunks chunks' : List Chunk) :
    received (chunks ++ chunks') = received chunks ++ received chunks' :=
  List.flatMap_append

/-- Before the next chunk. -/
theorem Waiting.now (h : Waiting send c s) : c.advance 0 = c := h.holding.standing.cursor_eq

/-- Chunks one after the other: what holds of every state and the bytes received so far, if every
chunk that may be given keeps it. -/
theorem runs_from {C : ℕ → Chunk → Prop} {Q : ℕ → WsStickyWrap → Prop} (m : ℕ → UInt8)
    (junk : WsHead)
    (hstep : ∀ e s chunk, Waiting send (cursor k fs e) s → Q e s →
      chunk.bytes <+: (wire fs).drop e → C e chunk →
        ∃ s', Reads send s chunk s' ∧ Waiting send (cursor k fs (e + chunk.bytes.length)) s' ∧
          Q (e + chunk.bytes.length) s')
    (chunks : List Chunk) {s : WsStickyWrap} {e : ℕ} (h : Waiting send (cursor k fs e) s) (hq : Q e s)
    (hcut : received chunks <+: (wire fs).drop e)
    (hok : ∀ pre chunk post, chunks = pre ++ chunk :: post → C (e + (received pre).length) chunk) :
    ∀ pre post, chunks = pre ++ post → ∃ s', (system send m junk).Run s pre s' ∧
      Q (e + (received pre).length) s' := by
  induction chunks generalizing s e with
  | nil =>
    intro pre post heq
    obtain ⟨rfl, -⟩ := List.append_eq_nil_iff.1 heq.symm
    exact ⟨s, .nil s, hq⟩
  | cons chunk chunks ih =>
    rw [Stream.forall_split_cons] at hok
    obtain ⟨hnow, hlater⟩ := hok
    have hcut' : chunk.bytes ++ received chunks <+: (wire fs).drop e := hcut
    obtain ⟨s₁, hreads, hwait, hq₁⟩ :=
      hstep e s chunk h hq ((List.prefix_append _ _).trans hcut') hnow
    have hrest := hcut'.drop chunk.bytes.length
    rw [List.drop_left, List.drop_drop] at hrest
    have hrun := ih hwait hq₁ hrest fun pre chunk' post heq => by
      rw [Nat.add_assoc, ← length_received_cons]
      exact hlater pre chunk' post heq
    rw [Stream.forall_prefix_cons]
    refine ⟨⟨s, .nil s, hq⟩, fun pre post heq => ?_⟩
    obtain ⟨s', hrun', hq'⟩ := hrun pre post heq
    rw [length_received_cons, ← Nat.add_assoc]
    exact ⟨s', .cons hreads hrun', hq'⟩

/-- A chunk ahead of the cursor. -/
theorem cursor_ahead {e : ℕ} {bytes : List UInt8} (h : bytes <+: (wire fs).drop e) :
    bytes <+: (wire (cursor k fs e).frames).drop (cursor k fs e).got := by
  rw [drop_cursor]
  exact h

/-! ### Text, binary, ping and pong frames of a client -/

/-- `WS_FR_OP_TXT` -/
def opText : ℕ := 1

/-- `WS_FR_OP_BIN` -/
def opBinary : ℕ := 2

/-- A text or binary frame. -/
def Frame.Data (f : Frame) : Prop := f.opcod = opText ∨ f.opcod = opBinary

instance (f : Frame) : Decidable f.Data :=
  inferInstanceAs (Decidable (_ ∨ _))

/-- A text or binary frame with a payload, or a ping or pong frame, that fits in `_pData`. -/
structure Frame.Admitted (f : Frame) : Prop where
  fin : f.fin = true
  kind : f.Data ∧ f.payload ≠ [] ∨
    (f.opcod = opPing ∨ f.opcod = opPong) ∧ f.payload.length ≤ 125
  size : f.size < 8192

/-- The payloads of the text and binary frames of `fs`. -/
def messages (fs : List Frame) : List (List UInt8) := (fs.filter fun f => f.Data).map Frame.payload

/-- However many of `chunks` have been received, no `readData` has failed, and `finishParse` has been
called for the text and binary frames that are complete, once for each and in order. -/
def Exact (send : ℕ → ℤ) (m : ℕ → UInt8) (junk : WsHead) (fs : List Frame) (chunks : List Chunk) :
    Prop :=
  ∀ pre post, chunks = pre ++ post → ∃ s, (system send m junk).Run (new m junk) pre s ∧
    delivered s.calls = messages (completed fs (received pre).length)

/-- The frames handed over are the text and binary frames. -/
theorem Frame.Admitted.delivered_iff (h : f.Admitted) : f.Delivered ↔ f.Data := by
  obtain ⟨hfin, hkind, -⟩ := h
  unfold Delivered Data
  rcases hkind with ⟨hdata, hne⟩ | ⟨hctl, -⟩
  · refine iff_of_true ⟨hfin, hne, ?_⟩ hdata
    rcases hdata with h | h <;> rw [h] <;> decide
  · refine iff_of_false (fun hd => hd.2.2 ?_) ?_
    · rcases hctl with h | h <;> rw [h] <;> decide
    · rcases hctl with h | h <;> rw [h] <;> decide

theorem completed_sublist (fs : List Frame) (e : ℕ) : (completed fs e).Sublist fs := by
  induction fs generalizing e with
  | nil => exact .slnil
  | cons f fs ih =>
    unfold completed
    by_cases h : e < f.size
    · rw [if_pos h]
      exact List.nil_sublist _
    · rw [if_neg h]
      exact (ih _).cons_cons f

theorem payloads_eq_messages (h : ∀ f ∈ fs, f.Admitted) : payloads fs = messages fs := by
  unfold payloads messages
  congr 1
  exact List.filter_congr fun f hf => decide_eq_decide.2 (h f hf).delivered_iff

/-- A new connection waits for the frames `fs`. -/
theorem new_waiting (m : ℕ → UInt8) (junk : WsHead)
    (hsend : ∀ i < (fs.filter fun f => f.Replied).length, 0 ≤ send i) :
    Waiting send ⟨0, fs, 0⟩ (new m junk) := by
  refine ⟨⟨⟨rfl, rfl, rfl, rfl, by show 0 < 8192; decide, rfl⟩, .idle rfl⟩, fun i hi => hsend i ?_⟩
  rwa [show (written (new m junk).calls).length = 0 from rfl, Nat.zero_add] at hi

/-- Frames of a client, cut in any way into chunks, are delivered exactly, as long as every chunk is
one that the parser can take where it stands, and no reply is refused. -/
theorem delivery_exact (send : ℕ → ℤ) (m : ℕ → UInt8) (junk : WsHead) (fs : List Frame)
    (chunks : List Chunk) (hfs : ∀ f ∈ fs, f.Admitted) (hcut : received chunks = wire fs)
    (hsend : ∀ i < (fs.filter fun f => f.Replied).length, 0 ≤ send i)
    (htakes : ∀ pre chunk post, chunks = pre ++ chunk :: post →
      (cursor 0 fs (received pre).length).Takes chunk.bytes.length) :
    Exact send m junk fs chunks := by
  have hstart : cursor 0 fs 0 = ⟨0, fs, 0⟩ :=
    (new_waiting m junk hsend).holding.standing.cursor_eq
  have hnone : completed fs 0 = [] := (new_waiting m junk hsend).holding.standing.completed_eq
  have hruns := runs_from (Q := fun e s => delivered s.calls = payloads (completed fs e))
    (C := fun e chunk => (cursor 0 fs e).Takes chunk.bytes.length) m junk ?_ chunks
    (hstart.symm ▸ new_waiting m junk hsend) (by rw [hnone]; rfl) (by rw [hcut]; rfl) ?_
  · intro pre post heq
    obtain ⟨s, hrun, hdel⟩ := hruns pre post heq
    rw [Nat.zero_add] at hdel
    refine ⟨s, hrun, ?_⟩
    rw [hdel]
    exact payloads_eq_messages fun f hf => hfs f ((completed_sublist fs _).subset hf)
  · intro e s chunk hwait hdel hchunk htakes
    obtain ⟨s', hreads, hwait', hdel'⟩ := readData_spec hwait chunk (cursor_ahead hchunk) htakes
    rw [cursor_add] at hwait'
    refine ⟨s', hreads, hwait', ?_⟩
    rw [hdel', hdel, completed_add 0 fs e, payloads_append]
  · intro pre chunk post heq
    rw [Nat.zero_add]
    exact htakes pre chunk post heq

/-- A text frame with one byte, under the masking key 0. -/
def textFrame (b : UInt8) : Frame :=
  ⟨true, opText, .short, fun _ => 0, [b], by decide, show 1 < 126 by decide⟩

/-- A ping without a payload. -/
def emptyPing : Frame := ⟨true, opPing, .short, fun _ => 0, [], by decide, by decide⟩

/-- The text frame is cut behind its base header, the ping arrives whole. -/
def sampleChunks : List Chunk :=
  [⟨[129, 129], by decide⟩, ⟨[0, 0, 0, 0, 65], by decide⟩, ⟨[137, 128, 0, 0, 0, 0], by decide⟩]

theorem textFrame_admitted (b : UInt8) : (textFrame b).Admitted :=
  ⟨rfl, .inl ⟨.inl rfl, List.cons_ne_nil b []⟩, show 7 < 8192 by decide⟩

theorem delivery_exact_sample :
    Exact (fun _ => 1) (fun _ => 0) ⟨none, 0, fun _ => 0⟩ [textFrame 65, emptyPing] sampleChunks := by
  refine delivery_exact (fun _ => 1) (fun _ => 0) ⟨none, 0, fun _ => 0⟩ [textFrame 65, emptyPing]
    sampleChunks ?_ (by decide) (fun _ _ => by decide) ?_
  · rw [List.forall_mem_cons, List.forall_mem_singleton]
    exact ⟨textFrame_admitted 65, rfl, .inr ⟨.inl rfl, by decide⟩, by decide⟩
  · unfold sampleChunks
    rw [Stream.forall_split_cons, Stream.forall_split_cons, Stream.forall_split_cons]
    refine ⟨by decide, by decide, by decide, fun pre chunk post heq => ?_⟩
    simp at heq

/-- The result of `readData` does not depend on the fuel. -/
theorem readData_unique {i j : ℕ} {bytes : List UInt8} {x y : Except WsFault (ℤ × WsStickyWrap)}
    (hx : readData send i s bytes = some x) (hy : readData send j s bytes = some y) : x = y := by
  unfold readData at hx hy
  by_cases hpos : 0 < bytes.length
  · rw [if_pos hpos] at hx hy
    by_cases hroom : (bytes.length : ℤ) < (s.deal.dataCap : ℤ) - s.deal.dataSize
    · rw [if_pos hroom] at hx hy
      exact Loop.Ends.unique ⟨i, hx⟩ ⟨j, hy⟩
    · rw [if_neg hroom] at hx hy
      exact Option.some.inj (hx.symm.trans hy)
  · rw [if_neg hpos] at hx hy
    exact Option.some.inj (hx.symm.trans hy)

/-- Two text frames in one chunk. -/
def coalesced : Chunk := ⟨[129, 129, 0, 0, 0, 0, 65, 129, 129, 0, 0, 0, 0, 66], by decide⟩

/-- Two text frames that arrive together: `readData` returns -1, and nothing is delivered. -/
theorem coalesced_frames_fail :
    (textFrame 65).Admitted ∧ (textFrame 66).Admitted ∧
    received [coalesced] = wire [textFrame 65, textFrame 66] ∧
    (∃ s, readData (fun _ => 1) 4 (new (fun _ => 0) ⟨none, 0, fun _ => 0⟩) coalesced.bytes =
      some (.ok (-1, s)) ∧ delivered s.calls = []) ∧
    ¬ Exact (fun _ => 1) (fun _ => 0) ⟨none, 0, fun _ => 0⟩ [textFrame 65, textFrame 66]
      [coalesced] := by
  have hfails : ∃ s, readData (fun _ => 1) 4 (new (fun _ => 0) ⟨none, 0, fun _ => 0⟩)
      coalesced.bytes = some (.ok (-1, s)) ∧ delivered s.calls = [] := ⟨_, rfl, rfl⟩
  refine ⟨textFrame_admitted 65, textFrame_admitted 66, by decide, hfails, fun hexact => ?_⟩
  obtain ⟨s, hs, -⟩ := hfails
  obtain ⟨s', hrun, -⟩ := hexact [coalesced] [] rfl
  cases hrun with
  | cons hreads _ =>
    obtain ⟨fuel, r, hr, hne⟩ := hreads
    have heq := readData_unique hs hr
    injection heq with heq
    injection heq with hret _
    exact hne hret.symm

end Ws
end NetService
