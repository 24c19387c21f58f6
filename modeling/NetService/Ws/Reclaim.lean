import NetService.Ws.Delivery
import NetService.Ws.Termination

/-!
# When the receive buffer is reclaimed

Between two calls of `readData`, `_pData` should hold the bytes of the unfinished frame and nothing
else (`Reclaimed`).  Only the branch of a data frame takes a frame out of the buffer, so this is
so in runs in which every frame is delivered (`reclaimed_of_delivered`): there the cursor keeps
nothing, and the call that completes a frame leaves the buffer empty; a chunk that ends where the
parser cannot wait is never read to its end (`Cut.fails`).  A ping stays for ever (`ping_stays`).
-/

namespace NetService
namespace Ws

open Memory WsStickyWrap

variable {send : ℕ → ℤ} {c : Cursor} {s s' : WsStickyWrap} {fs : List Frame}

/-! ### The unfinished frame -/

/-- A stream of frames that are all delivered keeps nothing in the buffer. -/
theorem cursor_kept (h : ∀ f ∈ fs, f.Delivered) (e : ℕ) : (cursor 0 fs e).kept = 0 := by
  induction fs generalizing e with
  | nil => rfl
  | cons f fs ih =>
    obtain ⟨hf, hfs⟩ := List.forall_mem_cons.1 h
    by_cases hlt : e < f.size
    · rw [cursor_of_lt hlt]
    · rw [cursor_of_le (by omega), if_pos hf]
      exact ih hfs _

/-- Behind whole frames nothing of the next one has been received. -/
theorem cursor_whole (k : ℕ) {gs : List Frame} (h : gs <+: fs) :
    (cursor k fs (wire gs).length).got = 0 := by
  induction gs generalizing k fs with
  | nil =>
    cases fs with
    | nil => rfl
    | cons f fs =>
      have hpos := f.size_pos
      rw [show (wire []).length = 0 from rfl, cursor_of_lt hpos]
  | cons g gs ih =>
    obtain ⟨hs, rfl⟩ := h
    rw [wire_cons, List.length_append, g.length_bytes, List.cons_append,
      cursor_of_le (Nat.le_add_right _ _), Nat.add_sub_cancel_left]
    exact ih _ (List.prefix_append gs hs)

/-! ### Bytes that end where the parser cannot wait -/

/-- The parser stands in `f`, and the bytes there are go on behind the end of `f`, or end inside its
base header, its extended length or its key. -/
structure Cut (s : WsStickyWrap) (f : Frame) (fs : List Frame) (n : ℕ) (rest : List UInt8) :
    Prop where
  sane : Sane s.deal
  holding : Holding s.deal 0 (f :: fs) n rest
  stream : rest <+: (wire (f :: fs)).drop n
  ne : rest ≠ []
  bad : f.size < n + rest.length ∨ ¬ f.CutOk (n + rest.length)

theorem Standing.cutOk {d : WsDealWith} {k n : ℕ} {f : Frame} (h : Standing d k (f :: fs) n) :
    n = 0 ∨ f.CutOk n := by
  cases h with
  | idle | drained => exact .inl rfl
  | base => exact .inr (.inl rfl)
  | length => exact .inr (.inr (.inl rfl))
  | payload => exact .inr (.inr (.inr (Nat.le_add_right _ _)))

/-- One call of `parseWsHead`: it goes on in the frame, or takes nothing. -/
theorem parse_any {d : WsDealWith} {k n : ℕ} {f : Frame} {rest : List UInt8}
    (h : Holding d k (f :: fs) n rest) (hne : rest ≠ [])
    (hrest : rest <+: (wire (f :: fs)).drop n) (hclean : f.Clean) :
    (∃ d' l, d.parseWsHead d.readSize ((d.dataSize : ℤ) - d.readSize) = .ok (d', some l) ∧
      l ≤ rest.length ∧ Advance d d' k f fs n l rest) ∨
    d.parseWsHead d.readSize ((d.dataSize : ℤ) - d.readSize) = .ok (d, some 0) ∧
      (n + rest.length = 1 ∨ Unfinished d) := by
  by_cases hcut : f.CutOk (n + rest.length)
  · exact .inl (parse_spec h hne hrest hcut hclean)
  · obtain ⟨hb, hstanding⟩ := h
    have hpos := List.length_pos_iff.2 hne
    have hunread : (d.dataSize : ℤ) - d.readSize = rest.length := by
      rw [hb.dataSize, hb.readSize]
      omega
    have hhead : f.headSize = 6 + f.ext.length := rfl
    rw [hunread, hb.readSize]
    cases hstanding with
    | idle op =>
      by_cases htwo : 2 ≤ rest.length
      · exact .inl (parse_idle hb op hrest htwo)
      · exact .inr ⟨parse_initHead_few op (by omega), .inl (by omega)⟩
    | drained op wbs len index => exact .inl (parse_drained hb op wbs len index hne)
    | base op frame =>
      by_cases hext : f.ext.length ≤ rest.length
      · exact .inl (parse_base hb op frame hne hrest hext hclean)
      · refine .inr ⟨?_, .inr ⟨k, frame.wbs, .inl frame.index⟩⟩
        have hlen := f.length_ext
        apply parse_readPayload_few op frame.wbs <;> rw [frame.payLoad] <;> split_ifs at hlen <;>
          omega
    | length op frame len =>
      by_cases hfour : 4 ≤ rest.length
      · exact .inl (parse_key hb op frame len hrest hfour)
      · exact .inr ⟨parse_readMaskKey_few op (by omega), .inr ⟨k, frame.wbs, .inl frame.index⟩⟩
    | payload =>
      exact absurd (.inr (.inr (by omega))) hcut

/-- With less than a head in the buffer there is no reply and no delivery. -/
theorem afterParse_short (send : ℕ → ℤ) (h : Sane s.deal) (hsize : s.deal.dataSize < 6) :
    (∃ e, afterParse send s = .error e) ∨ ∃ b, afterParse send s = .ok (s, b) := by
  have hcap := h.cap
  have hindex := h.index
  -- `_Data_size - headsize` wraps
  have hwrap : ∀ o, 65536 <
      Word.wrap 64 ((s.deal.dataSize : ℤ) - (s.deal.calFrameHeadSize o : ℕ)) := by
    intro o
    have hhigh := calFrameHeadSize_le s.deal o
    have hlow : 6 ≤ s.deal.calFrameHeadSize o := Nat.le_add_right _ _
    unfold Word.wrap
    omega
  unfold afterParse
  cases s.deal.head.wbs with
  | none => exact .inl ⟨_, rfl⟩
  | some o =>
    have hbig := hwrap o
    simp only
    by_cases hdone : fin (s.deal.pData o) = true ∧ s.deal.parseIndex ≠ 0 ∧
        s.deal.head.len.toNat ≤ s.deal.parseIndex
    · rw [if_pos hdone]
      have hreply : ∀ type, ∃ e, s.reply send (s.deal.calFrameHeadSize o) type = .error e := by
        intro type
        unfold reply
        simp only
        rw [if_neg (by omega)]
        exact ⟨_, rfl⟩
      have hdeliver : s.deliver (s.deal.calFrameHeadSize o) = .ok (s, false) :=
        deliver_behind (by omega)
      unfold onFrame
      simp only [hdeliver]
      split_ifs
      · exact .inl (hreply _)
      · exact .inl (hreply _)
      · exact .inr ⟨_, rfl⟩
      · exact .inr ⟨_, rfl⟩
      · exact .inr ⟨_, rfl⟩
    · rw [if_neg hdone]
      exact .inr ⟨_, rfl⟩

/-- One round of the loop: it fails, returns `-1` or goes on, and never comes to the end of the
bytes. -/
theorem Cut.round {n : ℕ} {f : Frame} {rest : List UInt8} (h : Cut s f fs n rest) (send : ℕ → ℤ)
    (hclean : f.Clean) (hdel : f.Delivered) (realLen : ℕ) :
    (∃ e, pass send realLen s = .fault e) ∨ (∃ s', pass send realLen s = .done (-1, s')) ∨
      ∃ s' n' rest', pass send realLen s = .next s' ∧ Cut s' f fs n' rest' := by
  have hb := h.holding.buffered
  have hpos := List.length_pos_iff.2 h.ne
  have hroom := hb.room
  have hsize : f.size = f.headSize + f.payload.length := rfl
  have hdata := hb.dataSize
  have hread := hb.readSize
  rcases parse_any h.holding h.ne h.stream hclean with ⟨d', l, hparse, hle, hadvance⟩ |
    ⟨hparse, hwhere⟩
  · have hlen : (rest.drop l).length = rest.length - l := List.length_drop
    cases hadvance with
    -- in the frame: the end of the bytes is still one at which the parser cannot wait
    | within hd hunf =>
      have hafter : afterParse send { s with deal := taken d' l } = .ok (_, true) :=
        afterParse_unfinished send hunf
      have hsum : n + l + (rest.drop l).length = n + rest.length := by omega
      have hne : rest.drop l ≠ [] := fun hnil => by
        rw [hnil, List.length_nil] at hsum
        have hin : n + l < f.size := hd.standing.within
        have hok := hd.standing.cutOk
        rcases h.bad with hbad | hbad
        · omega
        · exact hbad (hsum ▸ hok.resolve_left (by omega))
      have hpass : pass send realLen s = _ := pass_eq hparse hafter hd.buffered
      rw [if_neg hne] at hpass
      have hunread : unread s.deal ≠ [] := fun hnil => by
        have hlen := length_unread s.deal
        rw [hnil, List.length_nil] at hlen
        omega
      refine .inr (.inr ⟨_, _, _, hpass, (pass_sane h.sane hunread).1 hpass, hd, ?_, hne, ?_⟩)
      · rw [← List.drop_drop]
        exact h.stream.drop l
      · rw [hsum]
        exact h.bad
    | passed hempty => exact absurd hempty hdel.2.1
    -- a whole frame has bytes behind it, and is not handed over
    | complete hfull hc =>
      have hbehind : f.size < n + rest.length := by
        refine h.bad.resolve_right fun hnot => hnot (.inr (.inr ?_))
        omega
      have hd := hc.buffered.dataSize
      have hafter : afterParse send { s with deal := taken d' l } =
          .ok ({ s with deal := taken d' l }, false) :=
        afterParse_behind send hc hdel (by show f.size < (taken d' l).dataSize; omega)
      right; left
      refine ⟨{ s with deal := taken d' l }, ?_⟩
      rw [pass_taken realLen hparse hafter]
      rfl
  · -- nothing has been taken
    have hafter : (∃ e, afterParse send s = .error e) ∨ ∃ b, afterParse send s = .ok (s, b) := by
      rcases hwhere with hone | hunf
      · exact afterParse_short send h.sane (by omega)
      · exact .inr ⟨true, afterParse_unfinished send hunf⟩
    have hsame : { s with deal := taken s.deal 0 } = s := by
      rw [h.sane.taken_zero]
    rw [← hsame] at hafter
    rcases hafter with ⟨e, hafter⟩ | ⟨b, hafter⟩
    · exact .inl ⟨e, pass_faults realLen hparse hafter⟩
    · have hpass := pass_taken realLen hparse hafter
      rw [hsame] at hpass
      cases b with
      | false => exact .inr (.inl ⟨s, hpass⟩)
      | true =>
        rw [if_pos rfl, if_pos (by omega)] at hpass
        exact .inr (.inr ⟨s, n, rest, hpass, h⟩)

/-- Bytes that end where the parser cannot wait make `readData` fail, if it returns. -/
theorem Cut.fails {n : ℕ} {f : Frame} {rest : List UInt8} (h : Cut s f fs n rest) (hclean : f.Clean)
    (hdel : f.Delivered) {realLen : ℕ} {r : ℤ}
    (hends : Loop.Ends (pass send realLen) s (.ok (r, s'))) : r = -1 := by
  let Q : Except WsFault (ℤ × WsStickyWrap) → Prop := fun out => ∀ r t, out = .ok (r, t) → r = -1
  have hQ : Q (.ok (r, s')) := by
    refine Loop.Ends.of_invariant (fun t => ∃ n rest, Cut t f fs n rest) Q ?_ ?_ ?_ ⟨n, rest, h⟩
      hends
    · rintro t t' ⟨n, rest, ht⟩ hnext
      rcases ht.round send hclean hdel realLen with ⟨e, hpass⟩ | ⟨u, hpass⟩ |
        ⟨u, n', rest', hpass, hu⟩
      · rw [hpass] at hnext
        cases hnext
      · rw [hpass] at hnext
        cases hnext
      · rw [hpass] at hnext
        cases hnext
        exact ⟨n', rest', hu⟩
    · rintro t x ⟨n, rest, ht⟩ hdone r u hout
      cases hout
      rcases ht.round send hclean hdel realLen with ⟨e, hpass⟩ | ⟨u, hpass⟩ |
        ⟨u, n', rest', hpass, -⟩
      · rw [hpass] at hdone
        cases hdone
      · rw [hpass] at hdone
        cases hdone
        rfl
      · rw [hpass] at hdone
        cases hdone
    · rintro _ _ _ _ _ _ ⟨⟩
  exact hQ r s' rfl

/-! ### Runs -/

/-- Nothing is kept, and every frame to come is delivered and read as it is meant. -/
structure Plain (c : Cursor) : Prop where
  kept : c.kept = 0
  frames : ∀ f ∈ c.frames, f.Delivered ∧ f.Clean

theorem mem_of_mem_cursor {k e : ℕ} {f : Frame} (h : f ∈ (cursor k fs e).frames) : f ∈ fs := by
  induction fs generalizing k e with
  | nil => exact h
  | cons g fs ih =>
    by_cases hlt : e < g.size
    · rwa [cursor_of_lt hlt] at h
    · rw [cursor_of_le (by omega)] at h
      exact List.mem_cons_of_mem g (ih h)

theorem Plain.advance (h : Plain c) (e : ℕ) : Plain (c.advance e) := by
  unfold Cursor.advance
  rw [h.kept]
  exact ⟨cursor_kept (fun f hf => (h.frames f hf).1) _,
    fun f hf => h.frames f (mem_of_mem_cursor hf)⟩

/-- Where the chunk ends the parser cannot wait. -/
theorem Waiting.cut {f : Frame} {got : ℕ} {chunk : Chunk} (h : Waiting send ⟨0, f :: fs, got⟩ s)
    (hsane : Sane s.deal) (hdel : f.Delivered) (hclean : f.Clean)
    (hchunk : chunk.bytes <+: (wire (f :: fs)).drop got) (he : Enters s chunk)
    (hfine : ¬ Fine 0 (f :: fs) (got + chunk.bytes.length)) :
    Cut (Ws.stored s chunk) f fs got chunk.bytes := by
  refine ⟨stored_sane hsane he, h.stored he, hchunk, List.length_pos_iff.1 he.1, ?_⟩
  by_contra hbad
  obtain ⟨hle, hcut⟩ := not_or.1 hbad
  refine hfine (.inr ⟨hclean, ?_⟩)
  by_cases hlt : got + chunk.bytes.length < f.size
  · rw [if_pos hlt]
    exact not_not.1 hcut
  · rw [if_neg hlt, if_pos hdel]
    exact ⟨rfl, by omega⟩

/-- A call that returns without failing comes to the end of the chunk. -/
theorem Waiting.reads (h : Waiting send c s) (hsane : Sane s.deal) (hplain : Plain c)
    {chunk : Chunk} (hchunk : chunk.bytes <+: (wire c.frames).drop c.got)
    (hreads : Reads send s chunk s') : Waiting send (c.advance chunk.bytes.length) s' := by
  obtain ⟨fuel, r, hread, hr⟩ := hreads
  by_cases he : Enters s chunk
  · by_cases hfine : Fine c.kept c.frames (c.got + chunk.bytes.length)
    · have hb := h.holding.buffered
      have hsize : s.deal.dataSize = c.kept + c.got := hb.dataSize
      have hcap := hb.cap
      have hfits := he.2
      obtain ⟨s₁, ⟨fuel₁, r₁, hread₁, -⟩, hwait, -⟩ :=
        readData_spec h chunk hchunk ⟨by omega, hfine⟩
      have heq := readData_unique hread hread₁
      injection heq with heq
      injection heq with _ heq
      rw [heq]
      exact hwait
    · obtain ⟨k, frames, got⟩ := c
      -- the chunk ends where the parser cannot wait, so that the call fails
      obtain rfl : k = 0 := hplain.kept
      cases frames with
      | nil => exact absurd trivial hfine
      | cons f fs =>
        obtain ⟨hdel, hclean⟩ := hplain.frames f List.mem_cons_self
        rw [readData_enters he] at hread
        exact absurd ((h.cut hsane hdel hclean hchunk he hfine).fails hclean hdel ⟨fuel, hread⟩) hr
  · -- only an empty chunk is refused without an error
    have hempty : chunk.bytes.length = 0 := by
      by_contra hne
      unfold readData at hread
      rw [if_pos (by omega), if_neg fun hfits => he ⟨by omega, hfits⟩] at hread
      injection hread with hread
      injection hread with hread
      injection hread with hret _
      exact hr hret.symm
    obtain ⟨r', hrefuse⟩ := readData_refuses send he fuel
    rw [hrefuse] at hread
    cases hread
    rw [hempty]
    exact h.now.symm ▸ h

/-- The chunks one after the other, as far as they are read. -/
theorem Waiting.run {m : ℕ → UInt8} {junk : WsHead} {chunks : List Chunk} (h : Waiting send c s)
    (hsane : Sane s.deal) (hplain : Plain c)
    (hrun : (system send m junk).Run s chunks s')
    (hcut : received chunks <+: (wire c.frames).drop c.got) :
    Waiting send (c.advance (received chunks).length) s' := by
  induction hrun generalizing c with
  | nil => exact h.now.symm ▸ h
  | @cons s t u chunk chunks hstep _ ih =>
    have hcut' : chunk.bytes ++ received chunks <+: (wire c.frames).drop c.got := hcut
    have hwait := h.reads hsane hplain ((List.prefix_append _ _).trans hcut') hstep
    rw [length_received_cons, ← Cursor.advance_advance]
    exact ih hwait (hsane.reads hstep) (hplain.advance _) (Cursor.rest_ahead hcut')

/-! ### The result -/

/-- The `long data` branch of `readData`. -/
def LongData (s : WsStickyWrap) (chunk : Chunk) : Prop :=
  0 < chunk.bytes.length ∧ ¬ (chunk.bytes.length : ℤ) < (s.deal.dataCap : ℤ) - s.deal.dataSize

/-- The buffer after `bytes` of the stream of `fs`: what has been read is in bounds, nothing is left
of whole frames, and a chunk is only too long if it does not fit behind the unfinished frame. -/
structure Reclaimed (fs : List Frame) (bytes : List UInt8) (s : WsStickyWrap) : Prop where
  read_le : s.deal.readSize ≤ s.deal.dataSize
  size_lt : s.deal.dataSize < s.deal.dataCap
  whole : ∀ gs, gs <+: fs → bytes = wire gs → s.deal.dataSize = 0 ∧ s.deal.readSize = 0
  long : ∀ chunk, LongData s chunk →
    s.deal.dataCap ≤ (cursor 0 fs bytes.length).got + chunk.bytes.length

/-- A parser that waits, with nothing kept, has been reclaimed. -/
theorem Waiting.reclaimed {bytes : List UInt8} (h : Waiting send (cursor 0 fs bytes.length) s)
    (hkept : (cursor 0 fs bytes.length).kept = 0) : Reclaimed fs bytes s := by
  have hb := h.holding.buffered
  have hread := hb.readSize
  have hsize : s.deal.dataSize =
      (cursor 0 fs bytes.length).kept + (cursor 0 fs bytes.length).got := hb.dataSize
  have hroom := hb.room
  have hcap := hb.cap
  refine ⟨by omega, by omega, fun gs hgs heq => ?_, fun chunk hlong => ?_⟩
  · have hgot : (cursor 0 fs bytes.length).got = 0 := by
      rw [heq]
      exact cursor_whole 0 hgs
    omega
  · have hnot := hlong.2
    omega

/-- After every call that returns a non-negative value the buffer is reclaimed, in every run in which
all frames are delivered and none of their bytes is mistaken. -/
theorem reclaimed_of_delivered (send : ℕ → ℤ) (m : ℕ → UInt8) (junk : WsHead) (fs : List Frame)
    (chunks : List Chunk) (hfs : ∀ f ∈ fs, f.Delivered ∧ f.Clean)
    (hcut : received chunks <+: wire fs) (s : WsStickyWrap)
    (hrun : (system send m junk).Run (new m junk) chunks s) :
    Reclaimed fs (received chunks) s := by
  have hnone : (fs.filter fun f => f.Replied) = [] := by
    refine List.filter_eq_nil_iff.2 fun f hf hr => ?_
    have hreplied : f.Replied := of_decide_eq_true hr
    refine (hfs f hf).1.2.2 ?_
    rcases hreplied.2.2 with h | h <;> rw [h] <;> decide
  have hnew : Waiting send ⟨0, fs, 0⟩ (new m junk) :=
    new_waiting m junk fun i hi => by
      rw [hnone] at hi
      exact absurd hi (Nat.not_lt_zero i)
  have hwait := hnew.run (new_sane m junk) ⟨rfl, hfs⟩ hrun (by rwa [List.drop_zero])
  unfold Cursor.advance at hwait
  rw [Nat.zero_add] at hwait
  exact hwait.reclaimed (cursor_kept (fun f hf => (hfs f hf).1) _)

/-- A text frame, cut behind its base header. -/
def textChunks : List Chunk := sampleChunks.take 2

theorem reclaimed_of_delivered_sample :
    ∃ s, (system (fun _ => 1) (fun _ => 0) ⟨none, 0, fun _ => 0⟩).Run
        (new (fun _ => 0) ⟨none, 0, fun _ => 0⟩) textChunks s ∧
      Reclaimed [textFrame 65] (received textChunks) s := by
  have hrun : (system (fun _ => 1) (fun _ => 0) ⟨none, 0, fun _ => 0⟩).Run
      (new (fun _ => 0) ⟨none, 0, fun _ => 0⟩) textChunks _ :=
    .cons ⟨3, 2, rfl, by decide⟩ (.cons ⟨4, 5, rfl, by decide⟩ (.nil _))
  refine ⟨_, hrun, reclaimed_of_delivered (fun _ => 1) (fun _ => 0) ⟨none, 0, fun _ => 0⟩
    [textFrame 65] textChunks ?_ ?_ _ hrun⟩
  · exact List.forall_mem_singleton.2 (by decide)
  · exact ⟨[], by decide⟩

/-- A whole ping stays in the buffer. -/
theorem ping_stays :
    ∃ s, (system (fun _ => 1) (fun _ => 0) ⟨none, 0, fun _ => 0⟩).Run
        (new (fun _ => 0) ⟨none, 0, fun _ => 0⟩) [⟨[137, 128, 0, 0, 0, 0], by decide⟩] s ∧
      received [⟨[137, 128, 0, 0, 0, 0], by decide⟩] = wire [emptyPing] ∧
      s.deal.dataSize = 6 ∧ ¬ Reclaimed [emptyPing] (wire [emptyPing]) s := by
  have hrun : (system (fun _ => 1) (fun _ => 0) ⟨none, 0, fun _ => 0⟩).Run
      (new (fun _ => 0) ⟨none, 0, fun _ => 0⟩) [⟨[137, 128, 0, 0, 0, 0], by decide⟩] _ :=
    .cons ⟨3, 6, rfl, by decide⟩ (.nil _)
  refine ⟨_, hrun, by decide, by decide, fun h => ?_⟩
  have hzero := (h.whole [emptyPing] (List.prefix_refl _) rfl).1
  exact absurd hzero (by decide)

end Ws
end NetService
