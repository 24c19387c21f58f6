import NetService.Ws.Rounds
import NetService.Ws.Unmask

/-!
# What a parse error leaves behind

`parseWsHead` fails at a payload byte that is `-1` as a `char`, when it has unmasked the bytes before
that one and moved `_parse_Index` over them, and `readData` returns as if nothing had happened.  Only
when the byte is the first one that the call looks at is nothing changed.

In `rounds` every round of every call is a step, and the bytes of the stream that are XORed with the
mask are recorded.
-/

namespace NetService
namespace Ws

open Memory WsStickyWrap Relation

/-! ### The cells that are unmasked -/

/-- The cells that the loop of `READ_DATA` XORs with the mask, over `n` bytes from `pbuff` on. -/
def WsDealWith.unmasked : ℕ → ℕ → WsDealWith → List ℕ
  | 0, _, _ => []
  | n + 1, pbuff, d =>
      if d.parseIndex < d.head.len.toNat then
        let curByte := d.pData pbuff
        if curByte = 0xFF then []
        else pbuff :: unmasked n (pbuff + 1)
          { d with
            pData := Function.update d.pData pbuff
              (curByte ^^^ maskAt d.head.masks d.parseIndex)
            parseIndex := u16 (d.parseIndex + 1) }
      else []

theorem u16_lt (x : ℤ) : u16 x < 65536 := by
  unfold u16 Word.wrap
  omega

/-- The loop XORs the first `k` cells, and moves `_parse_Index` over as many bytes. -/
theorem unmasked_cells (n pbuff readlen : ℕ) (d : WsDealWith) (hindex : d.parseIndex < 65536) :
    ∃ k ≤ n, d.unmasked n pbuff = List.range' pbuff k ∧
      (d.unmask n pbuff readlen).1.parseIndex = u16 (d.parseIndex + k) ∧
      ∀ r, (d.unmask n pbuff readlen).2 = some r → r = readlen + k := by
  have hzero : d.parseIndex = u16 (d.parseIndex + (0 : ℕ)) := by
    exact_mod_cast (u16_natCast (n := d.parseIndex + 0) (by omega)).symm
  induction n generalizing pbuff readlen d with
  | zero => exact ⟨0, le_rfl, rfl, hzero, fun r hr => (Option.some.inj hr).symm⟩
  | succ n ih =>
    unfold WsDealWith.unmasked WsDealWith.unmask
    by_cases hlt : d.parseIndex < d.head.len.toNat
    case neg =>
      rw [if_neg hlt, if_neg hlt]
      exact ⟨0, Nat.zero_le _, rfl, hzero, fun r hr => (Option.some.inj hr).symm⟩
    rw [if_pos hlt, if_pos hlt]
    by_cases hbyte : d.pData pbuff = 0xFF
    · simp only [hbyte, if_true]
      exact ⟨0, Nat.zero_le _, rfl, hzero, fun r hr => absurd hr.symm (Option.some_ne_none r)⟩
    · simp only [hbyte, if_false]
      have hsmall := u16_lt ((d.parseIndex : ℤ) + 1)
      obtain ⟨k, hk, hcells, hparse, hread⟩ := ih (pbuff + 1) (readlen + 1)
        { d with
          pData := Function.update d.pData pbuff
            (d.pData pbuff ^^^ maskAt d.head.masks d.parseIndex)
          parseIndex := u16 (d.parseIndex + 1) } hsmall
        (by exact_mod_cast (u16_natCast hsmall).symm)
      refine ⟨k + 1, by omega, ?_, ?_, fun r hr => ?_⟩
      · rw [hcells, List.range'_succ]
      · rw [hparse]
        show u16 ((u16 ((d.parseIndex : ℤ) + 1) : ℕ) + (k : ℤ)) = u16 (d.parseIndex + (k + 1 : ℕ))
        unfold u16 Word.wrap
        push_cast
        omega
      · rw [hread r hr]
        omega

/-- The bytes that the loop looks at, of those that are unparsed. -/
def inPayload (len index : ℕ) (l : List UInt8) : List UInt8 :=
  if len < 65536 then l.take (len - index) else l

theorem inPayload_cons {len index : ℕ} (hlt : index < len) (hindex : index < 65536) (b : UInt8)
    (l : List UInt8) : inPayload len index (b :: l) = b :: inPayload len (u16 (index + 1)) l := by
  unfold inPayload
  by_cases hlen : len < 65536
  · have hnext : u16 ((index : ℤ) + 1) = index + 1 := by
      exact_mod_cast u16_natCast (n := index + 1) (by omega)
    rw [if_pos hlen, if_pos hlen, hnext, show len - index = len - (index + 1) + 1 by omega]
    rfl
  · rw [if_neg hlen, if_neg hlen]

/-- The loop fails exactly if one of these bytes is `-1`. -/
theorem unmask_none_iff (n pbuff readlen : ℕ) (d : WsDealWith) (hindex : d.parseIndex < 65536) :
    (d.unmask n pbuff readlen).2 = none ↔
      0xFF ∈ inPayload d.head.len.toNat d.parseIndex (load d.pData pbuff n) := by
  induction n generalizing pbuff readlen d with
  | zero =>
    rw [load_zero]
    refine iff_of_false (Option.some_ne_none _) ?_
    unfold inPayload
    split_ifs
    · rw [List.take_nil]
      exact List.not_mem_nil
    · exact List.not_mem_nil
  | succ n ih =>
    unfold WsDealWith.unmask
    by_cases hlt : d.parseIndex < d.head.len.toNat
    case neg =>
      rw [if_neg hlt]
      refine iff_of_false (Option.some_ne_none _) ?_
      unfold inPayload
      rw [if_pos (by omega), show d.head.len.toNat - d.parseIndex = 0 by omega, List.take_zero]
      exact List.not_mem_nil
    rw [if_pos hlt, load_succ, inPayload_cons hlt hindex, List.mem_cons]
    by_cases hbyte : d.pData pbuff = 0xFF
    · simp only [hbyte, if_true, true_or]
    · have hkeep : load (Function.update d.pData pbuff (d.pData pbuff ^^^
          maskAt d.head.masks d.parseIndex)) (pbuff + 1) n = load d.pData (pbuff + 1) n :=
        load_update_above _ _ _ (Nat.lt_succ_self pbuff)
      simp only [hbyte, if_false]
      rw [ih _ _ _ (u16_lt (d.parseIndex + 1))]
      show 0xFF ∈ inPayload _ _ (load (Function.update d.pData pbuff _) (pbuff + 1) n) ↔ _
      rw [hkeep]
      exact ⟨.inr, fun h => h.resolve_left (Ne.symm hbyte)⟩

/-! ### A call that fails -/

/-- The cells that a call of `parseWsHead` on the unparsed bytes XORs with the mask. -/
def xored (d : WsDealWith) : List ℕ :=
  match d.op with
  | .readData => d.unmasked (d.dataSize - d.readSize) d.readSize
  | _ => []

/-- The bytes of the buffer, `_parse_Index`, `_Op` and `_Read_size` are the same. -/
structure Unchanged (d d' : WsDealWith) : Prop where
  pData : d'.pData = d.pData
  parseIndex : d'.parseIndex = d.parseIndex
  op : d'.op = d.op
  readSize : d'.readSize = d.readSize

/-- A byte that is an error behind one that is not, in a payload. -/
inductive View.Spoiled : View → Prop
  | intro {sent len index : ℕ} {b₀ b : UInt8} {l : List UInt8} (first : b ≠ 0xFF)
      (later : 0xFF ∈ inPayload len index (b :: l)) : Spoiled ⟨sent, .data b₀ len index, b :: l⟩

variable {send : ℕ → ℤ} {s s' : WsStickyWrap}

/-- Only the loop over a payload fails. -/
theorem parse_fails (h : Sane s.deal) (hne : unread s.deal ≠ []) {d' : WsDealWith}
    (hparse : s.deal.parseWsHead s.deal.readSize ((s.deal.dataSize : ℤ) - s.deal.readSize) =
      .ok (d', none)) :
    s.deal.op = .readData ∧
      s.deal.unmask (s.deal.dataSize - s.deal.readSize) s.deal.readSize 0 = (d', none) := by
  obtain ⟨d'', r, heq, hparsed⟩ := parsed_spec h hne
  obtain ⟨rfl, rfl⟩ := Prod.mk.inj (Except.ok.inj (hparse.symm.trans heq))
  cases hparsed with
  | stopped op =>
    refine ⟨op, ?_⟩
    have hle := h.read_le
    have hlen := length_unread s.deal
    have hpos := List.length_pos_iff.2 hne
    have hcast : ((s.deal.dataSize : ℤ) - s.deal.readSize).toNat =
        s.deal.dataSize - s.deal.readSize := by omega
    rw [← hcast]
    cases hunmask : s.deal.unmask ((s.deal.dataSize : ℤ) - s.deal.readSize).toNat
        s.deal.readSize 0 with
    | mk d₁ r =>
      cases r with
      | none =>
        rw [parse_data_none op (by omega) hunmask] at hparse
        cases hparse
        rfl
      | some l =>
        rw [parse_data_some op (by omega) hunmask] at hparse
        cases hparse

/-- The first unparsed byte, and the others. -/
theorem unread_cons {d : WsDealWith} (hne : unread d ≠ []) :
    ∃ n, d.dataSize - d.readSize = n + 1 ∧
      unread d = d.pData d.readSize :: load d.pData (d.readSize + 1) n := by
  have hlen := length_unread d
  have hpos := List.length_pos_iff.2 hne
  obtain ⟨n, hn⟩ : ∃ n, d.dataSize - d.readSize = n + 1 :=
    ⟨d.dataSize - d.readSize - 1, by omega⟩
  refine ⟨n, hn, ?_⟩
  unfold unread
  rw [hn, load_succ]

/-- In a payload with an error among the bytes looked at, the state is spoiled exactly if the error is
not the first byte. -/
theorem spoiled_iff (h : Sane s.deal) (hop : s.deal.op = .readData) (hne : unread s.deal ≠ [])
    (hbad : 0xFF ∈ inPayload s.deal.head.len.toNat s.deal.parseIndex (unread s.deal)) :
    (view s).Spoiled ↔ s.deal.pData s.deal.readSize ≠ 0xFF := by
  have hview : ∃ b₀, view s = ⟨(written s.calls).length,
      .data b₀ s.deal.head.len.toNat s.deal.parseIndex, unread s.deal⟩ := by
    cases h.stands with
    | head op | length op | key op => rw [hop] at op; cases op
    | data _ wbs =>
      unfold view
      rw [phase_data hop wbs]
      exact ⟨_, rfl⟩
  obtain ⟨b₀, hview⟩ := hview
  obtain ⟨n, -, hcons⟩ := unread_cons hne
  rw [hview]
  rw [hcons] at hbad ⊢
  constructor
  · intro hspoiled
    cases hspoiled with
    | intro first => exact first
  · exact fun hbyte => .intro hbyte hbad

/-- A call that fails has changed something, and XORed a cell, exactly if the byte that is an error
was not the first one. -/
theorem fails_spoiled_iff (h : Sane s.deal) (hne : unread s.deal ≠ []) {d' : WsDealWith}
    (hparse : s.deal.parseWsHead s.deal.readSize ((s.deal.dataSize : ℤ) - s.deal.readSize) =
      .ok (d', none)) :
    (Unchanged s.deal d' ↔ ¬ (view s).Spoiled) ∧ (xored s.deal = [] ↔ ¬ (view s).Spoiled) := by
  obtain ⟨hop, hunmask⟩ := parse_fails h hne hparse
  have hsmall := h.index
  have hxored : xored s.deal =
      s.deal.unmasked (s.deal.dataSize - s.deal.readSize) s.deal.readSize := by
    unfold xored
    rw [hop]
  -- the bytes are looked at because there is an error among them
  have hbad := (unmask_none_iff (s.deal.dataSize - s.deal.readSize) s.deal.readSize 0 s.deal
    hsmall).1 (congrArg Prod.snd hunmask)
  have hlt : s.deal.parseIndex < s.deal.head.len.toNat := by
    by_contra hge
    unfold inPayload at hbad
    rw [if_pos (by omega), show s.deal.head.len.toNat - s.deal.parseIndex = 0 by omega,
      List.take_zero] at hbad
    exact absurd hbad List.not_mem_nil
  rw [spoiled_iff h hop hne hbad, not_not]
  obtain ⟨n, hn, -⟩ := unread_cons hne
  rw [hn] at hxored hunmask
  by_cases hbyte : s.deal.pData s.deal.readSize = 0xFF
  · unfold WsDealWith.unmask at hunmask
    unfold WsDealWith.unmasked at hxored
    rw [if_pos hlt] at hunmask hxored
    simp only [hbyte, if_true] at hunmask hxored
    cases hunmask
    exact ⟨iff_of_true ⟨rfl, rfl, rfl, rfl⟩ hbyte, iff_of_true hxored hbyte⟩
  · obtain ⟨k, hk, hcells, hindex, -⟩ := unmasked_cells (n + 1) s.deal.readSize 0 s.deal hsmall
    have hcons : s.deal.unmasked (n + 1) s.deal.readSize ≠ [] := by
      unfold WsDealWith.unmasked
      rw [if_pos hlt]
      simp only [hbyte, if_false]
      exact List.cons_ne_nil _ _
    have hpos : 0 < k := by
      rw [Nat.pos_iff_ne_zero]
      rintro rfl
      exact hcons hcells
    rw [hunmask] at hindex
    have hsize := h.size_lt
    refine ⟨iff_of_false (fun hsame => ?_) hbyte, iff_of_false (hxored ▸ hcons) hbyte⟩
    have heq : s.deal.parseIndex = u16 ((s.deal.parseIndex : ℤ) + k) :=
      hsame.parseIndex.symm.trans hindex
    unfold u16 Word.wrap at heq
    omega

/-! ### A call of `readData` -/

/-- The bytes lead to a payload in which an error stands behind bytes that are none. -/
def View.Spoils (send : ℕ → ℤ) (v : View) : Prop :=
  ∃ w, ReflTransGen (View.Goes send) v w ∧ w.Spoiled

/-- Whenever `parseWsHead` returns `-1` in `readData`, then `readData` returns a negative value, or
nothing has changed. -/
def Unharmed (send : ℕ → ℤ) (s : WsStickyWrap) (chunk : Chunk) : Prop :=
  Enters s chunk → ∀ t, Loop.Visits (pass send chunk.bytes.length) (stored s chunk) t → ∀ d',
    t.deal.parseWsHead t.deal.readSize ((t.deal.dataSize : ℤ) - t.deal.readSize) = .ok (d', none) →
      (∃ fuel r s', s.readData send fuel chunk.bytes = some (.ok (r, s')) ∧ r < 0) ∨
        Unchanged t.deal d'

theorem spoiled_bytes_ne {v : View} (h : v.Spoiled) : v.bytes ≠ [] := by
  cases h
  exact List.cons_ne_nil _ _

/-- The payload that a spoiled state is in. -/
theorem spoiled_data (h : (view s).Spoiled) :
    s.deal.op = .readData ∧
      0xFF ∈ inPayload s.deal.head.len.toNat s.deal.parseIndex (unread s.deal) := by
  unfold view at h
  obtain ⟨p, hp⟩ : ∃ p, p = phase s.deal := ⟨_, rfl⟩
  obtain ⟨l, hl⟩ : ∃ l, l = unread s.deal := ⟨_, rfl⟩
  rw [← hp, ← hl] at h
  cases h with
  | intro _ later =>
    unfold phase at hp
    cases hop : s.deal.op with
    | initHead | readMask | readPayload | readMaskKey =>
      rw [hop] at hp
      cases hp
    | readData =>
      rw [hop] at hp
      cases hp
      exact ⟨rfl, hl ▸ later⟩

theorem spoiled_not_few (h : (view s).Spoiled) : ¬ Few s.deal :=
  not_few_data (spoiled_data h).1

/-- In a spoiled state the call fails. -/
theorem spoiled_fails (h : Begins s) (hspoiled : (view s).Spoiled) :
    ∃ d', s.deal.parseWsHead s.deal.readSize ((s.deal.dataSize : ℤ) - s.deal.readSize) =
      .ok (d', none) := by
  obtain ⟨hop, hbad⟩ := spoiled_data hspoiled
  have hlen := length_unread s.deal
  have hpos := List.length_pos_iff.2 h.2
  have hnone := (unmask_none_iff (s.deal.dataSize - s.deal.readSize) s.deal.readSize 0 s.deal
    h.1.index).2 hbad
  have hunmask : s.deal.unmask ((s.deal.dataSize : ℤ) - s.deal.readSize).toNat s.deal.readSize 0 =
      ((s.deal.unmask (s.deal.dataSize - s.deal.readSize) s.deal.readSize 0).1, none) := by
    rw [show ((s.deal.dataSize : ℤ) - s.deal.readSize).toNat = s.deal.dataSize - s.deal.readSize by
      omega]
    exact Prod.ext rfl hnone
  exact ⟨_, parse_data_none hop (by omega) hunmask⟩

/-- A call in which `parseWsHead` fails does not return a negative value. -/
theorem fails_returns {chunk : Chunk} (he : Enters s chunk) {t : WsStickyWrap}
    (hvisits : Loop.Visits (pass send chunk.bytes.length) (stored s chunk) t) {d' : WsDealWith}
    (hparse : t.deal.parseWsHead t.deal.readSize ((t.deal.dataSize : ℤ) - t.deal.readSize) =
      .ok (d', none)) {fuel : ℕ} {r : ℤ}
    (hread : s.readData send fuel chunk.bytes = some (.ok (r, s'))) : ¬ r < 0 := by
  rw [readData_enters he] at hread
  have hends : Loop.Ends (pass send chunk.bytes.length) (stored s chunk) _ :=
    (Loop.Ends.done (pass_failed send _ hparse)).of_visits hvisits
  have heq := Loop.Ends.unique ⟨fuel, hread⟩ hends
  cases heq
  omega

/-- A call leaves nothing half-changed if the bytes do not lead to a spoiled payload. -/
theorem unharmed_iff_not_spoils (h : Sane s.deal) (chunk : Chunk) :
    Unharmed send s chunk ↔ (Enters s chunk → ¬ (offered s chunk).Spoils send) := by
  constructor
  · rintro hun he ⟨w, hgoes, hw⟩
    have hbegins := stored_begins h he
    rw [← view_stored h he] at hgoes
    obtain ⟨t, hvisits, ht, rfl⟩ := goes_visits chunk.bytes.length hbegins hgoes
      (spoiled_bytes_ne hw)
    obtain ⟨d', hparse⟩ := spoiled_fails ht hw
    rcases hun he t hvisits d' hparse with ⟨fuel, r, s', hread, hr⟩ | hsame
    · exact fails_returns he hvisits hparse hread hr
    · exact (fails_spoiled_iff ht.1 ht.2 hparse).1.1 hsame hw
  · intro hfree he t hvisits d' hparse
    obtain ⟨ht, hgoes⟩ := visits_goes (stored_begins h he) hvisits
    refine .inr ((fails_spoiled_iff ht.1 ht.2 hparse).1.2 fun hw => ?_)
    rcases hgoes with hfew | hgoes
    · exact spoiled_not_few hw hfew
    · rw [view_stored h he] at hgoes
      exact hfree he ⟨_, hgoes, hw⟩

/-! ### Whole runs -/

/-- Between two calls, in the loop of a call that was given `len` bytes, or after a call that returned
a negative value. -/
inductive Status
  | idle
  | inCall (len : ℕ)
  | closed

/-- A connection with the number of bytes that have left the buffer, and the places in the stream of
the bytes that were XORed with the mask, each time they were. -/
structure Marked where
  wrap : WsStickyWrap
  status : Status
  dropped : ℕ
  xored : List ℕ

/-- After a round that leaves `s'`. -/
def Marked.after (x : Marked) (s' : WsStickyWrap) (status : Status) : Marked where
  wrap := s'
  status := status
  dropped := x.dropped + (x.wrap.deal.dataSize - s'.deal.dataSize)
  xored := x.xored ++ (Ws.xored x.wrap.deal).map (x.dropped + ·)

/-- The rounds of the calls of `readData`: a chunk is given to a call that enters its loop, or a round
of the loop is made. -/
def rounds (send : ℕ → ℤ) (m : ℕ → UInt8) (junk : WsHead) : LTS Marked (Option Chunk) where
  init x := x = ⟨new m junk, .idle, 0, []⟩
  step x a x' :=
    match a with
    | some chunk => x.status = .idle ∧ Enters x.wrap chunk ∧
        x' = { x with wrap := stored x.wrap chunk, status := .inCall chunk.bytes.length }
    | none => ∃ len, x.status = .inCall len ∧
        ((∃ s', pass send len x.wrap = .next s' ∧ x' = x.after s' (.inCall len)) ∨
          ∃ r s', pass send len x.wrap = .done (r, s') ∧
            x' = x.after s' (if r < 0 then .closed else .idle))

/-- As long as no call has returned a negative value, the rounds are those of a run of `readData`. -/
theorem rounds_running {m : ℕ → UInt8} {junk : WsHead} {x : Marked}
    (h : (rounds send m junk).Reachable x) :
    (x.status = .idle → (system send m junk).Reachable x.wrap) ∧
      ∀ len, x.status = .inCall len → ∃ s chunk, (system send m junk).Reachable s ∧
        Enters s chunk ∧ len = chunk.bytes.length ∧
          Loop.Visits (pass send len) (stored s chunk) x.wrap := by
  refine h.invariant (I := fun x => (x.status = .idle → (system send m junk).Reachable x.wrap) ∧
    ∀ len, x.status = .inCall len → ∃ s chunk, (system send m junk).Reachable s ∧
      Enters s chunk ∧ len = chunk.bytes.length ∧
        Loop.Visits (pass send len) (stored s chunk) x.wrap) ?_ ?_
  · rintro _ rfl
    exact ⟨fun _ => ⟨_, [], rfl, .nil _⟩, nofun⟩
  · rintro x a x' ⟨hidle, hcalls⟩ hstep
    cases a with
    | some chunk =>
      obtain ⟨hstatus, he, rfl⟩ := hstep
      refine ⟨nofun, fun len hlen => ?_⟩
      cases hlen
      exact ⟨x.wrap, chunk, hidle hstatus, he, rfl, .start⟩
    | none =>
      obtain ⟨len, hcall, hround⟩ := hstep
      obtain ⟨s, chunk, hs, he, rfl, hvisits⟩ := hcalls len hcall
      rcases hround with ⟨s', hpass, rfl⟩ | ⟨r, s', hpass, rfl⟩
      · refine ⟨nofun, fun len' hlen' => ?_⟩
        cases hlen'
        exact ⟨s, chunk, hs, he, rfl, hvisits.next hpass⟩
      · refine ⟨fun hstatus => ?_, fun len' hlen' => ?_⟩
        · have hr : r ≠ -1 := by
            rintro rfl
            cases hstatus
          obtain ⟨fuel, hfuel⟩ := (Loop.Ends.done hpass).of_visits hvisits
          obtain ⟨s₀, chunks, hinit, hrun⟩ := hs
          have hreads : Reads send s chunk s' := ⟨fuel, r, by rw [readData_enters he, hfuel], hr⟩
          exact ⟨s₀, chunks ++ [chunk], hinit, hrun.append (.cons hreads (.nil _))⟩
        · simp only [Marked.after] at hlen'
          split_ifs at hlen'

/-- A call that succeeds XORs at most the cells that it takes. -/
theorem parse_xored (h : Sane s.deal) (hne : unread s.deal ≠ []) {d' : WsDealWith} {n : ℕ}
    (hparse : s.deal.parseWsHead s.deal.readSize ((s.deal.dataSize : ℤ) - s.deal.readSize) =
      .ok (d', some n)) :
    ∃ k ≤ n, xored s.deal = List.range' s.deal.readSize k := by
  have hlen := length_unread s.deal
  have hpos := List.length_pos_iff.2 hne
  unfold xored
  cases hop : s.deal.op with
  | initHead | readMask | readPayload | readMaskKey => exact ⟨0, Nat.zero_le _, rfl⟩
  | readData =>
    obtain ⟨k, -, hcells, -, hread⟩ := unmasked_cells (s.deal.dataSize - s.deal.readSize)
      s.deal.readSize 0 s.deal h.index
    have havail : ((s.deal.dataSize : ℤ) - s.deal.readSize).toNat =
      s.deal.dataSize - s.deal.readSize := by omega
    cases hunmask : s.deal.unmask (s.deal.dataSize - s.deal.readSize) s.deal.readSize 0 with
    | mk d₁ r =>
      rw [← havail] at hunmask
      cases r with
      | none =>
        rw [parse_data_none hop (by omega) hunmask] at hparse
        cases hparse
      | some r =>
        rw [parse_data_some hop (by omega) hunmask] at hparse
        cases hparse
        rw [havail] at hunmask
        have hcount := hread n (congrArg Prod.snd hunmask)
        exact ⟨k, by omega, hcells⟩

/-- A round XORs cells from `_Read_size` on, and leaves none of them unparsed. -/
theorem round_xored {len : ℕ} (h : Begins s) (hclean : ¬ (view s).Spoiled) (s' : WsStickyWrap)
    (hpass : pass send len s = .next s' ∨ ∃ r, pass send len s = .done (r, s')) :
    ∃ k, xored s.deal = List.range' s.deal.readSize k ∧
      s.deal.readSize + k ≤ s.deal.dataSize - s'.deal.dataSize + s'.deal.readSize := by
  obtain ⟨d', r, hparse, hparsed⟩ := parsed_spec h.1 h.2
  have hleft := hparsed.left
  -- the round after the call, by what the call has returned
  have hresult : s'.deal = d' ∧ r = none ∨
      ∃ n b, r = some n ∧ afterParse send { s with deal := taken d' n } = .ok (s', b) := by
    have hcomes := pass_comes send len s
    have hsome : ∀ {d l b}, s.deal.parseWsHead s.deal.readSize
        ((s.deal.dataSize : ℤ) - s.deal.readSize) = .ok (d, some l) →
        afterParse send { s with deal := taken d l } = .ok (s', b) →
        ∃ n b, r = some n ∧ afterParse send { s with deal := taken d' n } = .ok (s', b) := by
      intro d l b parse after
      obtain ⟨rfl, rfl⟩ := Prod.mk.inj (Except.ok.inj (parse.symm.trans hparse))
      exact ⟨l, b, rfl, after⟩
    rcases hpass with hpass | ⟨r', hpass⟩
    · rw [hpass] at hcomes
      cases hcomes with
      | next parse after => exact .inr (hsome parse after)
    · rw [hpass] at hcomes
      cases hcomes with
      | failed parse =>
        obtain ⟨rfl, rfl⟩ := Prod.mk.inj (Except.ok.inj (parse.symm.trans hparse))
        exact .inl ⟨rfl, rfl⟩
      | refused parse after => exact .inr (hsome parse after)
      | last parse after => exact .inr (hsome parse after)
  rcases hresult with ⟨hdeal, rfl⟩ | ⟨n, b, rfl, hafter⟩
  · refine ⟨0, (fails_spoiled_iff h.1 h.2 hparse).2.2 hclean, ?_⟩
    have hread := hleft.readSize
    rw [hdeal]
    omega
  · obtain ⟨k, hk, hcells⟩ := parse_xored h.1 h.2 hparse
    have hsane := hparsed.sane h.1
    have htaken := taken_readSize h.1 hparsed.le hleft.readSize
    have hsize : (taken d' n).dataSize = s.deal.dataSize := hleft.dataSize
    refine ⟨k, hcells, ?_⟩
    rcases afterParse_deal (s := { s with deal := taken d' n }) hsane hafter with
      hdeal | ⟨hzero, hzero'⟩
    · rw [hdeal]
      simp only
      omega
    · have hle := hsane.read_le
      omega

/-- Bytes that lead to no spoiled payload still do so after a round. -/
theorem not_spoils_next {len : ℕ} (h : Begins s) (hfree : ¬ (view s).Spoils send)
    (hnext : pass send len s = .next s') : ¬ (view s').Spoils send := by
  rintro ⟨w, hgoes, hw⟩
  rcases (visits_goes h (.next .start hnext)).2 with hfew | hfrom
  · have hstays : w = view s' := by
      cases hgoes using ReflTransGen.head_induction_on with
      | refl => rfl
      | head hstep => exact absurd hstep (hfew.not_goes _)
    rw [hstays] at hw
    exact spoiled_not_few hw hfew
  · exact hfree ⟨w, hfrom.trans hgoes, hw⟩

/-- No byte has been XORed twice, and none that is not yet parsed has been XORed. -/
structure Once (send : ℕ → ℤ) (x : Marked) : Prop where
  sane : Sane x.wrap.deal
  nodup : x.xored.Nodup
  below : ∀ p ∈ x.xored, p < x.dropped + x.wrap.deal.readSize
  inCall : ∀ len, x.status = .inCall len → Begins x.wrap ∧ ¬ (view x.wrap).Spoils send

/-- A round XORs bytes behind all that have been XORed before. -/
theorem Once.after {x : Marked} {len : ℕ} (h : Once send x) (hcall : x.status = .inCall len)
    {status : Status} (hpass : pass send len x.wrap = .next s' ∨
      ∃ r, pass send len x.wrap = .done (r, s'))
    (hstatus : ∀ len', status = .inCall len' → Begins s' ∧ ¬ (view s').Spoils send) :
    Once send (x.after s' status) := by
  obtain ⟨hbegins, hfree⟩ := h.inCall len hcall
  obtain ⟨k, hcells, hle⟩ := round_xored hbegins (fun hw => hfree ⟨_, .refl, hw⟩) s' hpass
  have hsane : Sane s'.deal := by
    rcases hpass with hpass | ⟨r, hpass⟩
    · exact (pass_sane hbegins.1 hbegins.2).1 hpass
    · exact (pass_sane hbegins.1 hbegins.2).2 r hpass
  have hnew : ∀ p ∈ (Ws.xored x.wrap.deal).map (x.dropped + ·),
      x.dropped + x.wrap.deal.readSize ≤ p ∧
        p < x.dropped + (x.wrap.deal.readSize + k) := by
    intro p hp
    obtain ⟨j, hj, rfl⟩ := List.mem_map.1 hp
    rw [hcells, List.mem_range'_1] at hj
    omega
  refine ⟨hsane, ?_, fun p hp => ?_, hstatus⟩
  · refine List.Nodup.append h.nodup ?_ fun p hold hp => ?_
    · rw [hcells]
      exact (List.nodup_range').map fun a b hab => Nat.add_left_cancel hab
    · have hlt := h.below p hold
      have hge := (hnew p hp).1
      omega
  · show p < x.dropped + (x.wrap.deal.dataSize - s'.deal.dataSize) + s'.deal.readSize
    rcases List.mem_append.1 hp with hp | hp
    · have hlt := h.below p hp
      omega
    · have hlt := (hnew p hp).2
      omega

/-- No chunk that is given leads to a spoiled payload. -/
def Clean (send : ℕ → ℤ) (x : Marked) (a : Option Chunk) : Prop :=
  ∀ chunk, a = some chunk → ¬ (offered x.wrap chunk).Spoils send

theorem once_of_clean {m : ℕ → UInt8} {junk : WsHead} {x : Marked}
    (h : ((rounds send m junk).restrict (Clean send)).Reachable x) : Once send x := by
  refine h.invariant (I := Once send) ?_ ?_
  · rintro _ rfl
    exact ⟨new_sane m junk, List.nodup_nil, fun p hp => absurd hp List.not_mem_nil, nofun⟩
  · rintro x a x' hx ⟨hclean, hstep⟩
    cases a with
    | some chunk =>
      obtain ⟨-, he, rfl⟩ := hstep
      refine ⟨stored_sane hx.sane he, hx.nodup, hx.below, fun len _ => ?_⟩
      exact ⟨stored_begins hx.sane he, by rw [view_stored hx.sane he]; exact hclean chunk rfl⟩
    | none =>
      obtain ⟨len, hcall, ⟨s', hpass, rfl⟩ | ⟨r, s', hpass, rfl⟩⟩ := hstep
      · obtain ⟨hbegins, hfree⟩ := hx.inCall len hcall
        exact hx.after hcall (.inl hpass) fun _ _ =>
          ⟨hbegins.next hpass, not_spoils_next hbegins hfree hpass⟩
      · refine hx.after hcall (.inr ⟨r, hpass⟩) fun len' hlen' => ?_
        split_ifs at hlen'

/-- In every reachable state and for every chunk, a parse error leaves nothing half-changed exactly
if the bytes lead to no payload in which an error stands behind bytes that are none; and in a run in
which no chunk leads to one, no byte is XORed with the mask twice. -/
theorem unharmed_iff (send : ℕ → ℤ) (m : ℕ → UInt8) (junk : WsHead) :
    (∀ s, (system send m junk).Reachable s → ∀ chunk,
        Unharmed send s chunk ↔ (Enters s chunk → ¬ (offered s chunk).Spoils send)) ∧
      ∀ x, ((rounds send m junk).restrict (Clean send)).Reachable x → x.xored.Nodup :=
  ⟨fun _ h chunk => unharmed_iff_not_spoils (reachable_sane h) chunk, fun _ h => (once_of_clean h).nodup⟩

theorem spoils_iff_of_goes {x y : View} (h : View.Goes send x y) (hx : ¬ x.Spoiled) :
    x.Spoils send ↔ y.Spoils send := by
  constructor
  · rintro ⟨w, hgoes, hw⟩
    cases hgoes using ReflTransGen.head_induction_on with
    | refl => exact absurd hw hx
    | head hstep hrest => exact ⟨w, h.unique hstep ▸ hrest, hw⟩
  · rintro ⟨w, hgoes, hw⟩
    exact ⟨w, .head h hgoes, hw⟩

/-- A frame with a short length spoils as its payload does. -/
theorem spoils_frame_iff {sent : ℕ} {b₀ b₁ k₀ k₁ k₂ k₃ : UInt8} {l : List UInt8}
    (hshort : payLoad b₁ < 126) :
    View.Spoils send ⟨sent, .head, b₀ :: b₁ :: k₀ :: k₁ :: k₂ :: k₃ :: l⟩ ↔
      View.Spoils send ⟨sent, .data b₀ (payLoad b₁) 0, l⟩ := by
  have hext : extBytes b₁ = 0 := if_pos hshort
  have hlen : ∀ p, (decodedLen b₁ p).toNat = payLoad b₁ := fun p => by
    unfold decodedLen
    rw [if_pos hshort]
    exact UInt64.toNat_ofNat_of_lt' (by show payLoad b₁ < 2 ^ 64; omega)
  have hlength := @View.Goes.length send sent b₀ b₁ (k₀ :: k₁ :: k₂ :: k₃ :: l) (hext ▸ Nat.zero_le _)
  rw [hlen, hext, List.drop_zero] at hlength
  have hkey := @View.Goes.key send sent (payLoad b₁) b₀ (k₀ :: k₁ :: k₂ :: k₃ :: l)
    (by simp only [List.length_cons]; omega)
  rw [spoils_iff_of_goes .head nofun, spoils_iff_of_goes hlength nofun,
    spoils_iff_of_goes hkey nofun]
  exact Iff.rfl

/-- A payload of two bytes with one of them there, and one whose only byte is an error. -/
theorem unharmed_iff_sample :
    Unharmed (fun _ => 0) (new (fun _ => 0) ⟨none, 0, fun _ => 0⟩)
        ⟨[0x82, 0x81, 1, 2, 3, 4, 0xFF], by decide⟩ ∧
      ∃ x, (rounds (fun _ => 0) (fun _ => 0) ⟨none, 0, fun _ => 0⟩).Reachable x ∧ x.xored = [6] ∧
        x.xored.Nodup := by
  constructor
  · refine ((unharmed_iff (fun _ => 0) (fun _ => 0) ⟨none, 0, fun _ => 0⟩).1 _ ⟨_, [], rfl, .nil _⟩ _).2
      fun _ => ?_
    show ¬ View.Spoils _ ⟨0, .head, 0x82 :: 0x81 :: 1 :: 2 :: 3 :: 4 :: [0xFF]⟩
    rw [spoils_frame_iff (by decide)]
    rintro ⟨w, hgoes, hw⟩
    cases hgoes using ReflTransGen.head_induction_on with
    | refl =>
      cases hw with
      | intro first => exact first rfl
    | head hstep =>
      cases hstep with
      | data _ _ _ clean => exact clean 0xFF (by decide) rfl
  · have hclean : ¬ View.Spoils (fun _ => 0) ⟨0, .head, 0x82 :: 0x82 :: 1 :: 2 :: 3 :: 4 :: [5]⟩ := by
      rw [spoils_frame_iff (by decide)]
      rintro ⟨w, hgoes, hw⟩
      cases hgoes using ReflTransGen.head_induction_on with
      | refl =>
        cases hw with
        | intro _ later => exact absurd later (by decide)
      | head hstep =>
        cases hstep with
        | data _ _ there => exact absurd there (by decide)
    have hrun : ∃ x, ((rounds (fun _ => 0) (fun _ => 0) ⟨none, 0, fun _ => 0⟩).restrict
        (Clean fun _ => 0)).Reachable x ∧ x.xored = [6] := by
      refine ⟨_, ⟨_, [some ⟨[0x82, 0x82, 1, 2, 3, 4, 5], by decide⟩, none, none, none, none], rfl,
        .cons ⟨?_, rfl, ⟨by decide, by decide⟩, rfl⟩
          (.cons ⟨nofun, _, rfl, .inl ⟨_, rfl, rfl⟩⟩ (.cons ⟨nofun, _, rfl, .inl ⟨_, rfl, rfl⟩⟩
            (.cons ⟨nofun, _, rfl, .inl ⟨_, rfl, rfl⟩⟩
              (.cons ⟨nofun, _, rfl, .inr ⟨_, _, rfl, rfl⟩⟩ (.nil _)))))⟩, rfl⟩
      rintro chunk ⟨⟩
      exact hclean
    obtain ⟨x, hx, hxored⟩ := hrun
    obtain ⟨x₀, as, hinit, hsteps⟩ := hx
    exact ⟨x, ⟨x₀, as, hinit, hsteps.of_restrict⟩, hxored,
      (unharmed_iff (fun _ => 0) (fun _ => 0) ⟨none, 0, fun _ => 0⟩).2 x ⟨x₀, as, hinit, hsteps⟩⟩

/-- A payload byte and an error behind it: the byte is unmasked, and unmasked again when the next
chunk comes. -/
theorem unmasked_twice :
    ¬ Unharmed (fun _ => 0) (new (fun _ => 0) ⟨none, 0, fun _ => 0⟩)
        ⟨[0x82, 0x82, 1, 2, 3, 4, 5, 0xFF], by decide⟩ ∧
      ∃ x, (rounds (fun _ => 0) (fun _ => 0) ⟨none, 0, fun _ => 0⟩).Reachable x ∧
        x.xored = [6, 6] := by
  constructor
  · intro hun
    have he : Enters (new (fun _ => 0) ⟨none, 0, fun _ => 0⟩)
        ⟨[0x82, 0x82, 1, 2, 3, 4, 5, 0xFF], by decide⟩ := ⟨by decide, by decide⟩
    refine (unharmed_iff_not_spoils (new_sane _ _) _).1 hun he ?_
    show View.Spoils _ ⟨0, .head, 0x82 :: 0x82 :: 1 :: 2 :: 3 :: 4 :: [5, 0xFF]⟩
    rw [spoils_frame_iff (by decide)]
    exact ⟨_, .refl, .intro (by decide) (by decide)⟩
  · refine ⟨_, ⟨_, [some ⟨[0x82, 0x82, 1, 2, 3, 4, 5, 0xFF], by decide⟩, none, none, none, none,
      some ⟨[0], by decide⟩, none], rfl,
      .cons ⟨rfl, ⟨by decide, by decide⟩, rfl⟩
        (.cons ⟨_, rfl, .inl ⟨_, rfl, rfl⟩⟩ (.cons ⟨_, rfl, .inl ⟨_, rfl, rfl⟩⟩
          (.cons ⟨_, rfl, .inl ⟨_, rfl, rfl⟩⟩ (.cons ⟨_, rfl, .inr ⟨_, _, rfl, rfl⟩⟩
            (.cons ⟨rfl, ⟨by decide, by decide⟩, rfl⟩
              (.cons ⟨_, rfl, .inr ⟨_, _, rfl, rfl⟩⟩ (.nil _)))))))⟩, rfl⟩

end Ws
end NetService
