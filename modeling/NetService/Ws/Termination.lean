import NetService.Ws.Calls
import NetService.Ws.Finish

/-!
# When the loop of `WsStickyWrap::readData` ends

Most states of the parser take nothing until enough bytes are there, and `readData` calls
`parseWsHead` again as long as there is one byte.  `Starves` follows the bytes in the way the code
decodes them, and says that they end where the parser waits for more: with one byte of a base
header, or with part of an extended length or of the masking key.  The loop gets that far only over
frames that it passes over; a data frame always ends it, and so do a masked payload byte that is
taken for an error and a reply that is refused.

`round_spec` follows one round.  `readData_ends_iff` says that `readData` returns, with progress in
every round, exactly when the bytes do not starve the parser.
-/

namespace NetService
namespace Ws

open Memory WsStickyWrap

/-! ### Bytes that starve the parser -/

/-- What the parser is in the middle of: the bytes of the base header that matter later, the length
and the number of payload bytes taken. -/
inductive Phase
  | head
  | length (b₀ b₁ : UInt8)
  | key (b₀ : UInt8) (len : ℕ)
  | data (b₀ : UInt8) (len index : ℕ)

/-- How many replies have been sent when the loop goes on behind a frame of `len` bytes with the
first byte `b₀`; `none` if it does not. -/
def passedOver (send : ℕ → ℤ) (sent : ℕ) (b₀ : UInt8) (len : ℕ) : Option ℕ :=
  if fin b₀ = true ∧ len ≠ 0 then
    if opcod b₀ = opClse ∨ opcod b₀ = opPing then if 0 ≤ send sent then some (sent + 1) else none
    else if opcod b₀ = opPong ∨ opcod b₀ = opUnsupported then some sent
    else none
  else some sent

/-- The bytes end where the parser takes nothing until there are more. -/
inductive Starves (send : ℕ → ℤ) : ℕ → Phase → List UInt8 → Prop
  | head {sent : ℕ} {b : UInt8} : Starves send sent .head [b]
  | length {sent : ℕ} {b₀ b₁ : UInt8} {l : List UInt8} (ne : l ≠ [])
      (few : l.length < extBytes b₁) : Starves send sent (.length b₀ b₁) l
  | key {sent len : ℕ} {b₀ : UInt8} {l : List UInt8} (ne : l ≠ []) (few : l.length < 4) :
      Starves send sent (.key b₀ len) l
  | afterHead {sent : ℕ} {b₀ b₁ : UInt8} {l : List UInt8}
      (rest : Starves send sent (.length b₀ b₁) l) : Starves send sent .head (b₀ :: b₁ :: l)
  | afterLength {sent : ℕ} {b₀ b₁ : UInt8} {l : List UInt8} (there : extBytes b₁ ≤ l.length)
      (rest : Starves send sent (.key b₀ (decodedLen b₁ fun i => l.getD i 0).toNat)
        (l.drop (extBytes b₁))) : Starves send sent (.length b₀ b₁) l
  | afterKey {sent len : ℕ} {b₀ : UInt8} {l : List UInt8} (there : 4 ≤ l.length)
      (rest : Starves send sent (.data b₀ len 0) (l.drop 4)) : Starves send sent (.key b₀ len) l
  | afterData {sent sent' len index : ℕ} {b₀ : UInt8} {l : List UInt8} (small : len < 65536)
      (le : index ≤ len) (there : len - index ≤ l.length)
      (clean : ∀ b ∈ l.take (len - index), b ≠ 0xFF)
      (passed : passedOver send sent b₀ len = some sent')
      (rest : Starves send sent' .head (l.drop (len - index))) :
      Starves send sent (.data b₀ len index) l

theorem Starves.ne_nil {send : ℕ → ℤ} {sent : ℕ} {p : Phase} {l : List UInt8}
    (h : Starves send sent p l) : l ≠ [] := by
  induction h with
  | head => exact List.cons_ne_nil _ _
  | length ne | key ne => exact ne
  | afterHead => exact List.cons_ne_nil _ _
  | afterLength _ _ ih | afterKey _ _ ih | afterData _ _ _ _ _ _ ih =>
    rintro rfl
    exact ih List.drop_nil

/-- The phase the object is in. -/
def phase (d : WsDealWith) : Phase :=
  let o := d.head.wbs.getD 0
  match d.op with
  | .initHead | .readMask => .head
  | .readPayload => .length (d.pData o) (d.pData (o + 1))
  | .readMaskKey => .key (d.pData o) d.head.len.toNat
  | .readData => .data (d.pData o) d.head.len.toNat d.parseIndex

/-- What decides how the parser goes on: the number of replies, where it is in a frame, and the bytes
that are not parsed. -/
structure View where
  sent : ℕ
  phase : Phase
  bytes : List UInt8

def view (s : WsStickyWrap) : View := ⟨(written s.calls).length, phase s.deal, unread s.deal⟩

/-- A round after which the loop goes on as long as there are bytes. -/
inductive View.Goes (send : ℕ → ℤ) : View → View → Prop
  | head {sent : ℕ} {b₀ b₁ : UInt8} {l : List UInt8} :
      Goes send ⟨sent, .head, b₀ :: b₁ :: l⟩ ⟨sent, .length b₀ b₁, l⟩
  | length {sent : ℕ} {b₀ b₁ : UInt8} {l : List UInt8} (there : extBytes b₁ ≤ l.length) :
      Goes send ⟨sent, .length b₀ b₁, l⟩
        ⟨sent, .key b₀ (decodedLen b₁ fun i => l.getD i 0).toNat, l.drop (extBytes b₁)⟩
  | key {sent len : ℕ} {b₀ : UInt8} {l : List UInt8} (there : 4 ≤ l.length) :
      Goes send ⟨sent, .key b₀ len, l⟩ ⟨sent, .data b₀ len 0, l.drop 4⟩
  | data {sent sent' len index : ℕ} {b₀ : UInt8} {l : List UInt8} (small : len < 65536)
      (le : index ≤ len) (there : len - index ≤ l.length)
      (clean : ∀ b ∈ l.take (len - index), b ≠ 0xFF)
      (passed : passedOver send sent b₀ len = some sent') :
      Goes send ⟨sent, .data b₀ len index, l⟩ ⟨sent', .head, l.drop (len - index)⟩

/-- Whether the bytes starve the parser does not change from round to round. -/
theorem View.Goes.starves_iff {send : ℕ → ℤ} {x y : View} (h : View.Goes send x y) :
    Starves send y.sent y.phase y.bytes ↔ Starves send x.sent x.phase x.bytes := by
  cases h with
  | head =>
    refine ⟨.afterHead, fun hst => ?_⟩
    cases hst with
    | afterHead rest => exact rest
  | length there =>
    refine ⟨.afterLength there, fun hst => ?_⟩
    cases hst with
    | length _ few => exact absurd few (Nat.not_lt.2 there)
    | afterLength _ rest => exact rest
  | key there =>
    refine ⟨.afterKey there, fun hst => ?_⟩
    cases hst with
    | key _ few => exact absurd few (Nat.not_lt.2 there)
    | afterKey _ rest => exact rest
  | data small le there clean passed =>
    refine ⟨.afterData small le there clean passed, fun hst => ?_⟩
    cases hst with
    | afterData _ _ _ _ passed' rest =>
      rw [passed] at passed'
      cases passed'
      exact rest

/-- The unparsed bytes starve the parser. -/
def Stuck (send : ℕ → ℤ) (s : WsStickyWrap) : Prop :=
  Starves send (written s.calls).length (phase s.deal) (unread s.deal)

/-! ### After a call of `parseWsHead` -/

variable {send : ℕ → ℤ} {s s' : WsStickyWrap}

theorem calFrameHeadSize_le (d : WsDealWith) (o : ℕ) : d.calFrameHeadSize o ≤ 14 := by
  rw [calFrameHeadSize_eq]
  unfold extBytes
  split_ifs <;> omega

/-- A data frame that does not trap ends the loop: it fails, or the buffer is empty. -/
theorem deliver_ok (h : Sane s.deal) (hlen : s.deal.head.len.toNat < 65536) {headsize : ℕ}
    (hhead : headsize ≤ 14) {b : Bool} (heq : s.deliver headsize = .ok (s', b)) :
    s' = s ∧ b = false ∨
      ∃ m calls, s' = ⟨{ s.deal with pData := m, dataSize := 0, readSize := 0 }, calls⟩ := by
  have hsize := h.size_lt
  have hcap := h.cap
  unfold deliver at heq
  simp only at heq
  by_cases hle : Word.wrap 64 ((s.deal.dataSize : ℤ) - headsize) ≤ s.deal.head.len.toNat
  · rw [if_pos hle] at heq
    by_cases hcopy : headsize + s.deal.head.len.toNat +
        Word.wrap 64 ((s.deal.dataSize : ℤ) - headsize - s.deal.head.len.toNat) ≤ s.deal.dataCap ∧
        Word.wrap 64 ((s.deal.dataSize : ℤ) - headsize - s.deal.head.len.toNat) ≤
          headsize + s.deal.head.len.toNat
    · -- neither difference wraps, so that there is nothing behind the frame
      have hzero : (s.deal.dataSize : ℤ) - headsize - s.deal.head.len.toNat = 0 := by
        unfold Word.wrap at hle hcopy
        omega
      rw [if_pos hcopy, hzero] at heq
      cases heq
      exact .inr ⟨_, _, rfl⟩
    · rw [if_neg hcopy] at heq
      cases heq
  · rw [if_neg hle] at heq
    cases heq
    exact .inl ⟨rfl, rfl⟩

/-- What follows `parseWsHead`, when it does not trap: nothing, a reply, or a complete frame is handed
over. -/
theorem afterParse_cases {b : Bool} (heq : afterParse send s = .ok (s', b)) :
    s' = s ∧ b = true ∨
      (∃ response, s' = { s with calls := s.calls ++ [.write response] } ∧
        b = decide (0 ≤ send (written s.calls).length)) ∨
      ∃ o, s.deal.parseIndex ≠ 0 ∧ s.deal.head.len.toNat ≤ s.deal.parseIndex ∧
        s.deliver (s.deal.calFrameHeadSize o) = .ok (s', b) := by
  have hreply : ∀ headsize type, s.reply send headsize type = .ok (s', b) →
      ∃ response, s' = { s with calls := s.calls ++ [.write response] } ∧
        b = decide (0 ≤ send (written s.calls).length) := by
    intro headsize type hreply
    unfold reply at hreply
    simp only at hreply
    split at hreply
    · injection hreply with hreply
      obtain ⟨hs, hb⟩ := Prod.mk.inj hreply
      exact ⟨_, hs.symm, hb.symm⟩
    · cases hreply
  unfold afterParse at heq
  split at heq
  · cases heq
  · rename_i o _
    split at heq
    case isFalse =>
      cases heq
      exact .inl ⟨rfl, rfl⟩
    rename_i hdone
    unfold onFrame at heq
    simp only at heq
    split_ifs at heq
    · exact .inr (.inl (hreply _ _ heq))
    · exact .inr (.inl (hreply _ _ heq))
    · cases heq
      exact .inl ⟨rfl, rfl⟩
    · cases heq
      exact .inl ⟨rfl, rfl⟩
    · exact .inr (.inr ⟨o, hdone.2.1, hdone.2.2, heq⟩)

/-- The test for a complete frame succeeds only between frames. -/
theorem Sane.complete_head (h : Sane s.deal) (hindex : s.deal.parseIndex ≠ 0)
    (hlen : s.deal.head.len.toNat ≤ s.deal.parseIndex) : s.deal.op = .initHead := by
  cases h.stands with
  | head op => exact op
  | length _ _ _ index | key _ _ _ index => exact absurd index hindex
  | data _ _ _ index => omega

/-- What follows `parseWsHead` keeps the invariant. -/
theorem afterParse_sane (h : Sane s.deal) {b : Bool} (heq : afterParse send s = .ok (s', b)) :
    Sane s'.deal := by
  have hindex := h.index
  obtain ⟨rfl, -⟩ | ⟨_, rfl, -⟩ | ⟨o, hne, hlen, hdeliver⟩ := afterParse_cases heq
  · exact h
  · exact h
  · have hop := h.complete_head hne hlen
    obtain ⟨rfl, -⟩ | ⟨m, calls, rfl⟩ :=
      deliver_ok h (by omega) (calFrameHeadSize_le s.deal o) hdeliver
    · exact h
    · exact ⟨h.cap, h.headSize, le_rfl, by show 0 < 8192; decide, h.index, .head hop⟩

/-- Every round keeps the invariant, also one that leaves the loop. -/
theorem pass_sane {realLen : ℕ} (h : Sane s.deal) (hne : unread s.deal ≠ []) :
    (pass send realLen s = .next s' → Sane s'.deal) ∧
      ∀ r, pass send realLen s = .done (r, s') → Sane s'.deal := by
  have hcomes := pass_comes send realLen s
  obtain ⟨d', r, heq, hparsed⟩ := parsed_spec h hne
  have hafter : ∀ {d l t b}, s.deal.parseWsHead s.deal.readSize
      ((s.deal.dataSize : ℤ) - s.deal.readSize) = .ok (d, some l) →
      afterParse send { s with deal := taken d l } = .ok (t, b) → Sane t.deal := by
    intro d l t b hparse hafter
    obtain ⟨rfl, rfl⟩ := Prod.mk.inj (Except.ok.inj (hparse.symm.trans heq))
    exact afterParse_sane (s := { s with deal := taken d l }) (hparsed.sane h) hafter
  constructor
  · intro hnext
    rw [hnext] at hcomes
    cases hcomes with
    | next parse after => exact hafter parse after
  · intro r hdone
    rw [hdone] at hcomes
    cases hcomes with
    | failed parse =>
      obtain ⟨rfl, rfl⟩ := Prod.mk.inj (Except.ok.inj (parse.symm.trans heq))
      exact hparsed.sane_none h
    | refused parse after => exact hafter parse after
    | last parse after => exact hafter parse after

/-- A reply about a frame whose header is in the buffer. -/
theorem reply_there (send : ℕ → ℤ) (h : Sane s.deal) {headsize : ℕ} (type : ℕ)
    (hhead : headsize ≤ s.deal.dataSize) :
    ∃ response, s.reply send headsize type =
      .ok ({ s with calls := s.calls ++ [.write response] },
        decide (0 ≤ send (written s.calls).length)) := by
  have hsize := h.size_lt
  have hcap := h.cap
  unfold reply
  rw [Word.wrap_sub hhead (by omega)]
  simp only
  rw [if_pos (by omega)]
  exact ⟨_, rfl⟩

theorem length_written_snoc (calls : List Call) (response : List UInt8) :
    (written (calls ++ [.write response])).length = (written calls).length + 1 := by
  rw [written_append]
  exact List.length_append

/-- What follows the call that completes a payload, when the loop goes on. -/
theorem afterParse_some (send : ℕ → ℤ) (h : Sane s.deal) {o sent' : ℕ}
    (hwbs : s.deal.head.wbs = some o)
    (hindex : s.deal.parseIndex = s.deal.head.len.toNat)
    (hhead : s.deal.calFrameHeadSize o ≤ s.deal.dataSize)
    (hpassed : passedOver send (written s.calls).length (s.deal.pData o) s.deal.head.len.toNat =
      some sent') :
    ∃ calls, afterParse send s = .ok ({ s with calls := calls }, true) ∧
      (written calls).length = sent' := by
  unfold passedOver at hpassed
  unfold afterParse
  simp only [hwbs, hindex]
  by_cases hdone : fin (s.deal.pData o) = true ∧ s.deal.head.len.toNat ≠ 0
  · rw [if_pos hdone] at hpassed
    rw [if_pos ⟨hdone.1, hdone.2, le_rfl⟩]
    unfold onFrame
    simp only
    by_cases hanswer : opcod (s.deal.pData o) = opClse ∨ opcod (s.deal.pData o) = opPing
    · rw [if_pos hanswer] at hpassed
      obtain ⟨hsend, hsent⟩ := Option.ite_none_right_eq_some.1 hpassed
      -- a reply that is sent is the only call made, of either kind
      have hreply : ∀ type, ∃ calls,
          s.reply send (s.deal.calFrameHeadSize o) type = .ok ({ s with calls := calls }, true) ∧
            (written calls).length = sent' := by
        intro type
        obtain ⟨response, heq⟩ := reply_there send h type hhead
        rw [decide_eq_true hsend] at heq
        exact ⟨_, heq, (length_written_snoc _ _).trans (Option.some.inj hsent)⟩
      by_cases hclse : opcod (s.deal.pData o) = opClse
      · rw [if_pos hclse]
        exact hreply opClse
      · rw [if_neg hclse, if_pos (hanswer.resolve_left hclse)]
        exact hreply opPing
    · rw [if_neg hanswer] at hpassed
      obtain ⟨hclse, hping⟩ := not_or.1 hanswer
      obtain ⟨hskip, hsent⟩ := Option.ite_none_right_eq_some.1 hpassed
      rw [if_neg hclse, if_neg hping]
      refine ⟨s.calls, ?_, Option.some.inj hsent⟩
      by_cases hpong : opcod (s.deal.pData o) = opPong
      · rw [if_pos hpong]
      · rw [if_neg hpong, if_pos (hskip.resolve_left hpong)]
  · rw [if_neg hdone] at hpassed
    rw [if_neg fun hc => hdone ⟨hc.1, hc.2.1⟩]
    exact ⟨s.calls, rfl, Option.some.inj hpassed⟩

/-- What follows the call that completes a payload, when the loop does not go on. -/
theorem afterParse_none (h : Sane s.deal) {o : ℕ} (hwbs : s.deal.head.wbs = some o)
    (hindex : s.deal.parseIndex = s.deal.head.len.toNat)
    (hhead : s.deal.calFrameHeadSize o ≤ s.deal.dataSize)
    (hpassed : passedOver send (written s.calls).length (s.deal.pData o) s.deal.head.len.toNat =
      none) (hgoes : afterParse send s = .ok (s', true)) :
    s'.deal.dataSize = 0 ∧ s'.deal.readSize = 0 := by
  unfold passedOver at hpassed
  unfold afterParse at hgoes
  simp only [hwbs, hindex] at hgoes
  by_cases hdone : fin (s.deal.pData o) = true ∧ s.deal.head.len.toNat ≠ 0
  · rw [if_pos hdone] at hpassed
    rw [if_pos ⟨hdone.1, hdone.2, le_rfl⟩] at hgoes
    unfold onFrame at hgoes
    simp only at hgoes
    by_cases hanswer : opcod (s.deal.pData o) = opClse ∨ opcod (s.deal.pData o) = opPing
    · rw [if_pos hanswer] at hpassed
      have hsend : ¬ 0 ≤ send (written s.calls).length := fun hsend => by
        rw [if_pos hsend] at hpassed
        cases hpassed
      -- a reply that is not sent makes `readData` leave the loop
      have hreply : ∀ type, s.reply send (s.deal.calFrameHeadSize o) type ≠ .ok (s', true) := by
        intro type hreply
        obtain ⟨response, heq⟩ := reply_there send h type hhead
        rw [heq, decide_eq_false hsend] at hreply
        cases hreply
      by_cases hclse : opcod (s.deal.pData o) = opClse
      · rw [if_pos hclse] at hgoes
        exact absurd hgoes (hreply opClse)
      · rw [if_neg hclse, if_pos (hanswer.resolve_left hclse)] at hgoes
        exact absurd hgoes (hreply opPing)
    · rw [if_neg hanswer] at hpassed
      obtain ⟨hclse, hping⟩ := not_or.1 hanswer
      have hskip : ¬ (opcod (s.deal.pData o) = opPong ∨ opcod (s.deal.pData o) = opUnsupported) :=
        fun hskip => by
          rw [if_pos hskip] at hpassed
          cases hpassed
      obtain ⟨hpong, hunsup⟩ := not_or.1 hskip
      rw [if_neg hclse, if_neg hping, if_neg hpong, if_neg hunsup] at hgoes
      -- a data frame is handed over, and the buffer is empty after it, or nothing goes on
      have hsmall := h.index
      obtain ⟨-, hfalse⟩ | ⟨m, calls, rfl⟩ :=
        deliver_ok h (by omega) (calFrameHeadSize_le s.deal o) hgoes
      · cases hfalse
      · exact ⟨rfl, rfl⟩
  · rw [if_neg hdone] at hpassed
    cases hpassed

/-! ### A round -/

/-- What is left of the unparsed bytes. -/
theorem unread_taken {d d' : WsDealWith} {n : ℕ} (h : Sane d) (hleft : Left d d')
    (hn : n ≤ (unread d).length) (habove : ∀ j, d.readSize + n ≤ j → d'.pData j = d.pData j) :
    unread (taken d' n) = (unread d).drop n := by
  have hread := taken_readSize h hn hleft.readSize
  have hsize : (taken d' n).dataSize = d.dataSize := hleft.dataSize
  rw [length_unread] at hn
  unfold unread
  rw [hread, hsize, drop_load _ _ _ _ hn, Nat.sub_add_eq]
  exact load_congr fun j hj _ => habove j hj

/-- Bytes of the unparsed ones, by their place in the buffer. -/
theorem getD_unread {d : WsDealWith} {i : ℕ} (hi : i < (unread d).length) :
    (unread d).getD i 0 = d.pData (d.readSize + i) := by
  rw [List.getD_eq_getElem?_getD, unread, getElem?_load, if_pos (by rwa [length_unread] at hi),
    Option.getD_some]

/-- A round of the loop: the parser starves, goes on with fewer bytes or to a later state, or leaves
the loop. -/
inductive Round (send : ℕ → ℤ) (realLen : ℕ) (s : WsStickyWrap) : Prop
  | starved (few : Few s.deal) : Round send realLen s
  | goes {d' : WsDealWith} {n : ℕ} {calls : List Call} (some : ¬ Few s.deal)
      (pass : pass send realLen s =
        if unread (taken d' n) = [] then .done (realLen, ⟨taken d' n, calls⟩)
        else .next ⟨taken d' n, calls⟩)
      (stuck : Stuck send ⟨taken d' n, calls⟩ ↔ Stuck send s)
      (weight : weight (taken d' n) (unread (taken d' n)).length <
        weight s.deal (unread s.deal).length) : Round send realLen s
  | leaves (some : ¬ Few s.deal) (pass : ∀ s', pass send realLen s ≠ .next s')
      (free : ¬ Stuck send s) : Round send realLen s

/-- A round of the loop as the bytes say: it takes nothing, or goes where they lead, or leaves the
loop inside a payload or at its end. -/
inductive Turn (send : ℕ → ℤ) (realLen : ℕ) (s : WsStickyWrap) : Prop
  | starved (few : Few s.deal) : Turn send realLen s
  | goes {d' : WsDealWith} {n : ℕ} {calls : List Call} (some : ¬ Few s.deal)
      (pass : pass send realLen s =
        if unread (taken d' n) = [] then .done (realLen, ⟨taken d' n, calls⟩)
        else .next ⟨taken d' n, calls⟩)
      (goes : View.Goes send (view s) (view ⟨taken d' n, calls⟩))
      (weight : weight (taken d' n) (unread (taken d' n)).length <
        weight s.deal (unread s.deal).length) : Turn send realLen s
  | leaves {b₀ : UInt8} {len index : ℕ} (data : phase s.deal = .data b₀ len index)
      (some : ¬ Few s.deal) (pass : ∀ s', pass send realLen s ≠ .next s')
      (stays : ∀ y, ¬ View.Goes send (view s) y) : Turn send realLen s

/-- A round whose call and whose test succeed. -/
theorem pass_goes (realLen : ℕ) {n : ℕ} {d' : WsDealWith} {calls : List Call}
    (hparse : s.deal.parseWsHead s.deal.readSize ((s.deal.dataSize : ℤ) - s.deal.readSize) =
      .ok (d', some n))
    (hafter : afterParse send { s with deal := taken d' n } = .ok (⟨taken d' n, calls⟩, true))
    (hle : (taken d' n).readSize ≤ (taken d' n).dataSize) :
    pass send realLen s =
      if unread (taken d' n) = [] then .done (realLen, ⟨taken d' n, calls⟩)
      else .next ⟨taken d' n, calls⟩ := by
  have hlen := length_unread (taken d' n)
  rw [pass_taken realLen hparse hafter, if_pos rfl]
  simp only
  by_cases hnil : unread (taken d' n) = []
  · rw [hnil, List.length_nil] at hlen
    rw [if_pos hnil, if_neg (by omega)]
  · have hpos := List.length_pos_iff.2 hnil
    rw [if_neg hnil, if_pos (by omega)]

/-- A round whose call succeeds goes on only if the test does, with bytes left. -/
theorem next_after {realLen n : ℕ} {d' : WsDealWith}
    (hparse : s.deal.parseWsHead s.deal.readSize ((s.deal.dataSize : ℤ) - s.deal.readSize) =
      .ok (d', some n)) (hnext : pass send realLen s = .next s') :
    afterParse send { s with deal := taken d' n } = .ok (s', true) ∧
      0 < (s'.deal.dataSize : ℤ) - s'.deal.readSize := by
  have hcomes := pass_comes send realLen s
  rw [hnext] at hcomes
  cases hcomes with
  | next parse after more =>
    obtain ⟨rfl, heq⟩ := Prod.mk.inj (Except.ok.inj (hparse.symm.trans parse))
    cases heq
    exact ⟨after, more⟩

theorem turn_base {realLen : ℕ} (h : Sane s.deal) (hop : s.deal.op = .initHead)
    (htwo : 2 ≤ (unread s.deal).length)
    (hparse : s.deal.parseWsHead s.deal.readSize ((s.deal.dataSize : ℤ) - s.deal.readSize) =
      .ok (opened s.deal s.deal.readSize, some 2)) : Turn send realLen s := by
  have hparsed : Parsed s.deal (opened s.deal s.deal.readSize) (some 2) := .base hop htwo
  have hunread := unread_taken h hparsed.left htwo fun _ _ => rfl
  have hafter : afterParse send { s with deal := taken (opened s.deal s.deal.readSize) 2 } =
      .ok (⟨taken (opened s.deal s.deal.readSize) 2, s.calls⟩, true) :=
    afterParse_unfinished send ⟨s.deal.readSize, rfl, .inl rfl⟩
  refine .goes ?_ (pass_goes realLen hparse hafter (hparsed.sane h).read_le) ?_ ?_
  · intro hfew
    cases hfew with
    | head _ few => omega
    | length op | key op => rw [hop] at op; cases op
  · obtain ⟨b₀, b₁, l, hl⟩ : ∃ b₀ b₁ l, unread s.deal = b₀ :: b₁ :: l := by
      match hl : unread s.deal, htwo with
      | b₀ :: b₁ :: l, _ => exact ⟨b₀, b₁, l, rfl⟩
    have h₀ := getD_unread (d := s.deal) (i := 0) (by omega)
    have h₁ := getD_unread (d := s.deal) (i := 1) (by omega)
    rw [hl] at h₀ h₁
    have hphase : phase (taken (opened s.deal s.deal.readSize) 2) = .length b₀ b₁ := by
      show Phase.length (s.deal.pData (s.deal.readSize + 0)) (s.deal.pData (s.deal.readSize + 1)) = _
      rw [← h₀, ← h₁]
      rfl
    have hphase₀ : phase s.deal = .head := by
      unfold phase
      rw [hop]
    unfold view
    simp only [hphase, hphase₀, hunread, hl]
    exact .head
  · rw [hunread, List.length_drop]
    exact weight_lt_of_taken (by decide) htwo

theorem turn_length {realLen o : ℕ} (h : Sane s.deal) (hop : s.deal.op = .readPayload)
    (hwbs : s.deal.head.wbs = some o) (hbelow : o + 2 ≤ s.deal.readSize)
    (hindex : s.deal.parseIndex = 0)
    (hthere : extBytes (s.deal.pData (o + 1)) ≤ (unread s.deal).length)
    (hparse : s.deal.parseWsHead s.deal.readSize ((s.deal.dataSize : ℤ) - s.deal.readSize) =
      .ok (measured s.deal (s.deal.pData (o + 1)), some (extBytes (s.deal.pData (o + 1))))) :
    Turn send realLen s := by
  have hparsed : Parsed s.deal (measured s.deal (s.deal.pData (o + 1)))
      (some (extBytes (s.deal.pData (o + 1)))) := .length hop hwbs hbelow hindex hthere
  have hunread := unread_taken h hparsed.left hthere fun _ _ => rfl
  have hafter := afterParse_unfinished (s := { s with
    deal := taken (measured s.deal (s.deal.pData (o + 1))) (extBytes (s.deal.pData (o + 1))) }) send
    ⟨o, hwbs, .inl hindex⟩
  refine .goes ?_ (pass_goes realLen hparse hafter (hparsed.sane h).read_le) ?_ ?_
  · intro hfew
    cases hfew with
    | @length o' op wbs few =>
      rw [hwbs] at wbs
      cases wbs
      omega
    | head op | key op => rw [hop] at op; cases op
  · have hlen : decodedLen (s.deal.pData (o + 1)) (fun i => s.deal.pData (s.deal.readSize + i)) =
        decodedLen (s.deal.pData (o + 1)) (fun i => (unread s.deal).getD i 0) :=
      decodedLen_congr fun i hi => (getD_unread (by omega)).symm
    have hphase : phase (taken (measured s.deal (s.deal.pData (o + 1)))
        (extBytes (s.deal.pData (o + 1)))) = .key (s.deal.pData o)
          (decodedLen (s.deal.pData (o + 1)) fun i => (unread s.deal).getD i 0).toNat := by
      rw [← hlen]
      unfold phase taken measured
      simp only [hwbs, Option.getD_some]
    have hphase₀ : phase s.deal = .length (s.deal.pData o) (s.deal.pData (o + 1)) := by
      unfold phase
      rw [hop, hwbs]
      rfl
    unfold view
    simp only [hphase, hphase₀, hunread]
    exact .length hthere
  · rw [hunread, List.length_drop]
    unfold weight
    rw [hop]
    show 4 * _ + 1 < 4 * _ + 2
    omega

theorem turn_key {realLen o : ℕ} (h : Sane s.deal) (hop : s.deal.op = .readMaskKey)
    (hwbs : s.deal.head.wbs = some o)
    (hbelow : o + 2 + extBytes (s.deal.pData (o + 1)) ≤ s.deal.readSize)
    (hindex : s.deal.parseIndex = 0) (hfour : 4 ≤ (unread s.deal).length)
    (hparse : s.deal.parseWsHead s.deal.readSize ((s.deal.dataSize : ℤ) - s.deal.readSize) =
      .ok (keyed s.deal, some 4)) : Turn send realLen s := by
  have hparsed : Parsed s.deal (keyed s.deal) (some 4) := .key hop hwbs hbelow hindex hfour
  have hunread := unread_taken h hparsed.left hfour fun _ _ => rfl
  have hafter := afterParse_unfinished (s := { s with deal := taken (keyed s.deal) 4 }) send
    ⟨o, hwbs, .inl hindex⟩
  refine .goes ?_ (pass_goes realLen hparse hafter (hparsed.sane h).read_le) ?_ ?_
  · intro hfew
    cases hfew with
    | key _ few => omega
    | head op | length op => rw [hop] at op; cases op
  · have hphase : phase (taken (keyed s.deal) 4) =
        .data (s.deal.pData o) s.deal.head.len.toNat 0 := by
      unfold phase taken keyed
      simp only [hwbs, Option.getD_some, hindex]
    have hphase₀ : phase s.deal = .key (s.deal.pData o) s.deal.head.len.toNat := by
      unfold phase
      rw [hop, hwbs]
      rfl
    unfold view
    simp only [hphase, hphase₀, hunread]
    exact .key hfour
  · rw [hunread, List.length_drop]
    exact weight_lt_of_taken (by decide) hfour

/-- The phase in a payload. -/
theorem phase_data {d : WsDealWith} {o : ℕ} (hop : d.op = .readData) (hwbs : d.head.wbs = some o) :
    phase d = .data (d.pData o) d.head.len.toNat d.parseIndex := by
  unfold phase
  rw [hop, hwbs]
  rfl

/-- A payload is not a place where the parser waits. -/
theorem not_few_data {d : WsDealWith} (hop : d.op = .readData) : ¬ Few d := by
  intro hfew
  cases hfew with
  | head op | length op | key op => rw [hop] at op; cases op

theorem turn_complete {realLen o : ℕ} {d' : WsDealWith} (h : Sane s.deal)
    (hop : s.deal.op = .readData) (hwbs : s.deal.head.wbs = some o)
    (hbelow : o + 6 + extBytes (s.deal.pData (o + 1)) ≤ s.deal.readSize)
    (hc : Completes s.deal)
    (hsame : Same s.deal d' (s.deal.head.len.toNat - s.deal.parseIndex))
    (hindex : d'.parseIndex = s.deal.head.len.toNat)
    (hparse : s.deal.parseWsHead s.deal.readSize ((s.deal.dataSize : ℤ) - s.deal.readSize) =
      .ok ({ d' with op := .initHead }, some (s.deal.head.len.toNat - s.deal.parseIndex))) :
    Turn send realLen s := by
  obtain ⟨c, hcount⟩ : ∃ c, c = s.deal.head.len.toNat - s.deal.parseIndex := ⟨_, rfl⟩
  have hparsed : Parsed s.deal { d' with op := .initHead }
      (some (s.deal.head.len.toNat - s.deal.parseIndex)) := .complete hop hwbs hbelow hc hsame hindex
  rw [← hcount] at hsame hparse hparsed
  have hthere : c ≤ (unread s.deal).length := hcount ▸ hc.2.2.1
  have hsane := hparsed.sane h
  have hunread := unread_taken h hparsed.left hthere fun j hj => hsame.above j hj
  have hread : (taken { d' with op := .initHead } c).readSize = s.deal.readSize + c :=
    taken_readSize h hthere hsame.readSize
  have hle := h.read_le
  rw [length_unread] at hthere
  -- the object the test sees
  obtain ⟨t, ht⟩ : ∃ t : WsStickyWrap, t = { s with deal := taken { d' with op := .initHead } c } :=
    ⟨_, rfl⟩
  have htwbs : t.deal.head.wbs = some o := by
    rw [ht]
    exact (congrArg WsHead.wbs hsame.head).trans hwbs
  have htlen : t.deal.head.len = s.deal.head.len := by
    rw [ht]
    exact congrArg WsHead.len hsame.head
  have htindex : t.deal.parseIndex = t.deal.head.len.toNat := by
    rw [htlen, ht]
    exact hindex
  have htdata : t.deal.pData o = s.deal.pData o ∧ t.deal.pData (o + 1) = s.deal.pData (o + 1) := by
    rw [ht]
    exact ⟨hsame.below o (by omega), hsame.below (o + 1) (by omega)⟩
  have hthead : t.deal.calFrameHeadSize o ≤ t.deal.dataSize := by
    have hsize : t.deal.dataSize = s.deal.dataSize := by rw [ht]; exact hsame.dataSize
    rw [calFrameHeadSize_eq, htdata.2, hsize]
    omega
  have htsane : Sane t.deal := by rw [ht]; exact hsane
  have htcalls : t.calls = s.calls := by rw [ht]
  have hview : view s = ⟨(written s.calls).length,
      .data (s.deal.pData o) s.deal.head.len.toNat s.deal.parseIndex, unread s.deal⟩ := by
    unfold view
    rw [phase_data hop hwbs]
  -- a frame that is passed over leaves its bytes behind, any other one ends the loop
  cases hpassed : passedOver send (written s.calls).length (s.deal.pData o)
      s.deal.head.len.toNat with
  | some sent' =>
    obtain ⟨calls, hafter, hsent⟩ := afterParse_some send htsane htwbs
      htindex hthead (by rw [htcalls, htdata.1, htlen, hpassed])
    rw [ht] at hafter
    refine .goes (not_few_data hop) (pass_goes realLen hparse hafter hsane.read_le) ?_ ?_
    · have hview' : view ⟨taken { d' with op := .initHead } c, calls⟩ =
          ⟨sent', .head, (unread s.deal).drop (s.deal.head.len.toNat - s.deal.parseIndex)⟩ := by
        rw [← hcount, ← hunread, ← hsent]
        rfl
      rw [hview, hview']
      exact .data hc.1 hc.2.1 hc.2.2.1 hc.2.2.2 hpassed
    · rw [hunread, List.length_drop, length_unread]
      unfold weight
      rw [hop]
      show 4 * _ + 0 < 4 * _ + 1
      omega
  | none =>
    refine .leaves (phase_data hop hwbs) (not_few_data hop) (fun s' hnext => ?_) fun y hgoes => ?_
    · obtain ⟨hafter, hmore⟩ := next_after hparse hnext
      rw [← ht] at hafter
      obtain ⟨hzero, hzero'⟩ := afterParse_none htsane htwbs htindex hthead
        (by rw [htcalls, htdata.1, htlen, hpassed]) hafter
      omega
    · rw [hview] at hgoes
      cases hgoes with
      | data _ _ _ _ passed =>
        rw [hpassed] at passed
        cases passed

theorem turn_stopped {realLen o : ℕ} {d' : WsDealWith} {r : Option ℕ} (h : Sane s.deal)
    (hop : s.deal.op = .readData) (hwbs : s.deal.head.wbs = some o)
    (hbelow : o + 6 + extBytes (s.deal.pData (o + 1)) ≤ s.deal.readSize)
    (hnot : ¬ Completes s.deal) (hr : r = none ∨ r = some (unread s.deal).length)
    (hsame : Same s.deal d' (unread s.deal).length) (hindex : d'.parseIndex < s.deal.head.len.toNat)
    (hsmall : d'.parseIndex < 65536)
    (hparse : s.deal.parseWsHead s.deal.readSize ((s.deal.dataSize : ℤ) - s.deal.readSize) =
      .ok (d', r)) : Turn send realLen s := by
  have hparsed : Parsed s.deal d' r := .stopped hop hwbs hbelow hnot hr hsame hindex hsmall
  refine .leaves (phase_data hop hwbs) (not_few_data hop) (fun s' hnext => ?_) fun y hgoes => ?_
  · rcases hr with rfl | rfl
    · rw [pass_failed send realLen hparse] at hnext
      cases hnext
    · have hunread := unread_taken h hparsed.left le_rfl fun j hj => hsame.above j hj
      rw [List.drop_length] at hunread
      have hafter : afterParse send { s with deal := taken d' (unread s.deal).length } =
          .ok (⟨taken d' (unread s.deal).length, s.calls⟩, true) := by
        refine afterParse_unfinished send ⟨o, (congrArg WsHead.wbs hsame.head).trans hwbs, .inr ?_⟩
        show d'.parseIndex < d'.head.len.toNat
        rw [hsame.head]
        exact hindex
      rw [pass_goes realLen hparse hafter (hparsed.sane h).read_le, if_pos hunread] at hnext
      cases hnext
  · unfold view at hgoes
    rw [phase_data hop hwbs] at hgoes
    cases hgoes with
    | data small le there clean => exact hnot ⟨small, le, there, clean⟩

/-- One round of the loop, in any state. -/
theorem turn_spec (send : ℕ → ℤ) (realLen : ℕ) (h : Sane s.deal) (hne : unread s.deal ≠ []) :
    Turn send realLen s := by
  obtain ⟨d', r, hparse, hparsed⟩ := parsed_spec h hne
  cases hparsed with
  | starved few => exact .starved few
  | base op two => exact turn_base h op two hparse
  | length op wbs below index there => exact turn_length h op wbs below index there hparse
  | key op wbs below index four => exact turn_key h op wbs below index four hparse
  | complete op wbs below completes same index =>
    exact turn_complete h op wbs below completes same index hparse
  | stopped op wbs below not ret same index small =>
    exact turn_stopped h op wbs below not ret same index small hparse

/-- A round, and whether the parser starves. -/
theorem round_spec (send : ℕ → ℤ) (realLen : ℕ) (h : Sane s.deal) (hne : unread s.deal ≠ []) :
    Round send realLen s := by
  cases turn_spec send realLen h hne with
  | starved few => exact .starved few
  | goes some pass goes weight => exact .goes some pass goes.starves_iff weight
  | leaves data some pass stays =>
    refine .leaves some pass fun hst => ?_
    unfold Stuck at hst
    have hview : view s = ⟨(written s.calls).length, phase s.deal, unread s.deal⟩ := rfl
    rw [data] at hst hview
    cases hst with
    | afterData small le there clean passed =>
      rw [hview] at stays
      exact stays _ (.data small le there clean passed)

/-! ### The loop -/

/-- A parser that starves is stuck. -/
theorem Few.stuck (h : Few s.deal) (hne : unread s.deal ≠ []) : Stuck send s := by
  have hpos := List.length_pos_iff.2 hne
  unfold Stuck
  cases h with
  | head op few =>
    obtain ⟨b, hb⟩ := List.length_eq_one_iff.1 (by omega : (unread s.deal).length = 1)
    unfold phase
    simp only [op]
    rw [hb]
    exact .head
  | length op wbs few =>
    unfold phase
    simp only [op, wbs, Option.getD_some]
    exact .length hne few
  | key op few =>
    unfold phase
    simp only [op]
    exact .key hne few

/-- A call takes nothing and changes nothing exactly when there are too few bytes. -/
theorem parse_nothing_iff {d : WsDealWith} (h : Sane d) (hne : unread d ≠ []) :
    d.parseWsHead d.readSize ((d.dataSize : ℤ) - d.readSize) = .ok (d, some 0) ↔ Few d := by
  have hpos := List.length_pos_iff.2 hne
  obtain ⟨d', r, hparse, hparsed⟩ := parsed_spec h hne
  rw [hparse]
  constructor
  · intro heq
    simp only [Except.ok.injEq, Prod.mk.injEq] at heq
    obtain ⟨hd, hr⟩ := heq
    -- every other call takes a byte or leaves the state it started in
    cases hparsed with
    | starved few => exact few
    | base => cases hr
    | length op => rw [← hd] at op; cases op
    | key => cases hr
    | complete op => rw [← hd] at op; cases op
    | stopped _ _ _ _ ret =>
      rw [hr] at ret
      rcases ret with ret | ret
      · cases ret
      · have := Option.some.inj ret
        omega
  · intro hfew
    cases hparsed with
    | starved few => rfl
    | base op two =>
      cases hfew with
      | head _ few => omega
      | length op' | key op' => rw [op] at op'; cases op'
    | length op wbs below index there =>
      cases hfew with
      | length op' wbs' few =>
        rw [wbs] at wbs'
        cases wbs'
        omega
      | head op' | key op' => rw [op] at op'; cases op'
    | key op wbs below index four =>
      cases hfew with
      | key _ few => omega
      | head op' | length op' => rw [op] at op'; cases op'
    | complete op => exact absurd hfew (not_few_data op)
    | stopped op => exact absurd hfew (not_few_data op)

/-- A round that takes nothing while there are bytes. -/
def Idle (s : WsStickyWrap) : Prop :=
  0 < (s.deal.dataSize : ℤ) - s.deal.readSize ∧
    s.deal.parseWsHead s.deal.readSize ((s.deal.dataSize : ℤ) - s.deal.readSize) =
      .ok (s.deal, some 0)

theorem idle_iff (h : Sane s.deal) (hne : unread s.deal ≠ []) : Idle s ↔ Few s.deal := by
  have hlen := length_unread s.deal
  have hpos := List.length_pos_iff.2 hne
  unfold Idle
  rw [parse_nothing_iff h hne]
  exact and_iff_right (by omega)

/-- A state in which a round begins. -/
def Begins (s : WsStickyWrap) : Prop := Sane s.deal ∧ unread s.deal ≠ []

/-- A stuck loop comes to a round that takes nothing. -/
theorem stuck_idles (realLen : ℕ) (h : Begins s) (hst : Stuck send s) :
    ∃ t, Loop.Visits (pass send realLen) s t ∧ Begins t ∧ Few t.deal := by
  induction hw : weight s.deal (unread s.deal).length using Nat.strong_induction_on
    generalizing s with
  | _ w ih =>
    cases round_spec send realLen h.1 h.2 with
    | starved few => exact ⟨s, .start, h, few⟩
    | @goes d' n calls _ hpass hstuck hweight =>
      have hst' := hstuck.2 hst
      have hne : unread (taken d' n) ≠ [] := hst'.ne_nil
      rw [if_neg hne] at hpass
      have hbegins : Begins ⟨taken d' n, calls⟩ := ⟨(pass_sane h.1 h.2).1 hpass, hne⟩
      obtain ⟨t, hvisits, ht⟩ := ih _ (hw ▸ hweight) hbegins hst' rfl
      exact ⟨t, hvisits.head hpass, ht⟩
    | leaves _ _ free => exact absurd hst free

/-- A round of a loop that is not stuck. -/
theorem free_round {realLen : ℕ} (h : Begins s) (hfree : ¬ Stuck send s)
    (hnext : pass send realLen s = .next s') :
    Begins s' ∧ ¬ Stuck send s' ∧
      weight s'.deal (unread s'.deal).length < weight s.deal (unread s.deal).length := by
  have hsane := (pass_sane h.1 h.2).1 hnext
  cases round_spec send realLen h.1 h.2 with
  | starved few => exact absurd (few.stuck h.2) hfree
  | @goes d' n calls _ hpass hstuck hweight =>
    by_cases hnil : unread (taken d' n) = []
    · rw [hpass, if_pos hnil] at hnext
      cases hnext
    · rw [hpass, if_neg hnil] at hnext
      cases hnext
      exact ⟨⟨hsane, hnil⟩, fun hst => hfree (hstuck.1 hst), hweight⟩
  | leaves _ hleaves _ => exact absurd hnext (hleaves s')

theorem free_ends (realLen : ℕ) (h : Begins s) (hfree : ¬ Stuck send s) :
    ∃ out, Loop.Ends (pass send realLen) s out := by
  refine Loop.ends_of_decreasing (pass send realLen) (fun s => Begins s ∧ ¬ Stuck send s)
    (fun s => weight s.deal (unread s.deal).length) ?_ ⟨h, hfree⟩
  rintro t t' ⟨ht, hfr⟩ hnext
  obtain ⟨ht', hfr', hweight⟩ := free_round ht hfr hnext
  exact ⟨⟨ht', hfr'⟩, hweight⟩

/-- A round that is followed by another one has left bytes for it. -/
theorem Begins.next {realLen : ℕ} (h : Begins s) (hnext : pass send realLen s = .next s') :
    Begins s' := by
  refine ⟨(pass_sane h.1 h.2).1 hnext, fun hnil => ?_⟩
  have hlen := length_unread s'.deal
  rw [hnil, List.length_nil] at hlen
  have hcomes := pass_comes send realLen s
  rw [hnext] at hcomes
  cases hcomes with
  | next _ _ more => omega

/-! ### A call of `readData` -/

theorem stored_dataSize {chunk : Chunk} (h : Sane s.deal) (he : Enters s chunk) :
    (stored s chunk).deal.dataSize = s.deal.dataSize + chunk.bytes.length := by
  have hcap := h.cap
  have hfits := he.2
  show u16 ((s.deal.dataSize : ℤ) + chunk.bytes.length) = _
  exact_mod_cast u16_natCast (n := s.deal.dataSize + chunk.bytes.length) (by omega)

theorem stored_unread {chunk : Chunk} (h : Sane s.deal) (he : Enters s chunk) :
    unread (stored s chunk).deal = unread s.deal ++ chunk.bytes := by
  have hread := h.read_le
  have hsplit : s.deal.dataSize + chunk.bytes.length - s.deal.readSize =
      s.deal.dataSize - s.deal.readSize + chunk.bytes.length := by omega
  have happend := load_store_append s.deal.pData s.deal.readSize
    (s.deal.dataSize - s.deal.readSize) chunk.bytes
  rw [Nat.add_sub_cancel' hread] at happend
  unfold unread
  rw [stored_dataSize h he]
  show load (store s.deal.pData s.deal.dataSize chunk.bytes) s.deal.readSize
    (s.deal.dataSize + chunk.bytes.length - s.deal.readSize) = _
  rw [hsplit]
  exact happend

/-- What is below `_Read_size` is not touched. -/
theorem stored_below {chunk : Chunk} (h : Sane s.deal) {j : ℕ} (hj : j < s.deal.readSize) :
    (stored s chunk).deal.pData j = s.deal.pData j :=
  store_below _ _ (hj.trans_le h.read_le)

theorem stored_sane {chunk : Chunk} (h : Sane s.deal) (he : Enters s chunk) :
    Sane (stored s chunk).deal := by
  have hsize := stored_dataSize h he
  have hcap := h.cap
  have hfits := he.2
  have hread := h.read_le
  refine ⟨h.cap, h.headSize, ?_, ?_, h.index, ?_⟩
  · show s.deal.readSize ≤ _
    omega
  · omega
  · cases h.stands with
    | head op => exact .head op
    | length op wbs below index => exact .length (d := (stored s chunk).deal) op wbs below index
    | @key o op wbs below index =>
      refine .key (d := (stored s chunk).deal) (o := o) op wbs ?_ index
      rw [stored_below h (by omega)]
      exact below
    | @data o op wbs below index =>
      refine .data (d := (stored s chunk).deal) (o := o) op wbs ?_ index
      rw [stored_below h (by omega)]
      exact below

theorem stored_phase {chunk : Chunk} (h : Sane s.deal) :
    phase (stored s chunk).deal = phase s.deal := by
  have hop : (stored s chunk).deal.op = s.deal.op := rfl
  have hhead : (stored s chunk).deal.head = s.deal.head := rfl
  have hindex : (stored s chunk).deal.parseIndex = s.deal.parseIndex := rfl
  unfold phase
  rw [hop, hhead, hindex]
  cases h.stands with
  | head op => simp only [op]
  | @length o op wbs below =>
    simp only [op, wbs, Option.getD_some]
    rw [stored_below h (by omega : o < s.deal.readSize),
      stored_below h (by omega : o + 1 < s.deal.readSize)]
  | @key o op wbs below =>
    simp only [op, wbs, Option.getD_some]
    rw [stored_below h (by omega : o < s.deal.readSize)]
  | @data o op wbs below =>
    simp only [op, wbs, Option.getD_some]
    rw [stored_below h (by omega : o < s.deal.readSize)]

/-- Whether the loop gets stuck is decided by the bytes that it parses. -/
theorem stuck_stored_iff {chunk : Chunk} (h : Sane s.deal) (he : Enters s chunk) :
    Stuck send (stored s chunk) ↔
      Starves send (written s.calls).length (phase s.deal) (unread s.deal ++ chunk.bytes) := by
  unfold Stuck
  rw [stored_phase h, stored_unread h he]
  exact Iff.rfl

theorem stored_begins {chunk : Chunk} (h : Sane s.deal) (he : Enters s chunk) :
    Begins (stored s chunk) := by
  refine ⟨stored_sane h he, fun hnil => ?_⟩
  have hlen := length_unread (stored s chunk).deal
  rw [hnil, stored_dataSize h he, List.length_nil] at hlen
  have hread : (stored s chunk).deal.readSize = s.deal.readSize := rfl
  have hpos := he.1
  have hle := h.read_le
  omega

/-! ### Reachable states -/

theorem Begins.run {realLen : ℕ} (h : Begins s) {r : ℤ}
    (hends : Loop.Ends (pass send realLen) s (.ok (r, s'))) : Sane s'.deal := by
  let Q : Except WsFault (ℤ × WsStickyWrap) → Prop := fun out =>
    ∀ r t, out = .ok (r, t) → Sane t.deal
  have hQ : Q (.ok (r, s')) := by
    refine Loop.Ends.of_invariant Begins Q ?_ ?_ ?_ h hends
    · exact fun t t' ht hnext => ht.next hnext
    · rintro t x ht hdone r u hout
      cases hout
      exact (pass_sane ht.1 ht.2).2 r hdone
    · rintro _ _ _ _ _ _ ⟨⟩
  exact hQ r s' rfl

theorem Sane.reads {chunk : Chunk} (h : Sane s.deal) (hreads : Reads send s chunk s') :
    Sane s'.deal := by
  obtain ⟨fuel, r, hread, -⟩ := hreads
  by_cases he : Enters s chunk
  · rw [readData_enters he] at hread
    exact (stored_begins h he).run ⟨fuel, hread⟩
  · obtain ⟨r', hrefuse⟩ := readData_refuses send he fuel
    rw [hrefuse] at hread
    cases hread
    exact h

theorem reachable_sane {m : ℕ → UInt8} {junk : WsHead} (h : (system send m junk).Reachable s) :
    Sane s.deal :=
  h.invariant (I := fun s => Sane s.deal) (fun _ h₀ => by rw [h₀]; exact new_sane m junk)
    fun _ _ _ hs hstep => hs.reads hstep

/-! ### The result -/

/-- `readData` returns, and every round of its loop takes a byte or changes the state. -/
def Returns (send : ℕ → ℤ) (s : WsStickyWrap) (chunk : Chunk) : Prop :=
  (∃ fuel out, s.readData send fuel chunk.bytes = some out) ∧
    (Enters s chunk →
      ∀ t, Loop.Visits (pass send chunk.bytes.length) (stored s chunk) t → ¬ Idle t)

/-- In every reachable state and for every chunk, `readData` returns and makes progress in every
round, exactly if the chunk is refused or the bytes do not end where the parser starves. -/
theorem readData_ends_iff (send : ℕ → ℤ) (m : ℕ → UInt8) (junk : WsHead)
    (h : (system send m junk).Reachable s) (chunk : Chunk) :
    Returns send s chunk ↔
      (Enters s chunk → ¬ Starves send (written s.calls).length (phase s.deal)
        (unread s.deal ++ chunk.bytes)) := by
  have hsane := reachable_sane h
  constructor
  · rintro ⟨-, hidle⟩ he hst
    obtain ⟨t, hvisits, ht, hfew⟩ := stuck_idles chunk.bytes.length
      (stored_begins hsane he) ((stuck_stored_iff hsane he).2 hst)
    exact hidle he t hvisits ((idle_iff ht.1 ht.2).2 hfew)
  · intro hfree
    by_cases he : Enters s chunk
    · have hbegins := stored_begins hsane he
      have hnot : ¬ Stuck send (stored s chunk) := fun hst =>
        hfree he ((stuck_stored_iff hsane he).1 hst)
      constructor
      · obtain ⟨out, fuel, hout⟩ := free_ends chunk.bytes.length hbegins hnot
        exact ⟨fuel, out, by rw [readData_enters he, hout]⟩
      · intro _ t hvisits hidle
        have hinv : Begins t ∧ ¬ Stuck send t := by
          refine hvisits.invariant (I := fun t => Begins t ∧ ¬ Stuck send t) ?_ ⟨hbegins, hnot⟩
          rintro u v ⟨hu, hfr⟩ huv
          obtain ⟨hv, hfr', -⟩ := free_round hu hfr huv
          exact ⟨hv, hfr'⟩
        exact hinv.2 (((idle_iff hinv.1.1 hinv.1.2).1 hidle).stuck hinv.1.2)
    · obtain ⟨r, hrefuse⟩ := readData_refuses send he 0
      exact ⟨⟨0, _, hrefuse⟩, fun he' => absurd he' he⟩

/-- A masked frame with the payload `05 06`, in a chunk of its own. -/
theorem readData_ends_iff_frame :
    Returns (fun _ => 0) (new (fun _ => 0) ⟨none, 0, fun _ => 0⟩)
      ⟨[0x82, 0x82, 0, 0, 0, 0, 5, 6], by decide⟩ := by
  refine (readData_ends_iff _ (fun _ => 0) ⟨none, 0, fun _ => 0⟩ ⟨_, [], rfl, .nil _⟩ _).2 ?_
  intro _ hst
  cases hst with
  | afterHead rest =>
    cases rest with
    | length _ few => exact absurd few (by decide)
    | afterLength _ rest =>
      cases rest with
      | key _ few => exact absurd few (by decide)
      | afterKey _ rest =>
        cases rest with
        | afterData _ _ _ _ passed =>
          have hnone : passedOver (fun _ => 0) 0 0x82 2 = none := by decide
          exact Option.some_ne_none _ (passed.symm.trans hnone)

/-- A parser that starves before a payload byte goes round for ever. -/
theorem Few.diverges (send : ℕ → ℤ) (realLen : ℕ) {o : ℕ} (h : Sane s.deal) (hne : unread s.deal ≠ [])
    (hfew : Few s.deal) (hwbs : s.deal.head.wbs = some o) (hindex : s.deal.parseIndex = 0) :
    Loop.Diverges (pass send realLen) s := by
  have hparse := (parse_nothing_iff h hne).2 hfew
  have hsame : taken s.deal 0 = s.deal := h.taken_zero
  have hafter : afterParse send { s with deal := taken s.deal 0 } =
      .ok (⟨taken s.deal 0, s.calls⟩, true) :=
    afterParse_unfinished send ⟨o, hwbs, .inl hindex⟩
  have hpass : pass send realLen s = .next s := by
    have hgoes := pass_goes realLen hparse hafter (by rw [hsame]; exact h.read_le)
    rwa [hsame, if_neg hne] at hgoes
  refine Loop.diverges_of_invariant _ (fun t => t = s) ?_ rfl
  rintro t rfl
  exact ⟨t, hpass, rfl⟩

/-- A new object and a chunk that ends in the masking key. -/
theorem key_cut_hangs :
    (system (fun _ => 0) (fun _ => 0) ⟨none, 0, fun _ => 0⟩).Reachable
        (new (fun _ => 0) ⟨none, 0, fun _ => 0⟩) ∧
      ∀ fuel, (new (fun _ => 0) ⟨none, 0, fun _ => 0⟩).readData (fun _ => 0) fuel
        [0x81, 0x81, 0] = none := by
  refine ⟨⟨_, [], rfl, .nil _⟩, fun fuel => ?_⟩
  have hsane : Sane (new (fun _ => 0) ⟨none, 0, fun _ => 0⟩).deal := new_sane _ _
  have he : Enters (new (fun _ => 0) ⟨none, 0, fun _ => 0⟩) ⟨[0x81, 0x81, 0], by decide⟩ :=
    ⟨by decide, by decide⟩
  have hbegins := stored_begins hsane he
  -- two rounds, up to the masking key
  obtain ⟨t, ht⟩ : ∃ t, pass (fun _ => 0) 3
      (stored (new (fun _ => 0) ⟨none, 0, fun _ => 0⟩) ⟨[0x81, 0x81, 0], by decide⟩) = .next t ∧
      ∃ u, pass (fun _ => 0) 3 t = .next u ∧ u.deal.op = .readMaskKey ∧
        u.deal.head.wbs = some 0 ∧ u.deal.parseIndex = 0 ∧ (unread u.deal).length = 1 :=
    ⟨_, rfl, _, rfl, rfl, rfl, rfl, rfl⟩
  obtain ⟨hfirst, u, hsecond, hop, hwbs, hindex, hone⟩ := ht
  have hu : Begins u := (hbegins.next hfirst).next hsecond
  have hdiv := (Few.key hop (by omega)).diverges (fun _ => 0) 3 hu.1 hu.2 hwbs hindex
  have hall := Loop.Diverges.of_visits (.next (.next .start hfirst) hsecond) hdiv
  exact (readData_enters he fuel).trans (hall fuel)

end Ws
end NetService
