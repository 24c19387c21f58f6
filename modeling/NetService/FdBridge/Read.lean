import NetService.Handler.Echo
import NetService.MemoryBuff.Model

/-!
# What `FdBridge::read` and `Handler::handleRead` hand on

Both receive until a `recv` gives less than the region that was offered, and hand on what came in
after the loop: `read` calls `notifyred`, `handleRead` pushes it to `write_buf_`.  A close and an error
return from the middle of the loop.

`takeIn` is what the two loops have in common: the first region is what was left in the buffer, and
behind a region that was filled the next one is new.  `memoryBuff` is a FIFO here.
-/

namespace NetService

/-! ### A receiving loop -/

/-- What a receiving loop takes in from the results of its calls, when it is offered `len` bytes first
and `cap` bytes each time after that: the bytes, and whether it is left by `break`. -/
def takeIn (cap : ℕ) : ℕ → List RecvResult → Option (List UInt8 × Bool)
  | _, [] => none
  | _, .closed :: _ => some ([], false)
  | _, .error :: _ => some ([], false)
  | _, .again :: _ => some ([], true)
  | len, .data bs :: rs =>
      if 1 ≤ bs.length ∧ bs.length ≤ len then
        if bs.length < len then some (bs, true)
        else (takeIn cap cap rs).map fun x => (bs ++ x.1, x.2)
      else none

/-- The next call finds the connection closed or fails. -/
def Stops : List RecvResult → Prop
  | .closed :: _ => True
  | .error :: _ => True
  | _ => False

/-- Data fills all the regions offered, one or more, and behind it the connection is closed or a call
fails. -/
def GivesUp (cap : ℕ) : ℕ → List RecvResult → Prop
  | len, .data bs :: rs => bs.length = len ∧ (Stops rs ∨ GivesUp cap cap rs)
  | _, _ => False

instance : DecidablePred Stops
  | [] => isFalse id
  | .data _ :: _ => isFalse id
  | .again :: _ => isFalse id
  | .closed :: _ => isTrue trivial
  | .error :: _ => isTrue trivial

instance decidableGivesUp (cap : ℕ) : (len : ℕ) → DecidablePred (GivesUp cap len)
  | _, [] => isFalse id
  | _, .again :: _ => isFalse id
  | _, .closed :: _ => isFalse id
  | _, .error :: _ => isFalse id
  | len, .data bs :: rs =>
      have := decidableGivesUp cap cap rs
      inferInstanceAs (Decidable (bs.length = len ∧ (Stops rs ∨ GivesUp cap cap rs)))

section
variable {cap len : ℕ} {rs : List RecvResult} {bs : List UInt8} {ok : Bool}

/-- The loop is left by `return` if the first call stops it, or one behind data. -/
theorem takeIn_returns_iff (h : takeIn cap len rs = some (bs, ok)) :
    ok = false ↔ Stops rs ∨ GivesUp cap len rs := by
  induction rs generalizing len bs with
  | nil => cases h
  | cons r rs ih =>
    cases r with
    | closed =>
      cases h
      exact iff_of_true rfl (.inl trivial)
    | error =>
      cases h
      exact iff_of_true rfl (.inl trivial)
    | again =>
      cases h
      exact iff_of_false Bool.noConfusion (by rintro (h | h) <;> exact h)
    | data cs =>
      simp only [takeIn] at h
      split_ifs at h with hvalid hshort
      · cases h
        refine iff_of_false Bool.noConfusion ?_
        rintro (h | ⟨h, -⟩)
        · exact h
        · omega
      · obtain ⟨⟨ds, ok'⟩, hrest, heq⟩ := Option.map_eq_some_iff.1 h
        cases heq
        rw [ih hrest]
        exact ⟨fun h => .inr ⟨by omega, h⟩, fun h => h.elim False.elim And.right⟩

/-- What a loop that is left by `return` has taken in is lost, so that nothing is lost exactly if no
data comes before the close or the error. -/
theorem takeIn_hands_on_iff (h : takeIn cap len rs = some (bs, ok)) :
    (bs ≠ [] → ok = true) ↔ ¬ GivesUp cap len rs := by
  cases rs with
  | nil => cases h
  | cons r rs =>
    have hreturns := takeIn_returns_iff h
    cases r with
    | closed =>
      cases h
      exact iff_of_true (fun hne => absurd rfl hne) id
    | error =>
      cases h
      exact iff_of_true (fun hne => absurd rfl hne) id
    | again =>
      cases h
      exact iff_of_true (fun _ => rfl) id
    | data cs =>
      have hne : bs ≠ [] := by
        rintro rfl
        simp only [takeIn] at h
        split_ifs at h with hvalid hshort
        · cases h
          exact absurd hvalid.1 (by decide)
        · obtain ⟨⟨ds, ok'⟩, -, heq⟩ := Option.map_eq_some_iff.1 h
          have hnil := List.append_eq_nil_iff.1 (congrArg Prod.fst heq)
          rw [hnil.1] at hvalid
          exact absurd hvalid.1 (by decide)
      have hgives : ok = false ↔ GivesUp cap len (.data cs :: rs) :=
        hreturns.trans ⟨fun h => h.elim False.elim id, .inr⟩
      rw [← hgives, Bool.not_eq_false]
      exact ⟨fun hok => hok hne, fun hok _ => hok⟩

/-- Data that fills the regions is taken in. -/
theorem GivesUp.takeIn (h : GivesUp cap len rs) (hcap : 1 ≤ cap) (hlen : 1 ≤ len) :
    ∃ bs, takeIn cap len rs = some (bs, false) := by
  induction rs generalizing len with
  | nil => exact h.elim
  | cons r rs ih =>
    cases r with
    | closed | error | again => exact h.elim
    | data cs =>
      obtain ⟨rfl, hrest⟩ := h
      have hvalid : 1 ≤ cs.length ∧ cs.length ≤ cs.length := ⟨hlen, le_rfl⟩
      have hnext : ∃ bs, NetService.takeIn cap cap rs = some (bs, false) := by
        rcases hrest with hstops | hgives
        · match rs, hstops with
          | .closed :: _, _ => exact ⟨[], rfl⟩
          | .error :: _, _ => exact ⟨[], rfl⟩
        · exact ih hgives hcap
      obtain ⟨bs, hbs⟩ := hnext
      refine ⟨cs ++ bs, ?_⟩
      simp only [NetService.takeIn]
      rw [if_pos hvalid, if_neg (lt_irrefl _), hbs]
      rfl

end

/-! ### `Handler::handleRead` -/

namespace Buffer

variable {α : Type} [Inhabited α] {b : Buffer α}

@[simp] theorem spaceChunk_defaultChunkSize (b : Buffer α) :
    b.spaceChunk.2.defaultChunkSize = b.defaultChunkSize := by
  unfold spaceChunk
  cases b.chunkList.getLast? with
  | none => rfl
  | some ch =>
    simp only
    split_ifs <;> rfl

/-- `spaceChunk` offers all that is free in the front chunk. -/
theorem spaceChunk_front (b : Buffer α) :
    ∃ inner f, b.spaceChunk.2.chunkList = inner ++ [f] ∧
      b.spaceChunk.1 = (⟨inner.length, f.end_⟩, f.cap - f.end_) := by
  unfold spaceChunk
  rcases List.eq_nil_or_concat b.chunkList with hl | ⟨inner, f, hl⟩
  · rw [hl]
    exact ⟨b.chunkList, Chunk.new b.defaultChunkSize, rfl, rfl⟩
  · rw [List.concat_eq_append] at hl
    rw [hl, List.getLast?_concat]
    simp only
    split_ifs with hfree
    · exact ⟨inner, f, hl, by simp⟩
    · exact ⟨b.chunkList, Chunk.new b.defaultChunkSize, rfl, rfl⟩

/-- Behind a region that was filled the next one is a new chunk. -/
theorem spaceChunk_filled {bs : List α} {b₁ b₂ : Buffer α}
    (hstore : b.spaceChunk.2.store b.spaceChunk.1.1 bs = some b₁)
    (hset : b₁.spaceHaveSeted bs.length = .ok b₂) :
    b₂.defaultChunkSize = b.defaultChunkSize ∧
      (bs.length = b.spaceChunk.1.2 → b₂.spaceChunk.1.2 = b.defaultChunkSize) := by
  obtain ⟨inner, f, hl, hregion⟩ := b.spaceChunk_front
  have hget : b.spaceChunk.2.chunkList[inner.length]? = some f := by simp [hl]
  rw [hregion] at hstore ⊢
  simp only [store, hget] at hstore
  split_ifs at hstore
  cases hstore
  simp only [spaceHaveSeted, hl, List.set_append_right _ _ le_rfl, Nat.sub_self,
    List.set_cons_zero, List.getLast?_concat, List.dropLast_concat] at hset
  cases hset
  refine ⟨b.spaceChunk_defaultChunkSize, fun hfull => ?_⟩
  simp only at hfull
  simp only [spaceChunk, List.getLast?_concat]
  rw [if_neg (by omega)]
  exact b.spaceChunk_defaultChunkSize

end Buffer

namespace Handler

/-- The loop of `handleRead` takes in what it receives. -/
theorem recvLoop_takeIn {rb : Buffer UInt8} (h : rb.Inv) (rs : List RecvResult) :
    (recvLoop rs rb = none ∧ takeIn rb.defaultChunkSize rb.spaceChunk.1.2 rs = none) ∨
      ∃ tr ok rb', recvLoop rs rb = some (.ok (tr, ok, rb')) ∧
        takeIn rb.defaultChunkSize rb.spaceChunk.1.2 rs = some (received tr, ok) := by
  induction rs generalizing rb with
  | nil => exact .inl ⟨rfl, rfl⟩
  | cons r rs ih =>
    obtain ⟨hinv, -, hroom, -⟩ := Buffer.spaceChunk_spec h
    cases r with
    | closed => exact .inr ⟨_, _, _, rfl, rfl⟩
    | error => exact .inr ⟨_, _, _, rfl, rfl⟩
    | again => exact .inr ⟨_, _, _, rfl, rfl⟩
    | data bs =>
      simp only [recvLoop, takeIn]
      by_cases hbs : 1 ≤ bs.length ∧ bs.length ≤ rb.spaceChunk.1.2
      case neg =>
        rw [if_neg hbs, if_neg hbs]
        exact .inl ⟨rfl, rfl⟩
      rw [if_pos hbs, if_pos hbs]
      obtain ⟨b₁, b₂, hstore, hset, hinv₂, -⟩ := Buffer.fill_spec hinv hroom hbs.2
      obtain ⟨hdefault, hnext⟩ := Buffer.spaceChunk_filled hstore hset
      simp only [hstore, hset]
      by_cases hshort : bs.length < rb.spaceChunk.1.2
      · rw [if_pos hshort, if_pos hshort]
        exact .inr ⟨_, _, _, rfl, by simp [Syscall.received]⟩
      · rw [if_neg hshort, if_neg hshort]
        have hrest := ih hinv₂
        rw [hdefault, hnext (by omega)] at hrest
        rcases hrest with ⟨hnone, htake⟩ | ⟨tr, ok, rb', hloop, htake⟩
        · rw [hnone, htake]
          exact .inl ⟨rfl, rfl⟩
        · rw [hloop, htake]
          exact .inr ⟨_, _, _, rfl, rfl⟩

/-- When the receiving loop has received something, `handleRead` returns zero and has pushed it to
`write_buf_`. -/
def HandsOn (h : Handler) (rs : List RecvResult) : Prop :=
  ∀ tr ok rb, recvLoop rs h.readBuf = some (.ok (tr, ok, rb)) → received tr ≠ [] →
    ∃ fuel h', h.handleRead fuel rs = some (.ok (tr, 0, h')) ∧
      h'.writeBuf.content = h.writeBuf.content ++ received tr

theorem handsOn_iff {h : Handler} (hi : h.Inv) (rs : List RecvResult) :
    h.HandsOn rs ↔ ¬ GivesUp h.readBuf.defaultChunkSize h.readBuf.spaceChunk.1.2 rs := by
  have hpos := (Buffer.spaceChunk_spec hi.readBuf).2.2.2
  rcases recvLoop_takeIn hi.readBuf rs with ⟨hnone, htake⟩ | ⟨tr, ok, rb, hloop, htake⟩
  · refine iff_of_true (fun tr ok rb hloop => ?_) fun hgives => ?_
    · cases hnone.symm.trans hloop
    · obtain ⟨bs, hbs⟩ := hgives.takeIn hi.readBuf.chunk_pos hpos
      cases htake.symm.trans hbs
  rw [← takeIn_hands_on_iff htake]
  constructor
  · intro hon hne
    obtain ⟨fuel, h', hread, -⟩ := hon tr ok rb hloop hne
    cases ok with
    | true => rfl
    | false =>
      simp only [handleRead, hloop] at hread
      cases hread
  · intro hok tr' ok' rb' hloop' hne
    cases hloop.symm.trans hloop'
    obtain rfl := hok hne
    obtain ⟨_, _, _, heq, hinv, hcontent, -⟩ := recvLoop_spec hi.readBuf hloop
    cases heq
    obtain ⟨rb₂, wb₂, ⟨fuel, hiter⟩, -, -, -, hpushed⟩ := echoLoop_spec hinv hi.writeBuf
    refine ⟨fuel, ({ h with readBuf := rb₂, writeBuf := wb₂ } : Handler).rearm, ?_, ?_⟩
    · simp only [handleRead, hloop, hiter]
      rfl
    · rw [rearm_writeBuf, hpushed, hcontent, hi.empty, List.nil_append]

end Handler

/-! ### `FdBridge::read` -/

/-- `memoryBuff` as a FIFO: the bytes that are unread, and the room left in the node that is
written. -/
structure Fifo where
  unread : List UInt8
  room : ℕ

namespace Fifo

/-- `GetWriteBuff`: what is left of the node that is written, or a new node. -/
def getWriteBuff (f : Fifo) : ℕ × Fifo :=
  if f.room > 0 then (f.room, f) else (listNodeDataSize, { f with room := listNodeDataSize })

/-- The bytes `bs` are written, and `AdjustWriteSize`. -/
def adjustWriteSize (f : Fifo) (bs : List UInt8) : Fifo :=
  ⟨f.unread ++ bs, f.room - bs.length⟩

@[simp] theorem getWriteBuff_unread (f : Fifo) : f.getWriteBuff.2.unread = f.unread := by
  unfold getWriteBuff
  split_ifs <;> rfl

theorem getWriteBuff_room (f : Fifo) : f.getWriteBuff.2.room = f.getWriteBuff.1 := by
  unfold getWriteBuff
  split_ifs <;> rfl

theorem getWriteBuff_of_full {f : Fifo} (h : f.room = 0) : f.getWriteBuff.1 = listNodeDataSize := by
  unfold getWriteBuff
  rw [if_neg (by omega)]

theorem getWriteBuff_pos (f : Fifo) : 1 ≤ f.getWriteBuff.1 := by
  unfold getWriteBuff
  split_ifs with h
  · exact h
  · show 1 ≤ 4096
    omega

end Fifo

namespace FdBridge

open Handler (received)

/-- The loop of `read`; the flag is true when it is left by `break`. -/
def readLoop : List RecvResult → Fifo → Option (List Syscall × Bool × Fifo)
  | [], f => if f.getWriteBuff.1 = 0 then some ([], true, f.getWriteBuff.2) else none
  | r :: rs, f =>
      let len := f.getWriteBuff.1
      let f := f.getWriteBuff.2
      if len = 0 then some ([], true, f)
      else
        match r with
        | .closed => some ([.recv len .closed], false, f)
        | .error => some ([.recv len .error], false, f)
        | .again => some ([.recv len .again], true, f)
        | .data bs =>
            if 1 ≤ bs.length ∧ bs.length ≤ len then
              let f := f.adjustWriteSize bs
              if bs.length < len then some ([.recv len (.data bs)], true, f)
              else
                (readLoop rs f).map fun x => (.recv len (.data bs) :: x.1, x.2)
            else none

/-- `FdBridge::read`: the log, and the buffer that `notifyred` is called on; `none` for
`return -1`. -/
def read (rs : List RecvResult) (f : Fifo) : Option (List Syscall × Option Fifo) :=
  (readLoop rs f).map fun x => (x.1, if x.2.1 then some x.2.2 else none)

/-- The loop of `read` takes in what it receives, and writes it to the buffer. -/
theorem readLoop_takeIn (rs : List RecvResult) (f : Fifo) :
    (readLoop rs f = none ∧ takeIn listNodeDataSize f.getWriteBuff.1 rs = none) ∨
      ∃ tr ok f', readLoop rs f = some (tr, ok, f') ∧
        takeIn listNodeDataSize f.getWriteBuff.1 rs = some (received tr, ok) ∧
        f'.unread = f.unread ++ received tr := by
  induction rs generalizing f with
  | nil =>
    refine .inl ⟨?_, rfl⟩
    unfold readLoop
    rw [if_neg (Nat.one_le_iff_ne_zero.1 f.getWriteBuff_pos)]
  | cons r rs ih =>
    have hlen := Nat.one_le_iff_ne_zero.1 f.getWriteBuff_pos
    simp only [readLoop]
    rw [if_neg hlen]
    cases r with
    | closed | error | again => exact .inr ⟨_, _, _, rfl, rfl, by simp [Syscall.received]⟩
    | data bs =>
      simp only [takeIn]
      by_cases hbs : 1 ≤ bs.length ∧ bs.length ≤ f.getWriteBuff.1
      case neg =>
        rw [if_neg hbs, if_neg hbs]
        exact .inl ⟨rfl, rfl⟩
      rw [if_pos hbs, if_pos hbs]
      by_cases hshort : bs.length < f.getWriteBuff.1
      · rw [if_pos hshort, if_pos hshort]
        exact .inr ⟨_, _, _, rfl, by simp [Syscall.received],
          by simp [Fifo.adjustWriteSize, Syscall.received]⟩
      · rw [if_neg hshort, if_neg hshort]
        -- the node is full, the next region is a new one
        have hnew : (f.getWriteBuff.2.adjustWriteSize bs).getWriteBuff.1 = listNodeDataSize := by
          refine Fifo.getWriteBuff_of_full ?_
          show f.getWriteBuff.2.room - bs.length = 0
          rw [f.getWriteBuff_room]
          omega
        have hrest := ih (f.getWriteBuff.2.adjustWriteSize bs)
        rw [hnew] at hrest
        rcases hrest with ⟨hnone, htake⟩ | ⟨tr, ok, f', hloop, htake, hunread⟩
        · rw [hnone, htake]
          exact .inl ⟨rfl, rfl⟩
        · rw [hloop, htake]
          refine .inr ⟨_, _, _, rfl, rfl, ?_⟩
          rw [hunread]
          simp [Fifo.adjustWriteSize, Syscall.received]

/-- When the loop has received something, `read` calls `notifyred` on a buffer that ends with it. -/
def HandsOn (f : Fifo) (rs : List RecvResult) : Prop :=
  ∀ tr ok f', readLoop rs f = some (tr, ok, f') → received tr ≠ [] →
    ∃ f'', read rs f = some (tr, some f'') ∧ f''.unread = f.unread ++ received tr

theorem handsOn_iff (f : Fifo) (rs : List RecvResult) :
    HandsOn f rs ↔ ¬ GivesUp listNodeDataSize f.getWriteBuff.1 rs := by
  rcases readLoop_takeIn rs f with ⟨hnone, htake⟩ | ⟨tr, ok, f', hloop, htake, hunread⟩
  · refine iff_of_true (fun tr ok f' hloop => ?_) fun hgives => ?_
    · cases hnone.symm.trans hloop
    · obtain ⟨bs, hbs⟩ := hgives.takeIn (by decide) f.getWriteBuff_pos
      cases htake.symm.trans hbs
  rw [← takeIn_hands_on_iff htake]
  constructor
  · intro hon hne
    obtain ⟨f'', hread, -⟩ := hon tr ok f' hloop hne
    cases ok with
    | true => rfl
    | false =>
      simp only [read, hloop] at hread
      cases hread
  · intro hok tr' ok' f'' hloop' hne
    cases hloop.symm.trans hloop'
    obtain rfl := hok hne
    refine ⟨f', ?_, hunread⟩
    simp only [read, hloop]
    rfl

end FdBridge

/-! ### Both loops -/

open Handler (connSys received)

/-- In both loops, whatever room the buffer has and whatever the calls of `recv` give, what was received
is handed on exactly if it is not data that fills the regions offered with a close or an error behind
it. -/
theorem handed_on_iff (c : Handler.Conn) (h : Handler) (f : Fifo) (rs : List RecvResult)
    (hc : (connSys fun _ _ => True).Reachable c) (hh : c.handler = some h) :
    (h.fired.HandsOn rs ↔ ¬ GivesUp h.readBuf.defaultChunkSize h.readBuf.spaceChunk.1.2 rs) ∧
      (FdBridge.HandsOn f rs ↔ ¬ GivesUp listNodeDataSize f.getWriteBuff.1 rs) := by
  refine ⟨?_, FdBridge.handsOn_iff f rs⟩
  obtain ⟨_, ls, rfl, hrun⟩ := hc
  have hinv := hrun.invariant Handler.callback_inv Handler.new_connInv
  exact Handler.handsOn_iff (Handler.fired_inv (hinv.live h hh).1) rs

/-- Three bytes, fewer than the regions have room for. -/
theorem handed_on_iff_sample :
    (∃ fuel tr h', Handler.new.fired.handleRead fuel [.data [1, 2, 3]] = some (.ok (tr, 0, h')) ∧
        h'.writeBuf.content = [1, 2, 3]) ∧
      ∃ tr f, FdBridge.read [.data [1, 2, 3]] ⟨[], 4096⟩ = some (tr, some f) ∧
        f.unread = [1, 2, 3] := by
  have hfresh : (connSys fun _ _ => True).Reachable ⟨some Handler.new, []⟩ := ⟨_, [], rfl, .nil _⟩
  obtain ⟨hpushes, hnotifies⟩ :=
    handed_on_iff _ Handler.new ⟨[], 4096⟩ [.data [1, 2, 3]] hfresh rfl
  obtain ⟨fuel, h', hread, hpushed⟩ := hpushes.2 (by decide) _ _ _ rfl (by decide)
  obtain ⟨f, hnotified, hunread⟩ := hnotifies.2 (by decide) _ _ _ rfl (by decide)
  exact ⟨⟨fuel, _, h', hread, hpushed⟩, _, f, hnotified, hunread⟩

/-- Data that fills the region, then an orderly close: both loops return `-1` with the data neither
pushed nor notified. -/
theorem filled_then_closed :
    (∀ fuel, ∃ tr h', Handler.new.fired.handleRead fuel [.data (List.replicate 4096 7), .closed] =
        some (.ok (tr, -1, h')) ∧ received tr = List.replicate 4096 7 ∧ h'.writeBuf.content = []) ∧
      ∃ tr, FdBridge.read [.data (List.replicate 4096 7), .closed] ⟨[], 4096⟩ = some (tr, none) ∧
        received tr = List.replicate 4096 7 := by
  have hlen : (List.replicate 4096 (7 : UInt8)).length = 4096 := List.length_replicate
  generalize List.replicate 4096 (7 : UInt8) = bs at hlen ⊢
  have htake : takeIn 4096 4096 [.data bs, .closed] = some (bs, false) := by
    simp [takeIn, hlen]
  constructor
  · intro fuel
    rcases Handler.recvLoop_takeIn Handler.new_inv.readBuf [.data bs, .closed] with
      ⟨-, hnone⟩ | ⟨tr, ok, rb, hloop, htr⟩
    · cases htake.symm.trans hnone
    · obtain ⟨heq, rfl⟩ := Prod.mk.inj (Option.some.inj (htake.symm.trans htr))
      have hread : Handler.new.fired.handleRead fuel [.data bs, .closed] =
          some (.ok (tr, -1, { Handler.new.fired with readBuf := rb })) := by
        unfold Handler.handleRead
        rw [show Handler.new.fired.readBuf = Handler.new.readBuf from rfl, hloop]
      exact ⟨tr, _, hread, heq.symm, rfl⟩
  · rcases FdBridge.readLoop_takeIn [.data bs, .closed] ⟨[], 4096⟩ with
      ⟨-, hnone⟩ | ⟨tr, ok, f, hloop, htr, -⟩
    · cases htake.symm.trans hnone
    · obtain ⟨heq, rfl⟩ := Prod.mk.inj (Option.some.inj (htake.symm.trans htr))
      have hread : FdBridge.read [.data bs, .closed] ⟨[], 4096⟩ = some (tr, none) := by
        unfold FdBridge.read
        rw [hloop]
        rfl
      exact ⟨tr, hread, heq.symm⟩

end NetService
