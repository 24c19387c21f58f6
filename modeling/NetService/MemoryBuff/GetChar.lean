import NetService.MemoryBuff.Fifo

/-!
# `GetChar` and the block reads

`GetChar` counts a byte as read and leaves `_pRead` where it is; `AdjustReadSize` moves `_pRead` on
when the node has been read to its end.  `observe` is what a reader gets from any sequence of later
reads.

* A byte that is not the last of its node: both leave the same buffer (`agrees_inner`).
* The last byte: after `GetChar` nothing is ever read again (`observe_drained`), while after
  `AdjustReadSize` the next node is read.  So they agree only if that node has nothing to read
  (`agrees_last_iff`).

`agrees_iff` is this for every state that writes, reads and `GetChar` calls lead to.
-/

namespace NetService
namespace MemoryBuff

/-- `GetChar`: a pointer to the next byte, or null. -/
def getChar (b : MemoryBuff) : Except Fault (Option Addr × MemoryBuff) :=
  match b.deref b.pRead with
  | .error e => .error e
  | .ok (a, nd) =>
      if nd.writeSize > nd.readSize then
        .ok (some ⟨a, nd.readSize⟩,
          b.setNode a { nd with readSize := Word.wrap 16 (nd.readSize + 1) })
      else .ok (none, b)

/-! ### What a reader sees -/

/-- A read: `GetChar`, or `GetReadBuff` and, unless there is nothing to read, `AdjustReadSize`. -/
inductive Read
  | char
  | block (k : ℕ)

/-- What a read shows. -/
inductive Seen
  /-- a null pointer -/
  | null
  /-- a byte, or the bytes of a block -/
  | bytes (bs : List UInt8)
  /-- the client wants more than the block holds -/
  | refused
  | fault (e : Fault)
deriving DecidableEq

/-- What a sequence of reads shows; a fault is the end of it. -/
def observe (b : MemoryBuff) : List Read → List Seen
  | [] => []
  | .char :: calls =>
      match b.getChar with
      | .error e => [.fault e]
      | .ok (none, b') => .null :: b'.observe calls
      | .ok (some q, b') => .bytes (b.load q 1) :: b'.observe calls
  | .block k :: calls =>
      match b.getReadBuff with
      | .error e => [.fault e]
      | .ok none => .null :: b.observe calls
      | .ok (some (q, n)) =>
          if n < k then [.bytes (b.load q n), .refused]
          else
            match b.adjustReadSize k with
            | .error e => [.bytes (b.load q n), .fault e]
            | .ok b' => .bytes (b.load q n) :: b'.observe calls

/-- `GetChar` returns a pointer to the first byte that `GetReadBuff` offers, and no sequence of reads
tells the buffer it leaves from the one `AdjustReadSize(1)` leaves. -/
def Agrees (b : MemoryBuff) : Prop :=
  ∃ q n b₁ b₂, b.getReadBuff = .ok (some (q, n)) ∧ b.getChar = .ok (some q, b₁) ∧
    b.adjustReadSize 1 = .ok b₂ ∧ ∀ calls, b₁.observe calls = b₂.observe calls

/-- The next byte is not the last of its node, or there is nothing to read in the node behind. -/
def Unbroken (b : MemoryBuff) : Prop :=
  ∃ a nd, b.pRead = some a ∧ b.heap a = some nd ∧
    (nd.readSize + 1 < nd.cap ∨
      ∃ a' nd', nd.next = some a' ∧ b.heap a' = some nd' ∧ nd'.writeSize ≤ nd'.readSize)

/-! ### One call -/

variable {b : MemoryBuff} {a r : ℕ} {bytes : List UInt8} {next : Option ℕ}

/-- `GetChar` while there is something to read. -/
theorem getChar_spec {nd : ListNode} (hr : b.pRead = some a) (hnd : b.heap a = some nd)
    (h : nd.Holds bytes r next) (hlt : r < bytes.length) (hsize : bytes.length ≤ 4096) :
    b.getChar = .ok (some ⟨a, r⟩, b.setNode a { nd with readSize := r + 1 }) := by
  have hwrap : Word.wrap 16 ((r : ℤ) + 1) = r + 1 := by
    rw [← Nat.cast_succ]
    exact Word.wrap_natCast (by norm_num; omega)
  unfold getChar
  simp only [deref_eq hr hnd, h.read, h.write, hwrap]
  rw [if_pos hlt]

/-- The node that is read from has been read to its end. -/
def Drained (b : MemoryBuff) : Prop :=
  ∃ a nd, b.pRead = some a ∧ b.heap a = some nd ∧ nd.writeSize ≤ nd.readSize

theorem Holds.drained {n : ℕ} (h : b.Holds a bytes n next) (hr : b.pRead = some a)
    (hle : bytes.length ≤ n) : b.Drained := by
  obtain ⟨nd, hnd, hh⟩ := h
  refine ⟨a, nd, hr, hnd, ?_⟩
  rw [hh.write, hh.read]
  exact hle

theorem Drained.getReadBuff (h : b.Drained) : b.getReadBuff = .ok none := by
  obtain ⟨a, nd, hr, hnd, hle⟩ := h
  unfold MemoryBuff.getReadBuff
  simp only [deref_eq hr hnd]
  exact if_neg (not_lt.2 hle)

/-- `GetChar` returns null when `GetReadBuff` does. -/
theorem getChar_none (h : b.getReadBuff = .ok none) : b.getChar = .ok (none, b) := by
  unfold MemoryBuff.getReadBuff at h
  unfold MemoryBuff.getChar
  cases hread : b.deref b.pRead with
  | error e =>
    rw [hread] at h
    cases h
  | ok x =>
    simp only [hread] at h ⊢
    split at h
    · cases h
    · rename_i hle
      exact if_neg hle

theorem getChar_error {e : Fault} (h : b.getReadBuff = .error e) : b.getChar = .error e := by
  unfold MemoryBuff.getReadBuff at h
  unfold MemoryBuff.getChar
  cases hread : b.deref b.pRead with
  | error e' =>
    simp only [hread] at h ⊢
    cases h
    rfl
  | ok x =>
    simp only [hread] at h
    split at h <;> cases h

/-- Nothing is read any more. -/
theorem observe_drained (h : b.Drained) (calls : List Read) :
    b.observe calls = List.replicate calls.length .null := by
  induction calls with
  | nil => rfl
  | cons call calls ih =>
    cases call with
    | char =>
      simp only [observe, getChar_none h.getReadBuff, ih, List.length_cons, List.replicate_succ]
    | block k => simp only [observe, h.getReadBuff, ih, List.length_cons, List.replicate_succ]

theorem observe_null (hr : b.pRead = none) : b.observe [.char] = [.fault .nullDeref] := by
  simp only [observe, getChar, deref, hr]

theorem observe_char (h : b.Holds a bytes r next) (hr : b.pRead = some a)
    (hlt : r < bytes.length) (hsize : bytes.length ≤ 4096) :
    b.observe [.char] = [.bytes ((bytes.drop r).take 1)] := by
  obtain ⟨nd, hnd, hh⟩ := h
  have hload := (getReadBuff_spec hr hnd hh).2 1 hlt
  simp only [observe, getChar_spec hr hnd hh hlt hsize, hload]

/-! ### The node behind -/

theorem deref_ok {p : Option ℕ} {x : ℕ × ListNode} (h : b.deref p = .ok x) :
    p = some x.1 ∧ b.heap x.1 = some x.2 := by
  cases p with
  | none => cases h
  | some a =>
    cases hnd : b.heap a with
    | none =>
      simp only [deref, hnd] at h
      cases h
    | some nd =>
      simp only [deref, hnd] at h
      cases h
      exact ⟨rfl, hnd⟩

/-- Recycling a node moves `_pRead` on; the other nodes keep what they hold. -/
theorem recycle_holds {b' : MemoryBuff} {nd : ListNode} (h : b.recycle a nd = .ok b') :
    b'.pRead = nd.next ∧ ∀ x bytes r next, x ≠ a → b.Holds x bytes r next →
      ∃ next', b'.Holds x bytes r next' := by
  by_cases hfree : 5 < b.freeCount
  · obtain ⟨b'', hrec, hr, -, -, -, -, hother⟩ := recycle_delete (b := b) (a := a) nd hfree
    rw [h] at hrec
    cases hrec
    exact ⟨hr, fun x bytes r next hx hholds => ⟨next, hholds.congr (hother x hx)⟩⟩
  · unfold recycle defaultNodeFreeCount at h
    simp only [setNode_freeCount, setNode_pTail, gt_iff_lt, if_neg hfree] at h
    split at h
    · cases h
    · rename_i t tail hderef
      cases h
      obtain ⟨-, htail⟩ := deref_ok hderef
      simp only [setNode_heap] at htail
      refine ⟨rfl, fun x bytes r next hx hholds => ?_⟩
      by_cases hxt : x = t
      · subst hxt
        obtain ⟨ndx, hndx, hh⟩ := hholds
        rw [Function.update_of_ne hx, hndx] at htail
        cases htail
        exact ⟨some a, { tail with next := some a }, by simp, hh.cap, hh.write, hh.read, rfl, hh.data⟩
      · refine ⟨next, hholds.congr ?_⟩
        simp [hx, hxt]

/-- `AdjustReadSize(1)` at the last byte of a node. -/
theorem adjustReadSize_last {b' : MemoryBuff} (hr : b.pRead = some a)
    (h : b.Holds a bytes r next) (hfull : bytes.length = 4096) (hlast : r + 1 = 4096)
    (hadjust : b.adjustReadSize 1 = .ok b') :
    b'.pRead = next ∧ ∀ x bytes' r' next', x ≠ a → b.Holds x bytes' r' next' →
      ∃ next'', b'.Holds x bytes' r' next'' := by
  obtain ⟨nd, hnd, hh⟩ := h
  rw [adjustReadSize_spec hr hnd hh hfull.le (by omega), if_pos hlast] at hadjust
  obtain ⟨hread, hothers⟩ := recycle_holds hadjust
  refine ⟨hread.trans hh.next, fun x bytes' r' next' hx hholds => ?_⟩
  refine hothers x bytes' r' next' hx (hholds.congr ?_)
  simp [hx]

/-! ### Both at one byte -/

/-- At a byte that is not the last of its node both do the same. -/
theorem agrees_inner (hr : b.pRead = some a) (h : b.Holds a bytes r next) (hlt : r < bytes.length)
    (hsize : bytes.length ≤ 4096) (hinner : r + 1 < 4096) :
    b.Agrees ∧ ∃ b', b.getChar = .ok (some ⟨a, r⟩, b') ∧ b.adjustReadSize 1 = .ok b' := by
  obtain ⟨nd, hnd, hh⟩ := h
  have hget := (getReadBuff_spec hr hnd hh).1
  have hchar := getChar_spec hr hnd hh hlt hsize
  have hadjust := adjustReadSize_spec (k := 1) hr hnd hh hsize hlt
  rw [if_pos hlt] at hget
  rw [if_neg hinner.ne] at hadjust
  exact ⟨⟨_, _, _, _, hget, hchar, hadjust, fun _ => rfl⟩, _, hchar, hadjust⟩

/-- After `GetChar` at the last byte of a node the reader stays in this node. -/
theorem getChar_last (hr : b.pRead = some a) (h : b.Holds a bytes r next)
    (hfull : bytes.length = 4096) (hlast : r + 1 = 4096) :
    ∃ b', b.getChar = .ok (some ⟨a, r⟩, b') ∧ b'.Drained ∧ b'.pRead = some a ∧
      b'.pWrite = b.pWrite ∧ b'.Holds a bytes 4096 next ∧ ∀ x, x ≠ a → b'.heap x = b.heap x := by
  obtain ⟨nd, hnd, hh⟩ := h
  have hchar := getChar_spec hr hnd hh (by omega) hfull.le
  have hread := hh.read_bytes 1
  rw [hlast] at hchar hread
  have hholds : (b.setNode a { nd with readSize := 4096 }).Holds a bytes 4096 next :=
    ⟨_, by simp, hread⟩
  refine ⟨_, hchar, hholds.drained hr hfull.le, hr, rfl, hholds, fun x hx => ?_⟩
  simp [hx]

/-- At the last byte of a node with another one behind it, they agree if and only if there is
nothing to read in that one. -/
theorem agrees_last_iff {w : ℕ} {behind : List UInt8} {next' : Option ℕ} {b₂ : MemoryBuff}
    (hr : b.pRead = some a) (h : b.Holds a bytes r (some w)) (hfull : bytes.length = 4096)
    (hlast : r + 1 = 4096) (hw : w ≠ a) (hbehind : b.Holds w behind 0 next')
    (hsize : behind.length ≤ 4096) (hadjust : b.adjustReadSize 1 = .ok b₂) :
    b.Agrees ↔ behind = [] := by
  obtain ⟨b₁, hchar, hdrained, -⟩ := getChar_last hr h hfull hlast
  obtain ⟨hr₂, hothers⟩ := adjustReadSize_last hr h hfull hlast hadjust
  obtain ⟨next'', hholds₂⟩ := hothers w behind 0 next' hw hbehind
  constructor
  · rintro ⟨q, n, b₁', b₂', -, hchar', hadjust', hsame⟩
    rw [hchar] at hchar'
    cases hchar'
    rw [hadjust] at hadjust'
    cases hadjust'
    by_contra hne
    have hseen := hsame [.char]
    rw [observe_drained hdrained,
      observe_char hholds₂ hr₂ (List.length_pos_iff.2 hne) hsize] at hseen
    cases hseen
  · rintro rfl
    obtain ⟨nd, hnd, hh⟩ := h
    have hget := (getReadBuff_spec hr hnd hh).1
    rw [if_pos (by omega)] at hget
    refine ⟨_, _, b₁, b₂, hget, hchar, hadjust, fun calls => ?_⟩
    rw [observe_drained hdrained, observe_drained (hholds₂.drained hr₂ le_rfl)]

/-- At the last byte of the last node they do not agree: `_pRead` becomes null. -/
theorem not_agrees_end (hr : b.pRead = some a) (h : b.Holds a bytes r none)
    (hfull : bytes.length = 4096) (hlast : r + 1 = 4096) : ¬ b.Agrees := by
  rintro ⟨q, n, b₁', b₂, -, hchar', hadjust, hsame⟩
  obtain ⟨b₁, hchar, hdrained, -⟩ := getChar_last hr h hfull hlast
  obtain ⟨hr₂, -⟩ := adjustReadSize_last hr h hfull hlast hadjust
  rw [hchar] at hchar'
  cases hchar'
  have hseen := hsame [.char]
  rw [observe_drained hdrained, observe_null hr₂] at hseen
  cases hseen

/-! ### Clients that call `GetChar` -/

/-- `GetChar` as a step of a client. -/
def Client.stepChar (c : Client) : Outcome :=
  match c.buff.getChar with
  | .error e => .fault e
  | .ok (none, b) => .ok 0 ⟨b, c.stored, c.consumed⟩
  | .ok (some q, b) => .ok 1 ⟨b, c.stored, c.consumed ++ c.buff.load q 1⟩

/-- A step, or a call of `GetChar`. -/
inductive CharOp
  | op (o : Op)
  | char

/-- Clients of a buffer made with `len` nodes that call `GetChar` as well. -/
def charSystem (len : ℕ) : LTS Client CharOp where
  init c := c = Client.new len
  step c o c' :=
    match o with
    | .op o => ∃ granted, c.step o = .ok granted c'
    | .char => ∃ granted, c.stepChar = .ok granted c'

variable {len : ℕ} {c c' : Client} {p : Progress}

/-- What is behind the node at `a` when its last byte is next: null, and no node to write to; or a
node of which nothing has been read, and `AdjustReadSize` moves on to it. -/
def Behind (b : MemoryBuff) (a : ℕ) : Option ℕ → Prop
  | none => b.pWrite = none
  | some w => w ≠ a ∧ ∃ behind, b.Holds w behind 0 none ∧ behind.length ≤ 4096 ∧
      (b.pWrite = none ∨ b.pWrite = some w ∧ behind.length < 4096) ∧
      ∃ b', b.adjustReadSize 1 = .ok b'

theorem lt_of_getReadBuff {q : Addr} {n : ℕ} (hr : b.pRead = some a) (h : b.Holds a bytes r next)
    (hget : b.getReadBuff = .ok (some (q, n))) : r < bytes.length := by
  obtain ⟨nd, hnd, hh⟩ := h
  by_contra hlt
  rw [(getReadBuff_spec hr hnd hh).1, if_neg hlt] at hget
  cases hget

theorem adjustReadSize_of_step {k granted : ℕ} {q : Addr} {n : ℕ}
    (hget : c.buff.getReadBuff = .ok (some (q, n))) (hstep : c.step (.read k) = .ok granted c') :
    c.buff.adjustReadSize k = .ok c'.buff := by
  unfold Client.step at hstep
  simp only [hget] at hstep
  split at hstep
  · cases hadjust : c.buff.adjustReadSize k with
    | error e =>
      rw [hadjust] at hstep
      cases hstep
    | ok b' =>
      rw [hadjust] at hstep
      cases hstep
      rfl
  · cases hstep

/-- The node that is read from in a state of a run. -/
theorem Inv.front {q : Addr} {n : ℕ} (hinv : Inv len c p) (hlen : 1 ≤ len)
    (hget : c.buff.getReadBuff = .ok (some (q, n))) :
    ∃ a bytes r next, c.buff.pRead = some a ∧ c.buff.Holds a bytes r next ∧ r < bytes.length ∧
      bytes.length ≤ 4096 ∧ (r + 1 = 4096 → c.buff.Behind a next) := by
  have hle := hinv.fifo.length_le
  have hcap := capacity_ge hlen
  -- a node is behind the one read from only while the first is there
  cases hinv.shape with
  | first htwo hlt _ _ hr _ hfirst =>
    have hmore := lt_of_getReadBuff hr hfirst hget
    exact ⟨_, _, _, _, hr, hfirst, hmore, hlt.le, fun hlast => by omega⟩
  | both htwo hlow hhigh hcons _ hw hr ht hfirst hlast =>
    have htake : (c.stored.take 4096).length = 4096 := by rw [List.length_take]; omega
    have hdrop : (c.stored.drop 4096).length = c.stored.length - 4096 := List.length_drop
    refine ⟨_, _, _, _, hr, hfirst, by omega, htake.le, fun hend => ⟨by omega, _, hlast, by omega,
      .inr ⟨hw, by omega⟩, ?_⟩⟩
    obtain ⟨b', hstep, -⟩ := empty_first (k := 1) hr ht hfirst htake hcons hend
    exact ⟨b', adjustReadSize_of_step hget hstep⟩
  | firstFull htwo hfull hcons _ hw hr ht hfirst hlast =>
    have htake : (c.stored.take 4096).length = 4096 := by rw [List.length_take]; omega
    have hdrop : (c.stored.drop 4096).length = c.stored.length - 4096 := List.length_drop
    refine ⟨_, _, _, _, hr, hfirst, by omega, htake.le, fun hend => ⟨by omega, _, hlast, by omega,
      .inl hw, ?_⟩⟩
    obtain ⟨b', hstep, -⟩ := empty_first (k := 1) hr ht hfirst htake hcons hend
    exact ⟨b', adjustReadSize_of_step hget hstep⟩
  | last hlt hlow _ hr _ hlast =>
    have hdrop : (c.stored.drop (capacity len - 4096)).length =
        c.stored.length - (capacity len - 4096) := List.length_drop
    have hmore := lt_of_getReadBuff hr hlast hget
    exact ⟨_, _, _, _, hr, hlast, hmore, by omega, fun hend => by omega⟩
  | lastFull hfull hlow _ hw hr _ hlast =>
    have hdrop : (c.stored.drop (capacity len - 4096)).length =
        c.stored.length - (capacity len - 4096) := List.length_drop
    have hmore := lt_of_getReadBuff hr hlast hget
    exact ⟨_, _, _, _, hr, hlast, hmore, by omega, fun _ => hw⟩
  | used _ _ _ hr =>
    unfold getReadBuff deref at hget
    simp only [hr] at hget
    cases hget

/-- The reader stays for ever in a node that has been read to its end, while the writer has another
one or none. -/
def Spent (b : MemoryBuff) : Prop :=
  b.Drained ∧ (b.pWrite = none ∨
    ∃ w behind, b.pWrite = some w ∧ b.pRead ≠ some w ∧ b.Holds w behind 0 none ∧
      behind.length < 4096)

theorem Spent.step {op : Op} {granted : ℕ} (h : c.buff.Spent)
    (hstep : c.step op = .ok granted c') : c'.buff.Spent := by
  obtain ⟨hdrained, hwrite⟩ := h
  have hadm : c.step op ≠ .refused := by
    rw [hstep]
    nofun
  cases op with
  | write bs =>
    rcases hwrite with hnull | ⟨w, behind, hw, hne, hholds, hroom⟩
    · rw [write_null bs hnull] at hstep
      cases hstep
    · obtain ⟨hpos, hle⟩ := write_le hw hholds hroom hadm
      obtain ⟨b', hdone, hholds', hother, hr', -, hw', -⟩ := write_spec hw hholds hpos hle
      rw [hstep] at hdone
      cases hdone
      obtain ⟨a, nd, hr, hnd, hread⟩ := hdrained
      have haw : a ≠ w := by
        rintro rfl
        exact hne hr
      refine ⟨⟨a, nd, hr'.trans hr, (hother a haw).trans hnd, hread⟩, ?_⟩
      by_cases hfull : behind.length + bs.length = 4096
      · rw [if_pos hfull] at hw'
        exact .inl hw'
      · rw [if_neg hfull] at hw'
        have hlen : (behind ++ bs).length = behind.length + bs.length := List.length_append
        refine .inr ⟨w, behind ++ bs, hw', ?_, hholds', by omega⟩
        show b'.pRead ≠ some w
        rw [hr']
        exact hne
  | read k =>
    unfold Client.step at hstep
    simp only [hdrained.getReadBuff] at hstep
    split at hstep
    · cases hstep
      exact ⟨hdrained, hwrite⟩
    · cases hstep

theorem Spent.stepChar {granted : ℕ} (h : c.buff.Spent) (hstep : c.stepChar = .ok granted c') :
    c'.buff.Spent := by
  unfold Client.stepChar at hstep
  simp only [getChar_none h.1.getReadBuff] at hstep
  cases hstep
  exact h

/-- A call of `GetChar` at a byte that is not the last of its node is a read step of one byte. -/
theorem stepChar_inner {granted : ℕ} (hr : c.buff.pRead = some a)
    (h : c.buff.Holds a bytes r next) (hlt : r < bytes.length) (hsize : bytes.length ≤ 4096)
    (hinner : r + 1 < 4096) (hstep : c.stepChar = .ok granted c') :
    ∃ n, c.step (.read 1) = .ok n c' := by
  obtain ⟨-, b', hchar, hadjust⟩ := agrees_inner hr h hlt hsize hinner
  obtain ⟨nd, hnd, hh⟩ := h
  have hget := (getReadBuff_spec hr hnd hh).1
  rw [if_pos hlt] at hget
  unfold Client.stepChar at hstep
  simp only [hchar] at hstep
  cases hstep
  unfold Client.step
  simp only [hget, hadjust]
  rw [if_pos (by omega)]
  exact ⟨_, rfl⟩

/-- At the last byte of its node it leaves the reader there. -/
theorem stepChar_last {granted : ℕ} (hr : c.buff.pRead = some a)
    (h : c.buff.Holds a bytes r next) (hfull : bytes.length = 4096) (hlast : r + 1 = 4096)
    (hbehind : c.buff.Behind a next) (hstep : c.stepChar = .ok granted c') : c'.buff.Spent := by
  obtain ⟨b', hchar, hdrained, hr', hw', -, hother⟩ := getChar_last hr h hfull hlast
  unfold Client.stepChar at hstep
  simp only [hchar] at hstep
  cases hstep
  refine ⟨hdrained, ?_⟩
  cases next with
  | none => exact .inl (hw'.trans hbehind)
  | some w =>
    obtain ⟨hne, behind, hunread, -, hwrite, -⟩ := hbehind
    refine hwrite.imp hw'.trans fun hwrite => ?_
    refine ⟨w, behind, hw'.trans hwrite.1, fun heq => ?_, hunread.congr (hother w hne), hwrite.2⟩
    rw [hr'] at heq
    exact hne (Option.some.inj heq).symm

/-- A call of `GetChar` in a state of a run. -/
theorem Inv.stepChar {granted : ℕ} (hinv : Inv len c p) (hlen : 1 ≤ len) (hbyte : len < 256)
    (hstep : c.stepChar = .ok granted c') : (∃ p', Inv len c' p') ∨ c'.buff.Spent := by
  cases hget : c.buff.getReadBuff with
  | error e =>
    unfold Client.stepChar at hstep
    simp only [getChar_error hget] at hstep
    cases hstep
  | ok out =>
    cases out with
    | none =>
      unfold Client.stepChar at hstep
      simp only [getChar_none hget] at hstep
      cases hstep
      exact .inl ⟨p, hinv⟩
    | some x =>
      obtain ⟨a, bytes, r, next, hr, hholds, hlt, hsize, hbehind⟩ := hinv.front hlen hget
      by_cases hend : r + 1 = 4096
      · exact .inr (stepChar_last hr hholds (by omega) hend (hbehind hend) hstep)
      · obtain ⟨n, hread⟩ := stepChar_inner hr hholds hlt hsize (by omega) hstep
        exact .inl ⟨_, hinv.step hlen hbyte hread⟩

/-! ### Every reachable state -/

/-- The states that writes, reads and `GetChar` calls lead to. -/
theorem charSystem_inv {ops : List CharOp} (hlen : 1 ≤ len) (hbyte : len < 256)
    (hrun : (charSystem len).Run (Client.new len) ops c) :
    (∃ p, Inv len c p) ∨ c.buff.Spent := by
  refine hrun.invariant (I := fun c => (∃ p, Inv len c p) ∨ c.buff.Spent) ?_
    (.inl ⟨_, new_inv hlen hbyte⟩)
  intro c op c' hc hstep
  cases op with
  | op o =>
    obtain ⟨granted, hstep⟩ := hstep
    rcases hc with ⟨p, hinv⟩ | hspent
    · exact .inl ⟨_, hinv.step hlen hbyte hstep⟩
    · exact .inr (hspent.step hstep)
  | char =>
    obtain ⟨granted, hstep⟩ := hstep
    rcases hc with ⟨p, hinv⟩ | hspent
    · exact hinv.stepChar hlen hbyte hstep
    · exact .inr (hspent.stepChar hstep)

/-- A buffer that was made with no node has nothing to read. -/
theorem charSystem_zero {ops : List CharOp} (hrun : (charSystem 0).Run (Client.new 0) ops c) :
    c.buff.pRead = none := by
  refine (hrun.invariant (I := fun c => c.buff.pRead = none ∧ c.buff.pWrite = none) ?_
    ⟨rfl, rfl⟩).1
  rintro c op c' ⟨hr, hw⟩ hstep
  cases op with
  | op o =>
    obtain ⟨granted, hstep⟩ := hstep
    cases o with
    | write bs =>
      rw [write_null bs hw] at hstep
      cases hstep
    | read k =>
      rw [read_null k hr] at hstep
      cases hstep
  | char =>
    obtain ⟨granted, hstep⟩ := hstep
    simp only [Client.stepChar, getChar, deref, hr] at hstep
    cases hstep

theorem unbroken_iff (hr : b.pRead = some a) (h : b.Holds a bytes r next) :
    b.Unbroken ↔ r + 1 < 4096 ∨
      ∃ a' nd', next = some a' ∧ b.heap a' = some nd' ∧ nd'.writeSize ≤ nd'.readSize := by
  obtain ⟨nd, hnd, hh⟩ := h
  constructor
  · rintro ⟨a₁, nd₁, hr₁, hnd₁, hcases⟩
    rw [hr] at hr₁
    cases hr₁
    rw [hnd] at hnd₁
    cases hnd₁
    rwa [hh.read, hh.cap, hh.next] at hcases
  · intro hcases
    refine ⟨a, nd, hr, hnd, ?_⟩
    rwa [hh.read, hh.cap, hh.next]

/-- At the last byte of a node both sides of `agrees_iff` depend on the node behind. -/
theorem agrees_iff_last (hr : b.pRead = some a) (h : b.Holds a bytes r next)
    (hfull : bytes.length = 4096) (hlast : r + 1 = 4096) (hbehind : b.Behind a next) :
    b.Agrees ↔ b.Unbroken := by
  rw [unbroken_iff hr h, or_iff_right (by omega)]
  cases next with
  | none =>
    refine iff_of_false (not_agrees_end hr h hfull hlast) ?_
    rintro ⟨a', nd', hnext, -⟩
    cases hnext
  | some w =>
    obtain ⟨hne, behind, hunread, hle, -, b₂, hadjust⟩ := hbehind
    rw [agrees_last_iff hr h hfull hlast hne hunread hle hadjust]
    obtain ⟨nd, hnd, hh⟩ := hunread
    constructor
    · rintro rfl
      refine ⟨w, nd, rfl, hnd, ?_⟩
      rw [hh.write]
      exact Nat.zero_le _
    · rintro ⟨a', nd', hnext, hnd', hread⟩
      cases hnext
      rw [hnd] at hnd'
      cases hnd'
      rw [hh.write, hh.read] at hread
      exact List.eq_nil_of_length_eq_zero (Nat.le_zero.1 hread)

/-- In every state of a run in which `GetReadBuff` offers something, `GetChar` agrees with it and
`AdjustReadSize(1)` if and only if the byte is not the last of its node, or the node behind has
nothing to read. -/
theorem agrees_iff {ops : List CharOp} {q : Addr} {n : ℕ} (hbyte : len < 256)
    (hrun : (charSystem len).Run (Client.new len) ops c)
    (hget : c.buff.getReadBuff = .ok (some (q, n))) : c.buff.Agrees ↔ c.buff.Unbroken := by
  rcases Nat.eq_zero_or_pos len with rfl | hlen
  · simp only [getReadBuff, deref, charSystem_zero hrun] at hget
    cases hget
  rcases charSystem_inv hlen hbyte hrun with ⟨p, hinv⟩ | hspent
  · obtain ⟨a, bytes, r, next, hr, hholds, hlt, hsize, hbehind⟩ := hinv.front hlen hget
    by_cases hend : r + 1 = 4096
    · exact agrees_iff_last hr hholds (by omega) hend (hbehind hend)
    · have hagrees := (agrees_inner hr hholds hlt hsize (by omega)).1
      exact iff_of_true hagrees ((unbroken_iff hr hholds).2 (.inl (by omega)))
  · rw [hspent.1.getReadBuff] at hget
    cases hget

/-- Two bytes, and `GetChar` for the first. -/
theorem agrees_iff_sample : ∃ c, (charSystem 2).Run (Client.new 2) [.op (.write [1, 2])] c ∧
    c.buff.Agrees := by
  have hrun : ∃ c q n, (charSystem 2).Run (Client.new 2) [.op (.write [1, 2])] c ∧
      c.buff.getReadBuff = .ok (some (q, n)) ∧ c.buff.Unbroken :=
    ⟨_, _, _, .cons ⟨4096, rfl⟩ (.nil _), rfl, _, _, rfl, rfl, .inl (by decide)⟩
  obtain ⟨c, q, n, hc, hget, hunbroken⟩ := hrun
  exact ⟨c, hc, (agrees_iff (by decide) hc hget).2 hunbroken⟩

/-- A full node with one byte behind it: after 4095 bytes `GetChar` returns the last byte of the
node, and from then on null, while `AdjustReadSize(1)` makes the byte behind it the next one. -/
theorem getChar_stops : ∃ c q n b₁ b₂,
    (charSystem 2).Run (Client.new 2)
      [.op (.write nodeful), .op (.write [7]), .op (.read 4095)] c ∧
    c.buff.getReadBuff = .ok (some (q, n)) ∧ c.buff.getChar = .ok (some q, b₁) ∧
    c.buff.adjustReadSize 1 = .ok b₂ ∧
    (∀ calls, b₁.observe calls = List.replicate calls.length .null) ∧
    b₂.observe [.char] = [.bytes [7]] ∧ ¬ c.buff.Agrees := by
  have hlen : nodeful.length = 4096 := List.length_replicate
  have hroom : ([] : List UInt8).length + nodeful.length = 4096 := by
    rw [List.length_nil, Nat.zero_add, hlen]
  have hb := @new_built 2 (by decide) (by decide)
  have hfirst : (Client.new 2).buff.Holds 0 [] 0 (some 1) := ⟨_, hb.first, reset_holds _⟩
  have hlast : (Client.new 2).buff.Holds 1 [] 0 none :=
    ⟨_, hb.others 1 (by decide) (by decide), reset_holds none⟩
  -- the three steps: the first node full, one byte in the second, one byte left in the first
  obtain ⟨b, h₁, hfirst₁, hother₁, hr₁, ht₁, hw₁, -⟩ :=
    write_spec hb.pWrite hfirst (by rw [hlen]; decide) hroom.le
  rw [if_pos hroom] at hw₁
  rw [List.nil_append] at hfirst₁
  obtain ⟨b', h₂, hlast₂, hother₂, hr₂, ht₂, -⟩ :=
    write_spec (c := ⟨b, (Client.new 2).stored ++ nodeful, (Client.new 2).consumed⟩) hw₁
      (hlast.congr (hother₁ 1 (by decide))) (show 1 ≤ ([7] : List UInt8).length by decide)
      (by decide)
  obtain ⟨b'', h₃, hfirst₃, hother₃, hr₃, ht₃, -⟩ :=
    read_spec (k := 4095)
      (c := ⟨b', (Client.new 2).stored ++ nodeful ++ [7], (Client.new 2).consumed⟩)
      (hr₂.trans (hr₁.trans hb.pRead)) (hfirst₁.congr (hother₂ 0 (by decide))) hlen.le
      (by rw [hlen]; decide) (by decide)
  have hread := hr₃.trans (hr₂.trans (hr₁.trans hb.pRead))
  have hbehind := hlast₂.congr (hother₃ 1 (by decide))
  have hget : ∃ q n, b''.getReadBuff = .ok (some (q, n)) ∧ q = ⟨0, 4095⟩ := by
    obtain ⟨nd, hnd, hh⟩ := hfirst₃
    have hget := (getReadBuff_spec hread hnd hh).1
    rw [hlen, if_pos (by decide)] at hget
    exact ⟨_, _, hget, rfl⟩
  obtain ⟨q, n, hget, rfl⟩ := hget
  -- `GetChar` leaves the node drained, `AdjustReadSize` goes on to the second one
  obtain ⟨b₁, hchar, hdrained, -⟩ := getChar_last hread hfirst₃ hlen rfl
  obtain ⟨b₂, hstep, -⟩ := empty_first (k := 1)
    (c := ⟨b'', (Client.new 2).stored ++ nodeful ++ [7],
      (Client.new 2).consumed ++ (nodeful.drop 0).take 4095⟩)
    hread (ht₃.trans (ht₂.trans (ht₁.trans hb.pTail))) hfirst₃ hlen (by decide) rfl
  have hadjust := adjustReadSize_of_step hget hstep
  obtain ⟨hr', hothers⟩ := adjustReadSize_last hread hfirst₃ hlen rfl hadjust
  obtain ⟨next', hnext⟩ := hothers 1 _ 0 none (by decide) hbehind
  have hdiffer := agrees_last_iff hread hfirst₃ hlen rfl (by decide) hbehind (by decide) hadjust
  refine ⟨_, _, _, _, _, .cons ⟨_, h₁⟩ (.cons ⟨_, h₂⟩ (.cons ⟨_, h₃⟩ (.nil _))), hget, hchar,
    hadjust, observe_drained hdrained, observe_char hnext hr' (by decide) (by decide), ?_⟩
  exact fun hagrees => absurd (hdiffer.1 hagrees) (by decide)

end MemoryBuff
end NetService
