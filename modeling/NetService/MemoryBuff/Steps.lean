import NetService.Lib.Stream
import NetService.MemoryBuff.Model

/-!
# The steps of a `memoryBuff` client, node by node

`Holds` describes one node: the bytes written to it, how many of them have been read, and its
successor.  `write_spec` and `read_spec` say what a step does to the node it works on, to the
pointers and to `_freeCount`, and that every other node stays as it is; `recycle_delete` and
`recycle_keep` are the end of a read that empties a node.  The shape of the list does not enter here.
-/

namespace NetService

/-- A node with `bytes` written, `r` of them read, and `next` behind it. -/
structure ListNode.Holds (nd : ListNode) (bytes : List UInt8) (r : ℕ) (next : Option ℕ) : Prop where
  cap : nd.cap = 4096
  write : nd.writeSize = bytes.length
  read : nd.readSize = r
  next : nd.next = next
  data : Memory.load nd.pData 0 bytes.length = bytes

/-- Storing `bs` behind the bytes of a node and counting them. -/
theorem ListNode.Holds.write_bytes {nd : ListNode} {bytes : List UInt8} {r : ℕ}
    {next : Option ℕ} (h : nd.Holds bytes r next) (bs : List UInt8) :
    ListNode.Holds { nd with pData := Memory.store nd.pData nd.writeSize bs
                             writeSize := bytes.length + bs.length } (bytes ++ bs) r next where
  cap := h.cap
  write := by simp
  read := h.read
  next := h.next
  data := by
    have happend := Memory.load_store_append nd.pData 0 bytes.length bs
    rw [Nat.zero_add, h.data] at happend
    rw [List.length_append, h.write]
    exact happend

/-- The node a read step works on, with `k` more bytes read. -/
theorem ListNode.Holds.read_bytes {nd : ListNode} {bytes : List UInt8} {r : ℕ}
    {next : Option ℕ} (h : nd.Holds bytes r next) (k : ℕ) :
    ListNode.Holds { nd with readSize := r + k } bytes (r + k) next :=
  ⟨h.cap, h.write, rfl, h.next, h.data⟩

namespace MemoryBuff

/-- The node at `a`. -/
def Holds (b : MemoryBuff) (a : ℕ) (bytes : List UInt8) (r : ℕ) (next : Option ℕ) : Prop :=
  ∃ nd, b.heap a = some nd ∧ nd.Holds bytes r next

variable {b : MemoryBuff} {c : Client} {a r : ℕ} {bytes : List UInt8} {next : Option ℕ}

theorem deref_eq {p : Option ℕ} {nd : ListNode} (hp : p = some a) (h : b.heap a = some nd) :
    b.deref p = .ok (a, nd) := by
  subst hp
  simp only [deref, h]

section Fields

variable (b : MemoryBuff) (a : ℕ) (nd : ListNode)

@[simp] theorem setNode_heap : (b.setNode a nd).heap = Function.update b.heap a (some nd) := rfl
@[simp] theorem setNode_pTail : (b.setNode a nd).pTail = b.pTail := rfl
@[simp] theorem setNode_pRead : (b.setNode a nd).pRead = b.pRead := rfl
@[simp] theorem setNode_pWrite : (b.setNode a nd).pWrite = b.pWrite := rfl
@[simp] theorem setNode_freeCount : (b.setNode a nd).freeCount = b.freeCount := rfl

end Fields

/-- The other nodes do not notice a change of the node at `a`. -/
theorem Holds.congr {b' : MemoryBuff} {x : ℕ} (h : b.Holds x bytes r next)
    (heq : b'.heap x = b.heap x) : b'.Holds x bytes r next := by
  obtain ⟨nd, hnd, hholds⟩ := h
  exact ⟨nd, heq.trans hnd, hholds⟩

/-! ### Writing -/

/-- `AdjustWriteSize` within the capacity of the node. -/
theorem adjustWriteSize_spec {nd : ListNode} {k : ℕ} (hw : b.pWrite = some a)
    (hnd : b.heap a = some nd) (hcap : nd.cap = 4096) (hk : nd.writeSize + k ≤ 4096) :
    b.adjustWriteSize k =
      .ok (if nd.writeSize + k = 4096 then
        { b.setNode a { nd with writeSize := nd.writeSize + k } with
          freeCount := Word.wrap 16 ((b.freeCount : ℤ) - 1), pWrite := nd.next }
      else b.setNode a { nd with writeSize := nd.writeSize + k }) := by
  have hwrap : Word.wrap 16 ((nd.writeSize : ℤ) + k) = nd.writeSize + k := by
    rw [← Nat.cast_add]
    exact Word.wrap_natCast (by norm_num; omega)
  unfold adjustWriteSize
  simp only [deref_eq hw hnd, hcap, hwrap]
  rw [if_pos (by omega)]
  by_cases hfull : nd.writeSize + k = 4096
  · rw [if_pos hfull, if_pos (by omega)]
    rfl
  · rw [if_neg hfull, if_neg (by omega)]

/-- The region `GetWriteBuff` offers while the node has room. -/
theorem getWriteBuff_spec (hw : b.pWrite = some a) (h : b.Holds a bytes r next)
    (hroom : bytes.length < 4096) :
    b.getWriteBuff = .ok ((⟨a, bytes.length⟩, 4096 - bytes.length), b) := by
  obtain ⟨nd, hnd, hh⟩ := h
  unfold getWriteBuff
  simp only [deref_eq hw hnd, hh.cap, hh.write]
  rw [if_pos (by omega)]

/-- A write step stores something, and no more than the node has room for. -/
theorem write_le {bs : List UInt8} (hw : c.buff.pWrite = some a)
    (h : c.buff.Holds a bytes r next) (hroom : bytes.length < 4096)
    (hadm : c.step (.write bs) ≠ .refused) :
    1 ≤ bs.length ∧ bytes.length + bs.length ≤ 4096 := by
  by_contra hout
  refine hadm ?_
  unfold Client.step
  simp only [getWriteBuff_spec hw h hroom]
  rw [if_neg (by omega), if_neg (by omega)]

/-- A write step into a node that has room. -/
theorem write_spec {bs : List UInt8} (hw : c.buff.pWrite = some a)
    (h : c.buff.Holds a bytes r next) (hpos : 1 ≤ bs.length)
    (hroom : bytes.length + bs.length ≤ 4096) :
    ∃ b', c.step (.write bs) = .ok (4096 - bytes.length) ⟨b', c.stored ++ bs, c.consumed⟩ ∧
      b'.Holds a (bytes ++ bs) r next ∧ (∀ x, x ≠ a → b'.heap x = c.buff.heap x) ∧
      b'.pRead = c.buff.pRead ∧ b'.pTail = c.buff.pTail ∧
      b'.pWrite = (if bytes.length + bs.length = 4096 then next else some a) ∧
      b'.freeCount = (if bytes.length + bs.length = 4096 then
        Word.wrap 16 ((c.buff.freeCount : ℤ) - 1) else c.buff.freeCount) := by
  have hget := getWriteBuff_spec hw h (by omega)
  obtain ⟨nd, hnd, hh⟩ := h
  obtain ⟨nd', hnd'⟩ : ∃ nd', nd' = { nd with pData := Memory.store nd.pData nd.writeSize bs } :=
    ⟨_, rfl⟩
  have hstore : c.buff.store ⟨a, bytes.length⟩ bs = c.buff.setNode a nd' := by
    unfold store
    simp only [hnd, hnd', hh.write]
  have hheap : (c.buff.setNode a nd').heap a = some nd' := by simp
  have hsize : nd'.writeSize = bytes.length := by rw [hnd', ← hh.write]
  have hnext : nd'.next = next := by rw [hnd', ← hh.next]
  have hadjust := adjustWriteSize_spec (b := c.buff.setNode a nd') (k := bs.length) hw hheap
    (by rw [hnd']; exact hh.cap) (by rw [hsize]; omega)
  have hholds : ListNode.Holds { nd' with writeSize := bytes.length + bs.length }
      (bytes ++ bs) r next := by
    rw [hnd']
    exact hh.write_bytes bs
  unfold Client.step
  simp only [hget]
  rw [if_pos ⟨hpos, by omega⟩, hstore, hadjust, hsize]
  by_cases hfull : bytes.length + bs.length = 4096
  · simp only [hfull, if_true] at hholds ⊢
    refine ⟨_, rfl, ⟨_, by simp, hholds⟩, fun x hx => ?_, rfl, rfl, hnext, rfl⟩
    simp [hx]
  · simp only [hfull, if_false]
    refine ⟨_, rfl, ⟨_, by simp, hholds⟩, fun x hx => ?_, rfl, rfl, hw, rfl⟩
    simp [hx]

/-! ### Reading -/

/-- What a read step does before it recycles a node. -/
theorem adjustReadSize_spec {nd : ListNode} {k : ℕ} (hr : b.pRead = some a)
    (hnd : b.heap a = some nd) (h : nd.Holds bytes r next)
    (hsize : bytes.length ≤ 4096) (hk : r + k ≤ bytes.length) :
    b.adjustReadSize k =
      if r + k = 4096 then
        (b.setNode a { nd with readSize := r + k }).recycle a { nd with readSize := r + k }
      else .ok (b.setNode a { nd with readSize := r + k }) := by
  have hwrap : Word.wrap 16 ((nd.readSize : ℤ) + k) = r + k := by
    rw [h.read, ← Nat.cast_add]
    exact Word.wrap_natCast (by norm_num; omega)
  have hleft : ¬ (if b.pRead = b.pWrite then nd.writeSize - nd.readSize
      else nd.cap - nd.readSize) < k := by
    rw [h.write, h.read, h.cap]
    split <;> omega
  unfold adjustReadSize
  simp only [deref_eq hr hnd, hwrap]
  rw [if_neg hleft, h.cap]
  by_cases hfull : r + k = 4096
  · rw [if_pos hfull, if_pos (by omega)]
  · rw [if_neg hfull, if_neg (by omega)]

/-- The region of a read step, and what is in it. -/
theorem getReadBuff_spec {nd : ListNode} (hr : b.pRead = some a) (hnd : b.heap a = some nd)
    (h : nd.Holds bytes r next) :
    b.getReadBuff = .ok (if r < bytes.length then some (⟨a, r⟩, bytes.length - r) else none) ∧
      ∀ k, r + k ≤ bytes.length → b.load ⟨a, r⟩ k = (bytes.drop r).take k := by
  constructor
  · unfold getReadBuff
    simp only [deref_eq hr hnd, h.write, h.read]
    split <;> rfl
  · intro k hk
    unfold load
    simp only [hnd]
    have hload := Memory.drop_load nd.pData 0 bytes.length r (by omega)
    rw [h.data, Nat.zero_add] at hload
    rw [hload, Memory.take_load _ _ _ _ (by omega)]

/-- A read step takes no more than the node holds. -/
theorem read_le {k : ℕ} (hr : c.buff.pRead = some a) (h : c.buff.Holds a bytes r next)
    (hle : r ≤ bytes.length) (hadm : c.step (.read k) ≠ .refused) : r + k ≤ bytes.length := by
  obtain ⟨nd, hnd, hh⟩ := h
  have hget := (getReadBuff_spec hr hnd hh).1
  by_contra hlt
  refine hadm ?_
  unfold Client.step
  by_cases hsome : r < bytes.length
  · simp only [hget, if_pos hsome, if_neg (show ¬ k ≤ bytes.length - r by omega)]
  · simp only [hget, if_neg hsome, if_neg (show ¬ k = 0 by omega)]

/-- A read step that does not empty its node. -/
theorem read_spec {k : ℕ} (hr : c.buff.pRead = some a) (h : c.buff.Holds a bytes r next)
    (hsize : bytes.length ≤ 4096) (hk : r + k ≤ bytes.length) (hlt : r + k < 4096) :
    ∃ b', c.step (.read k) = .ok (bytes.length - r)
        ⟨b', c.stored, c.consumed ++ (bytes.drop r).take k⟩ ∧
      b'.Holds a bytes (r + k) next ∧ (∀ x, x ≠ a → b'.heap x = c.buff.heap x) ∧
      b'.pRead = c.buff.pRead ∧ b'.pTail = c.buff.pTail ∧ b'.pWrite = c.buff.pWrite ∧
      b'.freeCount = c.buff.freeCount := by
  obtain ⟨nd, hnd, hh⟩ := h
  obtain ⟨hget, hload⟩ := getReadBuff_spec hr hnd hh
  unfold Client.step
  by_cases hsome : r < bytes.length
  · have hadjust := adjustReadSize_spec (k := k) hr hnd hh hsize hk
    rw [if_neg (by omega)] at hadjust
    simp only [hget, if_pos hsome, if_pos (show k ≤ bytes.length - r by omega), hadjust,
      hload k hk]
    refine ⟨_, rfl, ⟨_, by simp, hh.read_bytes k⟩, fun x hx => ?_, rfl, rfl, rfl, rfl⟩
    simp [hx]
  · -- nothing to read
    obtain rfl : k = 0 := by omega
    refine ⟨c.buff, ?_, ⟨nd, hnd, hh⟩, fun _ _ => rfl, rfl, rfl, rfl, rfl⟩
    simp only [hget, if_neg hsome, if_true, List.take_zero, List.append_nil,
      Nat.sub_eq_zero_of_le (not_lt.1 hsome)]

/-- A read step that empties its node comes down to recycling it. -/
theorem read_full {k : ℕ} (hr : c.buff.pRead = some a) (h : c.buff.Holds a bytes r next)
    (hfull : bytes.length = 4096) (hlt : r < 4096) (hk : r + k = 4096) :
    ∃ nd : ListNode, nd.next = next ∧ c.step (.read k) =
      match (c.buff.setNode a nd).recycle a nd with
      | .error e => .fault e
      | .ok b => .ok k ⟨b, c.stored, c.consumed ++ (bytes.drop r).take k⟩ := by
  obtain ⟨nd, hnd, hh⟩ := h
  obtain ⟨hget, hload⟩ := getReadBuff_spec hr hnd hh
  have hadjust := adjustReadSize_spec (k := k) hr hnd hh hfull.le (by omega)
  rw [if_pos hk] at hadjust
  refine ⟨{ nd with readSize := r + k }, hh.next, ?_⟩
  unfold Client.step
  cases hrec : (c.buff.setNode a { nd with readSize := r + k }).recycle a
      { nd with readSize := r + k } with
  | error e =>
    rw [hrec] at hadjust
    simp only [hget, if_pos (by omega : r < bytes.length), hadjust,
      show bytes.length - r = k by omega, le_refl, if_true]
  | ok b =>
    rw [hrec] at hadjust
    simp only [hget, if_pos (by omega : r < bytes.length), hadjust, hload k (by omega),
      show bytes.length - r = k by omega, le_refl, if_true]

/-! ### Recycling -/

/-- With more than `_DEFAULT_NODE_FREE_COUNT` free nodes the emptied node is deleted. -/
theorem recycle_delete (nd : ListNode) (hfree : 5 < b.freeCount) :
    ∃ b', b.recycle a nd = .ok b' ∧ b'.pRead = nd.next ∧ b'.pWrite = b.pWrite ∧
      b'.pTail = b.pTail ∧ b'.freeCount = b.freeCount ∧ b'.heap a = none ∧
      ∀ x, x ≠ a → b'.heap x = b.heap x := by
  unfold recycle defaultNodeFreeCount
  simp only [setNode_freeCount, gt_iff_lt]
  rw [if_pos hfree]
  refine ⟨_, rfl, rfl, rfl, rfl, rfl, by simp, fun x hx => by simp [hx]⟩

/-- Otherwise it goes behind the node `_pTail` points to, if that is alive or the node itself. -/
theorem recycle_keep {t : ℕ} (nd : ListNode) (hfree : b.freeCount ≤ 5) (ht : b.pTail = some t)
    (halive : t = a ∨ ∃ tail, b.heap t = some tail) :
    ∃ b', b.recycle a nd = .ok b' ∧ b'.pRead = nd.next ∧ b'.pWrite = b.pWrite ∧
      b'.pTail = some a ∧ b'.freeCount = b.freeCount + 1 ∧ (∃ nd', b'.heap a = some nd') ∧
      ∀ x, x ≠ a → x ≠ t → b'.heap x = b.heap x := by
  have hwrap : Word.wrap 16 ((b.freeCount : ℤ) + 1) = b.freeCount + 1 := by
    rw [← Nat.cast_succ]
    exact Word.wrap_natCast (by norm_num; omega)
  obtain ⟨tail, htail⟩ : ∃ tail, (b.setNode a .reset).heap t = some tail := by
    by_cases hta : t = a
    · exact ⟨.reset, by simp [hta]⟩
    · obtain ⟨tail, htail⟩ := halive.resolve_left hta
      exact ⟨tail, by simp [hta, htail]⟩
  unfold recycle defaultNodeFreeCount
  simp only [setNode_freeCount, setNode_pTail, gt_iff_lt, if_neg (not_lt.2 hfree), deref, ht, htail]
  refine ⟨_, rfl, rfl, rfl, rfl, hwrap, ?_, fun x hxa hxt => by simp [hxa, hxt]⟩
  by_cases hta : a = t
  · exact ⟨_, by simp [hta]; rfl⟩
  · exact ⟨.reset, by simp [hta]⟩

/-- Going behind a deleted node is a fault. -/
theorem recycle_fault {t : ℕ} (nd : ListNode) (hfree : b.freeCount ≤ 5) (ht : b.pTail = some t)
    (hta : t ≠ a) (hdead : b.heap t = none) :
    b.recycle a nd = .error (.deletedDeref t) := by
  have hdead' : (b.setNode a .reset).heap t = none := by simp [hta, hdead]
  unfold recycle defaultNodeFreeCount
  simp only [setNode_freeCount, setNode_pTail, gt_iff_lt, if_neg (not_lt.2 hfree), deref, ht,
    hdead']

end MemoryBuff
end NetService
