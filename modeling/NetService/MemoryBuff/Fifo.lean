import NetService.MemoryBuff.Steps

/-!
# How far `memoryBuff` is a FIFO

The constructor makes `len` nodes, but as it never moves `_pTail` the list has at most two of them:
node 0, and behind it the last one made.  When the second is full `_pWrite` becomes null, because
`AdjustWriteSize` moves it on before `GetWriteBuff` could grow the list; so a buffer takes at most
`capacity len` bytes in its life, and after these have been read `_pRead` is null as well.  With
eight nodes there is one more trap: if the first node is emptied before the second is full it is
deleted, and emptying the second follows `_pTail` to the deleted node.

`Shape` lists the states a buffer goes through; `write_advances` and `read_advances` are the steps,
with the condition `InReach` on what has been written and read before; `lossless_iff` says that a run
is lossless exactly if every step of it is in reach.
-/

namespace NetService
namespace MemoryBuff

/-! ### Runs -/

/-- Clients of a buffer made with `len` nodes. -/
def system (len : ℕ) : LTS Client Op where
  init c := c = Client.new len
  step c op c' := ∃ granted, c.step op = .ok granted c'

/-- A writer is granted something, and a reader who is granted nothing has consumed everything. -/
def Grants (c : Client) (granted : ℕ) : Op → Prop
  | .write _ => 1 ≤ granted
  | .read _ => granted = 0 → c.consumed = c.stored

/-- A step that goes as it should: it does not fault, it is granted what it should be, and what has
been consumed is what was stored first. -/
def Served (c : Client) (op : Op) : Prop :=
  ∃ granted c', c.step op = .ok granted c' ∧ c'.consumed <+: c'.stored ∧ Grants c granted op

/-- No step of the run from `c` asks for more than it is granted. -/
def Admissible (len : ℕ) (c : Client) (ops : List Op) : Prop :=
  ∀ pre op post, ops = pre ++ op :: post →
    ∀ c', (system len).Run c pre c' → c'.step op ≠ .refused

/-- Every step of the run from `c` is served. -/
def Lossless (len : ℕ) (c : Client) (ops : List Op) : Prop :=
  ∀ pre op post, ops = pre ++ op :: post →
    ∀ c', (system len).Run c pre c' → Served c' op

/-! ### What a buffer can do in its life -/

/-- The bytes a buffer with `len` nodes takes in all. -/
def capacity (len : ℕ) : ℕ := listNodeDataSize * min len 2

/-- The bytes written and read, and whether the first node has been emptied before the second was
full. -/
structure Progress where
  stored : ℕ
  consumed : ℕ
  early : Bool

/-- The progress a step makes. -/
def Progress.step (p : Progress) : Op → Progress
  | .write bs => { p with stored := p.stored + bs.length }
  | .read k =>
      { p with
        consumed := p.consumed + k
        early := p.early || (decide (p.consumed < 4096) && decide (4096 ≤ p.consumed + k) &&
          decide (p.stored < 8192)) }

/-- The progress of a run. -/
def progress (ops : List Op) : Progress := ops.foldl Progress.step ⟨0, 0, false⟩

/-- The steps a buffer with `len` nodes can still make. -/
def InReach (len : ℕ) (p : Progress) : Op → Prop
  | .write _ => p.stored < capacity len
  | .read k => p.consumed < capacity len ∧
      ¬ (len = 8 ∧ p.early = true ∧ p.consumed + k = capacity len)

instance (len : ℕ) (p : Progress) : (op : Op) → Decidable (InReach len p op)
  | .write _ => inferInstanceAs (Decidable (_ < _))
  | .read _ => inferInstanceAs (Decidable (_ ∧ ¬ (_ ∧ _ ∧ _)))

/-! ### The constructor -/

/-- What the constructor has made after `len` rounds. -/
structure Built (b : MemoryBuff) (len free : ℕ) : Prop where
  fresh : b.fresh = len
  pTail : b.pTail = some 0
  pRead : b.pRead = some 0
  pWrite : b.pWrite = some 0
  freeCount : b.freeCount = free
  first : b.heap 0 =
    some { ListNode.reset with next := if len = 1 then none else some (len - 1) }
  others : ∀ a, 0 < a → a < len → b.heap a = some .reset

theorem addNode_built {b : MemoryBuff} {len free : ℕ} (hlen : 0 < len) (h : b.Built len free) :
    b.addNode.Built (len + 1) free := by
  have hmade : (b.setNode b.fresh .reset).heap 0 =
      some { ListNode.reset with next := if len = 1 then none else some (len - 1) } := by
    simp [h.fresh, hlen.ne, h.first]
  unfold addNode
  simp only [h.pTail, hmade]
  refine ⟨by simp [setNode, h.fresh], h.pTail, h.pRead, h.pWrite, h.freeCount, ?_, ?_⟩
  · simp [setNode, h.fresh, hlen.ne']
  · intro a ha hlt
    by_cases hlast : a = len
    · simp [setNode, h.fresh, hlast, hlen.ne']
    · simp [setNode, h.fresh, ha.ne', hlast, h.others a ha (by omega)]

theorem new_built {len : ℕ} (hlen : 1 ≤ len) (hbyte : len < 256) :
    (new len).Built len (len - 1) := by
  have hfree : Word.wrap 16 ((len : ℤ) - 1) = len - 1 := by
    rw [← Nat.cast_one, ← Nat.cast_sub hlen]
    exact Word.wrap_natCast (by norm_num; omega)
  unfold new
  rw [hfree]
  generalize len - 1 = free
  clear hfree hbyte
  induction len, hlen using Nat.le_induction with
  | base =>
    refine ⟨rfl, rfl, rfl, rfl, rfl, rfl, fun a ha hlt => by omega⟩
  | succ len hlen ih =>
    rw [Function.iterate_succ_apply']
    exact addNode_built hlen ih

/-- A node as `ResetNode` leaves it, with its successor set. -/
theorem reset_holds (next : Option ℕ) :
    ListNode.Holds { ListNode.reset with next := next } [] 0 next :=
  ⟨rfl, rfl, rfl, rfl, rfl⟩

/-! ### The shapes of a buffer -/

/-- The free nodes, and whether the first node is alive, once it has been emptied: kept below eight
nodes, deleted from eight on. -/
def SpareEarly (len : ℕ) (b : MemoryBuff) (early : Bool) : Prop :=
  (len = 1 ∧ b.freeCount = 0) ∨
  (2 ≤ len ∧ len ≤ 7 ∧ b.freeCount = len - 1 ∧ ∃ nd, b.heap 0 = some nd) ∨
  (8 ≤ len ∧ b.freeCount = len - 2 ∧ b.heap 0 = none ∧ early = true)

/-- The same once the last node is full as well: recycling it works, or it is the trap. -/
def SpareFull (len : ℕ) (b : MemoryBuff) (early : Bool) : Prop :=
  (¬ (len = 8 ∧ early = true) ∧
    (5 < b.freeCount ∨ b.freeCount ≤ 5 ∧ ∃ nd, b.heap 0 = some nd)) ∨
  (len = 8 ∧ early = true ∧ b.freeCount ≤ 5 ∧ b.heap 0 = none)

/-- The states a buffer with `len` nodes goes through. -/
inductive Shape (len : ℕ) (c : Client) (early : Bool) : Prop
  /-- two nodes, everything in the first -/
  | first (htwo : 2 ≤ len) (hstored : c.stored.length < 4096) (hearly : early = false)
      (hw : c.buff.pWrite = some 0) (hr : c.buff.pRead = some 0) (ht : c.buff.pTail = some 0)
      (hfirst : c.buff.Holds 0 c.stored c.consumed.length (some (len - 1)))
      (hlast : c.buff.Holds (len - 1) [] 0 none) (hfree : c.buff.freeCount = len - 1)
  /-- writing in the last node, reading in the first -/
  | both (htwo : 2 ≤ len) (hlow : 4096 ≤ c.stored.length) (hhigh : c.stored.length < 8192)
      (hconsumed : c.consumed.length < 4096) (hearly : early = false)
      (hw : c.buff.pWrite = some (len - 1)) (hr : c.buff.pRead = some 0)
      (ht : c.buff.pTail = some 0)
      (hfirst : c.buff.Holds 0 (c.stored.take 4096) c.consumed.length (some (len - 1)))
      (hlast : c.buff.Holds (len - 1) (c.stored.drop 4096) 0 none)
      (hfree : c.buff.freeCount = len - 2)
  /-- nowhere to write, reading in the first node -/
  | firstFull (htwo : 2 ≤ len) (hstored : c.stored.length = 8192)
      (hconsumed : c.consumed.length < 4096) (hearly : early = false)
      (hw : c.buff.pWrite = none) (hr : c.buff.pRead = some 0) (ht : c.buff.pTail = some 0)
      (hfirst : c.buff.Holds 0 (c.stored.take 4096) c.consumed.length (some (len - 1)))
      (hlast : c.buff.Holds (len - 1) (c.stored.drop 4096) 0 none)
      (hfree : c.buff.freeCount = Word.wrap 16 ((len : ℤ) - 3))
  /-- writing and reading in the last node -/
  | last (hstored : c.stored.length < capacity len)
      (hlow : capacity len ≤ c.consumed.length + 4096)
      (hw : c.buff.pWrite = some (len - 1)) (hr : c.buff.pRead = some (len - 1))
      (ht : c.buff.pTail = some 0)
      (hlast : c.buff.Holds (len - 1) (c.stored.drop (capacity len - 4096))
        (c.consumed.length - (capacity len - 4096)) none)
      (hspare : SpareEarly len c.buff early)
  /-- nowhere to write, reading in the last node -/
  | lastFull (hstored : c.stored.length = capacity len)
      (hlow : capacity len ≤ c.consumed.length + 4096) (hhigh : c.consumed.length < capacity len)
      (hw : c.buff.pWrite = none) (hr : c.buff.pRead = some (len - 1))
      (ht : c.buff.pTail = some 0)
      (hlast : c.buff.Holds (len - 1) (c.stored.drop (capacity len - 4096))
        (c.consumed.length - (capacity len - 4096)) none)
      (hspare : SpareFull len c.buff early)
  /-- nowhere to write, nowhere to read -/
  | used (hstored : c.stored.length = capacity len) (hconsumed : c.consumed.length = capacity len)
      (hw : c.buff.pWrite = none) (hr : c.buff.pRead = none)

/-- The invariant of a client's run. -/
structure Inv (len : ℕ) (c : Client) (p : Progress) : Prop where
  stored : p.stored = c.stored.length
  consumed : p.consumed = c.consumed.length
  fifo : c.consumed <+: c.stored
  shape : Shape len c p.early

theorem capacity_one : capacity 1 = 4096 := rfl

theorem capacity_two {len : ℕ} (h : 2 ≤ len) : capacity len = 8192 := by
  unfold capacity listNodeDataSize
  rw [min_eq_right h]

theorem capacity_ge {len : ℕ} (h : 1 ≤ len) : 4096 ≤ capacity len := by
  unfold capacity listNodeDataSize
  omega

/-- Steps in the last node leave the first one and the count alone. -/
theorem SpareEarly.congr {len : ℕ} {b b' : MemoryBuff} {early early' : Bool}
    (h : SpareEarly len b early) (hfree : b'.freeCount = b.freeCount)
    (hheap : 2 ≤ len → b'.heap 0 = b.heap 0) (hearly : early = true → early' = true) :
    SpareEarly len b' early' := by
  rcases h with ⟨hone, h⟩ | ⟨htwo, hseven, h, halive⟩ | ⟨height, h, hdead, he⟩
  · exact .inl ⟨hone, hfree.trans h⟩
  · exact .inr (.inl ⟨htwo, hseven, hfree.trans h, by rwa [hheap htwo]⟩)
  · exact .inr (.inr ⟨height, hfree.trans h, by rwa [hheap (by omega)], hearly he⟩)

theorem SpareFull.congr {len : ℕ} {b b' : MemoryBuff} {early early' : Bool}
    (h : SpareFull len b early) (hfree : b'.freeCount = b.freeCount)
    (hheap : (b.heap 0 = none ↔ b'.heap 0 = none)) (hearly : early' = early) :
    SpareFull len b' early' := by
  have halive : (∃ nd, b.heap 0 = some nd) → ∃ nd, b'.heap 0 = some nd := by
    rintro ⟨nd, hnd⟩
    refine Option.ne_none_iff_exists'.1 fun hnone => ?_
    rw [hheap.2 hnone] at hnd
    cases hnd
  rw [← hearly] at h
  rcases h with ⟨htrap, hlt | ⟨hle, h⟩⟩ | ⟨height, he, hle, hdead⟩
  · exact .inl ⟨htrap, .inl (by omega)⟩
  · exact .inl ⟨htrap, .inr ⟨by omega, halive h⟩⟩
  · exact .inr ⟨height, he, by omega, hheap.1 hdead⟩

/-- Filling the last node takes it out of the count. -/
theorem SpareEarly.fill {len : ℕ} {b b' : MemoryBuff} {early : Bool} (hbyte : len < 256)
    (h : SpareEarly len b early) (hfree : b'.freeCount = Word.wrap 16 ((b.freeCount : ℤ) - 1))
    (hheap : 2 ≤ len → b'.heap 0 = b.heap 0) : SpareFull len b' early := by
  have hcount : ∀ k, b.freeCount = k + 1 → k < 256 → b'.freeCount = k := by
    intro k hk hlt
    have hcast : ((k + 1 : ℕ) : ℤ) - 1 = (k : ℕ) := by omega
    rw [hfree, hk, hcast, Word.wrap_natCast (by norm_num; omega)]
  rcases h with ⟨rfl, h⟩ | ⟨htwo, hseven, h, halive⟩ | ⟨height, h, hdead, he⟩
  · refine .inl ⟨by omega, .inl ?_⟩
    rw [hfree, h]
    decide
  · refine .inl ⟨by omega, .inr ⟨?_, by rwa [hheap htwo]⟩⟩
    rw [hcount (len - 2) (by omega) (by omega)]
    omega
  · have hfree' := hcount (len - 3) (by omega) (by omega)
    by_cases hlen : len = 8
    · exact .inr ⟨hlen, he, by omega, by rwa [hheap (by omega)]⟩
    · exact .inl ⟨fun h => hlen h.1, .inl (by omega)⟩

theorem new_inv {len : ℕ} (hlen : 1 ≤ len) (hbyte : len < 256) :
    Inv len (Client.new len) ⟨0, 0, false⟩ := by
  have hb := new_built hlen hbyte
  refine ⟨rfl, rfl, List.nil_prefix, ?_⟩
  by_cases hone : len = 1
  · subst hone
    exact .last (by decide) (by decide) hb.pWrite hb.pRead hb.pTail
      ⟨_, hb.first, reset_holds none⟩ (.inl ⟨rfl, hb.freeCount⟩)
  · have hfirst := hb.first
    rw [if_neg hone] at hfirst
    exact .first (by omega) (Nat.zero_lt_succ _) rfl hb.pWrite hb.pRead hb.pTail
      ⟨_, hfirst, reset_holds _⟩ ⟨_, hb.others (len - 1) (by omega) (by omega), reset_holds none⟩
      hb.freeCount

/-! ### The steps, shape by shape -/

/-- What a step in reach leads to. -/
def Advances (len : ℕ) (c : Client) (p : Progress) (op : Op) : Prop :=
  Served c op ∧ ∃ granted c', c.step op = .ok granted c' ∧ Inv len c' (p.step op)

theorem Inv.advances {len : ℕ} {c : Client} {p : Progress} {op : Op} {granted : ℕ} {c' : Client}
    (hstep : c.step op = .ok granted c') (h : Inv len c' (p.step op))
    (hgranted : Grants c granted op) : Advances len c p op :=
  ⟨⟨granted, c', hstep, h.fifo, hgranted⟩, granted, c', hstep, h⟩

/-- A step through a null pointer. -/
theorem write_null {c : Client} (bs : List UInt8) (hw : c.buff.pWrite = none) :
    c.step (.write bs) = .fault .nullDeref := by
  unfold Client.step getWriteBuff deref
  simp only [hw]

theorem read_null {c : Client} (k : ℕ) (hr : c.buff.pRead = none) :
    c.step (.read k) = .fault .nullDeref := by
  unfold Client.step getReadBuff deref
  simp only [hr]

section Steps

variable {len : ℕ} {c : Client} {p : Progress}

/-- A write step while there is a node to write in. -/
theorem write_advances {bs : List UInt8} (hinv : Inv len c p) (hlen : 1 ≤ len)
    (hbyte : len < 256) (hreach : InReach len p (.write bs))
    (hadm : c.step (.write bs) ≠ .refused) : Advances len c p (.write bs) := by
  obtain ⟨hstored, hconsumed, hfifo, hshape⟩ := hinv
  have hfifo' : c.consumed <+: c.stored ++ bs := hfifo.trans (List.prefix_append _ _)
  have hle := hfifo.length_le
  have hcap := capacity_ge hlen
  have hstored' : p.stored + bs.length = (c.stored ++ bs).length := by
    rw [List.length_append, hstored]
  have hlen' : (c.stored ++ bs).length = c.stored.length + bs.length := List.length_append
  unfold InReach at hreach
  rw [hstored] at hreach
  -- one case for each shape: the node written in, and whether this step fills it
  cases hshape with
  | first htwo hlt hearly hw hr ht hfirst hlast hfree =>
    obtain ⟨hpos, hroom⟩ := write_le hw hfirst hlt hadm
    obtain ⟨b', hstep, hholds, hother, hr', ht', hw', hfree'⟩ := write_spec hw hfirst hpos hroom
    have hlast' : b'.Holds (len - 1) [] 0 none := hlast.congr (hother _ (by omega))
    refine Inv.advances hstep ⟨hstored', hconsumed, hfifo', ?_⟩ (show 1 ≤ 4096 - _ by omega)
    by_cases hfull : c.stored.length + bs.length = 4096
    · rw [if_pos hfull] at hw' hfree'
      refine .both htwo (show 4096 ≤ (c.stored ++ bs).length by omega)
        (show (c.stored ++ bs).length < 8192 by omega) (show c.consumed.length < 4096 by omega)
        hearly hw' (hr'.trans hr) (ht'.trans ht) ?_ ?_ ?_
      · rw [List.take_of_length_le (show (c.stored ++ bs).length ≤ 4096 by omega)]
        exact hholds
      · rw [List.drop_of_length_le (show (c.stored ++ bs).length ≤ 4096 by omega)]
        exact hlast'
      · have hcast : ((len - 1 : ℕ) : ℤ) - 1 = ((len - 2 : ℕ) : ℤ) := by omega
        rw [hfree', hfree, hcast, Word.wrap_natCast (by norm_num; omega)]
    · rw [if_neg hfull] at hw' hfree'
      exact .first htwo (show (c.stored ++ bs).length < 4096 by omega) hearly hw' (hr'.trans hr)
        (ht'.trans ht) hholds hlast' (hfree'.trans hfree)
  | both htwo hlow hhigh hcons hearly hw hr ht hfirst hlast hfree =>
    have hdrop : (c.stored.drop 4096).length = c.stored.length - 4096 := List.length_drop
    obtain ⟨hpos, hroom⟩ := write_le hw hlast (by omega) hadm
    obtain ⟨b', hstep, hholds, hother, hr', ht', hw', hfree'⟩ := write_spec hw hlast hpos hroom
    have hfirst' : b'.Holds 0 ((c.stored ++ bs).take 4096) c.consumed.length (some (len - 1)) := by
      rw [List.take_append_of_le_length hlow]
      exact hfirst.congr (hother _ (by omega))
    rw [← List.drop_append_of_le_length hlow] at hholds
    refine Inv.advances hstep ⟨hstored', hconsumed, hfifo', ?_⟩ (show 1 ≤ 4096 - _ by omega)
    by_cases hfull : (c.stored.drop 4096).length + bs.length = 4096
    · rw [if_pos hfull] at hw' hfree'
      refine .firstFull htwo (show (c.stored ++ bs).length = 8192 by omega) hcons hearly hw'
        (hr'.trans hr) (ht'.trans ht) hfirst' hholds ?_
      have hcast : ((len - 2 : ℕ) : ℤ) - 1 = (len : ℤ) - 3 := by omega
      rw [hfree', hfree, hcast]
    · rw [if_neg hfull] at hw' hfree'
      exact .both htwo (show 4096 ≤ (c.stored ++ bs).length by omega)
        (show (c.stored ++ bs).length < 8192 by omega) hcons hearly hw' (hr'.trans hr)
        (ht'.trans ht) hfirst' hholds (hfree'.trans hfree)
  | firstFull htwo hfull =>
    rw [capacity_two htwo] at hreach
    omega
  | last hlt hlow hw hr ht hlast hspare =>
    have hdrop : (c.stored.drop (capacity len - 4096)).length =
        c.stored.length - (capacity len - 4096) := List.length_drop
    obtain ⟨hpos, hroom⟩ := write_le hw hlast (by omega) hadm
    obtain ⟨b', hstep, hholds, hother, hr', ht', hw', hfree'⟩ := write_spec hw hlast hpos hroom
    rw [← List.drop_append_of_le_length (by omega)] at hholds
    refine Inv.advances hstep ⟨hstored', hconsumed, hfifo', ?_⟩ (show 1 ≤ 4096 - _ by omega)
    by_cases hfull : (c.stored.drop (capacity len - 4096)).length + bs.length = 4096
    · rw [if_pos hfull] at hw' hfree'
      exact .lastFull (show (c.stored ++ bs).length = capacity len by omega) hlow
        (show c.consumed.length < capacity len by omega) hw' (hr'.trans hr) (ht'.trans ht) hholds
        (hspare.fill hbyte hfree' fun h => hother 0 (by omega))
    · rw [if_neg hfull] at hw' hfree'
      exact .last (show (c.stored ++ bs).length < capacity len by omega) hlow hw' (hr'.trans hr)
        (ht'.trans ht) hholds (hspare.congr hfree' (fun h => hother 0 (by omega)) id)
  | lastFull hfull => omega
  | used hfull => omega

/-- `early` changes only in the step that empties the first node before the second is full. -/
theorem step_early {k : ℕ}
    (h : ¬ (p.consumed < 4096 ∧ 4096 ≤ p.consumed + k ∧ p.stored < 8192)) :
    (p.step (.read k)).early = p.early := by
  unfold Progress.step
  simp only [Bool.or_eq_left_iff_imp, Bool.and_eq_true, decide_eq_true_eq]
  exact fun hall => absurd ⟨hall.1.1, hall.1.2, hall.2⟩ h

theorem step_early_eq_true {k : ℕ}
    (h : p.early = true ∨ p.consumed < 4096 ∧ 4096 ≤ p.consumed + k ∧ p.stored < 8192) :
    (p.step (.read k)).early = true := by
  unfold Progress.step
  simp only [Bool.or_eq_true, Bool.and_eq_true, decide_eq_true_eq]
  exact h.imp_right fun hall => ⟨⟨hall.1, hall.2.1⟩, hall.2.2⟩

theorem length_consumed {r k : ℕ} {bytes : List UInt8} (hk : r + k ≤ bytes.length) :
    (c.consumed ++ (bytes.drop r).take k).length = c.consumed.length + k := by
  rw [List.length_append, List.length_take, List.length_drop]
  omega

/-- The step that empties the first node: it is deleted, or it stays as its own successor. -/
theorem empty_first {k r : ℕ} {bytes : List UInt8} {next : Option ℕ}
    (hr : c.buff.pRead = some 0) (ht : c.buff.pTail = some 0)
    (hfirst : c.buff.Holds 0 bytes r next) (hfull : bytes.length = 4096) (hlt : r < 4096)
    (hk : r + k = 4096) :
    ∃ b', c.step (.read k) = .ok k ⟨b', c.stored, c.consumed ++ (bytes.drop r).take k⟩ ∧
      b'.pRead = next ∧ b'.pWrite = c.buff.pWrite ∧ b'.pTail = some 0 ∧
      (∀ x, x ≠ 0 → b'.heap x = c.buff.heap x) ∧
      (5 < c.buff.freeCount ∧ b'.freeCount = c.buff.freeCount ∧ b'.heap 0 = none ∨
        c.buff.freeCount ≤ 5 ∧ b'.freeCount = c.buff.freeCount + 1 ∧
          ∃ nd, b'.heap 0 = some nd) := by
  obtain ⟨nd, hnext, hstep⟩ := read_full hr hfirst hfull hlt hk
  by_cases hfree : 5 < c.buff.freeCount
  · obtain ⟨b', hrec, hr', hw', ht', hfree', hdead, hother⟩ :=
      recycle_delete (b := c.buff.setNode 0 nd) (a := 0) nd hfree
    rw [hrec] at hstep
    refine ⟨b', hstep, hr'.trans hnext, hw', ht'.trans ht, fun x hx => ?_,
      .inl ⟨hfree, hfree', hdead⟩⟩
    rw [hother x hx, setNode_heap, Function.update_of_ne hx]
  · obtain ⟨b', hrec, hr', hw', ht', hfree', halive, hother⟩ :=
      recycle_keep (b := c.buff.setNode 0 nd) (a := 0) (t := 0) nd (not_lt.1 hfree) ht (.inl rfl)
    rw [hrec] at hstep
    refine ⟨b', hstep, hr'.trans hnext, hw', ht', fun x hx => ?_,
      .inr ⟨not_lt.1 hfree, hfree', halive⟩⟩
    rw [hother x hx hx, setNode_heap, Function.update_of_ne hx]

/-- Recycling the last node, outside the trap. -/
theorem empty_last {b : MemoryBuff} {early : Bool} (nd : ListNode) (ht : b.pTail = some 0)
    (htrap : ¬ (len = 8 ∧ early = true)) (hspare : SpareFull len b early) :
    ∃ b', (b.setNode (len - 1) nd).recycle (len - 1) nd = .ok b' ∧ b'.pRead = nd.next ∧
      b'.pWrite = b.pWrite := by
  rcases hspare with ⟨-, hgt | ⟨hle, halive⟩⟩ | ⟨height, he, -⟩
  · obtain ⟨b', hrec, hr', hw', -⟩ :=
      recycle_delete (b := b.setNode (len - 1) nd) (a := len - 1) nd hgt
    exact ⟨b', hrec, hr', hw'⟩
  · have halive' : 0 = len - 1 ∨ ∃ tail, (b.setNode (len - 1) nd).heap 0 = some tail := by
      by_cases hone : 0 = len - 1
      · exact .inl hone
      · exact .inr (by simpa [hone] using halive)
    obtain ⟨b', hrec, hr', hw', -⟩ :=
      recycle_keep (b := b.setNode (len - 1) nd) (a := len - 1) (t := 0) nd hle ht halive'
    exact ⟨b', hrec, hr', hw'⟩
  · exact absurd ⟨height, he⟩ htrap

/-- The bytes of the last node that have not been read. -/
theorem drop_base {n cap : ℕ} {l : List UInt8} (h : cap ≤ n + 4096) :
    (l.drop (cap - 4096)).drop (n - (cap - 4096)) <+: l.drop n := by
  rw [List.drop_drop, Nat.add_sub_cancel' (by omega)]

/-- What a read step hands out of a node is what is next in the stream. -/
theorem Inv.read {k r n : ℕ} {bytes : List UInt8} {b' : MemoryBuff} (hinv : Inv len c p)
    (hbytes : bytes.drop r <+: c.stored.drop c.consumed.length) (hk : r + k ≤ bytes.length)
    (hshape : Shape len ⟨b', c.stored, c.consumed ++ (bytes.drop r).take k⟩
      (p.step (.read k)).early)
    (hstep : c.step (.read k) = .ok n ⟨b', c.stored, c.consumed ++ (bytes.drop r).take k⟩)
    (hgrants : n = 0 → c.consumed.length = c.stored.length) : Advances len c p (.read k) := by
  have hlen : ((bytes.drop r).take k).length = k := by
    rw [List.length_take, List.length_drop]
    omega
  refine Inv.advances hstep ⟨hinv.stored, ?_, ?_, hshape⟩ fun hn => ?_
  · rw [List.length_append, hlen, ← hinv.consumed]
    rfl
  · exact Stream.append_prefix hinv.fifo ((List.take_prefix _ _).trans hbytes)
  · exact hinv.fifo.eq_of_length (hgrants hn)

/-- A read step in the first node while the other is being written; it may empty it. -/
theorem read_both {k : ℕ} (hinv : Inv len c p) (hadm : c.step (.read k) ≠ .refused)
    (htwo : 2 ≤ len) (hlow : 4096 ≤ c.stored.length) (hhigh : c.stored.length < 8192)
    (hcons : c.consumed.length < 4096) (hearly : p.early = false)
    (hw : c.buff.pWrite = some (len - 1)) (hr : c.buff.pRead = some 0) (ht : c.buff.pTail = some 0)
    (hfirst : c.buff.Holds 0 (c.stored.take 4096) c.consumed.length (some (len - 1)))
    (hlast : c.buff.Holds (len - 1) (c.stored.drop 4096) 0 none)
    (hfree : c.buff.freeCount = len - 2) : Advances len c p (.read k) := by
  have hstored := hinv.stored
  have hconsumed := hinv.consumed
  have hle := hinv.fifo.length_le
  have htake : (c.stored.take 4096).length = 4096 := by rw [List.length_take]; omega
  have hk := read_le hr hfirst (by omega) hadm
  have hlen' := length_consumed (c := c) hk
  have hbytes : (c.stored.take 4096).drop c.consumed.length <+: c.stored.drop c.consumed.length :=
    (List.take_prefix _ _).drop _
  have htwo' := capacity_two htwo
  -- the step that empties the first node deletes it or puts it behind the last, by `_freeCount`
  by_cases hmore : c.consumed.length + k < 4096
  · obtain ⟨b', hstep, hholds, hother, hr', ht', hw', hfree'⟩ :=
      read_spec hr hfirst htake.le hk hmore
    refine hinv.read hbytes hk ?_ hstep (by omega)
    exact .both htwo hlow hhigh (by rw [hlen']; exact hmore)
      ((step_early (by omega)).trans hearly) (hw'.trans hw) (hr'.trans hr) (ht'.trans ht)
      (by simp only [hlen']; exact hholds) (hlast.congr (hother _ (by omega)))
      (hfree'.trans hfree)
  · obtain ⟨b', hstep, hr', hw', ht', hother, hcount⟩ :=
      empty_first (k := k) hr ht hfirst htake hcons (by omega)
    refine hinv.read hbytes hk ?_ hstep (by omega)
    refine .last (by rw [htwo']; exact hhigh) (by rw [hlen', htwo']; omega) (hw'.trans hw) hr' ht'
      ?_ ?_
    · simp only [hlen', htwo', show c.consumed.length + k - (8192 - 4096) = 0 by omega]
      exact hlast.congr (hother (len - 1) (by omega))
    · have hearly' : (p.step (.read k)).early = true := step_early_eq_true (.inr (by omega))
      rcases hcount with ⟨hgt, hfree', hdead⟩ | ⟨hle', hfree', halive⟩
      · exact .inr (.inr ⟨by omega, hfree'.trans hfree, hdead, hearly'⟩)
      · exact .inr (.inl ⟨htwo, by omega, show b'.freeCount = len - 1 by omega, halive⟩)

/-- The same when the other node is full. -/
theorem read_firstFull {k : ℕ} (hinv : Inv len c p) (hadm : c.step (.read k) ≠ .refused)
    (htwo : 2 ≤ len) (hfull : c.stored.length = 8192) (hcons : c.consumed.length < 4096)
    (hearly : p.early = false) (hw : c.buff.pWrite = none) (hr : c.buff.pRead = some 0)
    (ht : c.buff.pTail = some 0)
    (hfirst : c.buff.Holds 0 (c.stored.take 4096) c.consumed.length (some (len - 1)))
    (hlast : c.buff.Holds (len - 1) (c.stored.drop 4096) 0 none)
    (hfree : c.buff.freeCount = Word.wrap 16 ((len : ℤ) - 3)) : Advances len c p (.read k) := by
  have hstored := hinv.stored
  have hconsumed := hinv.consumed
  have hle := hinv.fifo.length_le
  have htake : (c.stored.take 4096).length = 4096 := by rw [List.length_take]; omega
  have hk := read_le hr hfirst (by omega) hadm
  have hlen' := length_consumed (c := c) hk
  have hbytes : (c.stored.take 4096).drop c.consumed.length <+: c.stored.drop c.consumed.length :=
    (List.take_prefix _ _).drop _
  have htwo' := capacity_two htwo
  have hsame : (p.step (.read k)).early = false := (step_early (by omega)).trans hearly
  -- as in `read_both`, but `_freeCount` was decremented once more and may have wrapped
  by_cases hmore : c.consumed.length + k < 4096
  · obtain ⟨b', hstep, hholds, hother, hr', ht', hw', hfree'⟩ :=
      read_spec hr hfirst htake.le hk hmore
    refine hinv.read hbytes hk ?_ hstep (by omega)
    exact .firstFull htwo hfull (by rw [hlen']; exact hmore) hsame (hw'.trans hw) (hr'.trans hr)
      (ht'.trans ht) (by simp only [hlen']; exact hholds) (hlast.congr (hother _ (by omega)))
      (hfree'.trans hfree)
  · obtain ⟨b', hstep, hr', hw', ht', hother, hcount⟩ :=
      empty_first (k := k) hr ht hfirst htake hcons (by omega)
    refine hinv.read hbytes hk ?_ hstep (by omega)
    refine .lastFull (by rw [htwo']; exact hfull) (by rw [hlen', htwo']; omega)
      (by rw [hlen', htwo']; omega) (hw'.trans hw) hr' ht' ?_ (.inl ⟨by simp [hsame], ?_⟩)
    · simp only [hlen', htwo', show c.consumed.length + k - (8192 - 4096) = 0 by omega]
      exact hlast.congr (hother (len - 1) (by omega))
    · rcases hcount with ⟨hgt, hfree', -⟩ | ⟨hle', hfree', halive⟩
      · exact .inl (show 5 < b'.freeCount by omega)
      · by_cases hsix : 5 < b'.freeCount
        · exact .inl hsix
        · exact .inr ⟨not_lt.1 hsix, halive⟩

/-- A read step in the last node when it is full; it may use up the buffer. -/
theorem read_lastFull {k : ℕ} (hinv : Inv len c p) (hlen : 1 ≤ len)
    (hreach : InReach len p (.read k)) (hadm : c.step (.read k) ≠ .refused)
    (hfull : c.stored.length = capacity len) (hlow : capacity len ≤ c.consumed.length + 4096)
    (hhigh : c.consumed.length < capacity len) (hw : c.buff.pWrite = none)
    (hr : c.buff.pRead = some (len - 1)) (ht : c.buff.pTail = some 0)
    (hlast : c.buff.Holds (len - 1) (c.stored.drop (capacity len - 4096))
      (c.consumed.length - (capacity len - 4096)) none)
    (hspare : SpareFull len c.buff p.early) : Advances len c p (.read k) := by
  have hstored := hinv.stored
  have hconsumed := hinv.consumed
  have hle := hinv.fifo.length_le
  have hcap := capacity_ge hlen
  have hdrop : (c.stored.drop (capacity len - 4096)).length =
      c.stored.length - (capacity len - 4096) := List.length_drop
  have hk := read_le hr hlast (by omega) hadm
  have hlen' := length_consumed (c := c) hk
  -- the step stays in the node, or uses it up and moves on to no node at all
  by_cases hmore : c.consumed.length - (capacity len - 4096) + k < 4096
  · obtain ⟨b', hstep, hholds, hother, hr', ht', hw', hfree'⟩ :=
      read_spec hr hlast (by omega) hk hmore
    refine hinv.read (drop_base hlow) hk ?_ hstep (by omega)
    refine .lastFull hfull (by rw [hlen']; omega) (by rw [hlen']; omega) (hw'.trans hw)
      (hr'.trans hr) (ht'.trans ht) ?_ (hspare.congr hfree' ?_ (step_early ?_))
    · simp only [hlen']
      rw [Nat.sub_add_comm (by omega)]
      exact hholds
    · -- the first node is alive if it is this one, and is left alone otherwise
      by_cases hone : len = 1
      · obtain ⟨nd, hnd, -⟩ := hlast
        obtain ⟨nd', hnd', -⟩ := hholds
        rw [show len - 1 = 0 by omega] at hnd hnd'
        show c.buff.heap 0 = none ↔ b'.heap 0 = none
        rw [hnd, hnd']
        simp
      · rw [hother 0 (by omega)]
    · by_cases hone : len = 1
      · subst hone
        rw [capacity_one] at hmore hhigh
        omega
      · rw [capacity_two (by omega)] at hfull
        omega
  · obtain ⟨nd, hnext, hstep⟩ := read_full (k := k) hr hlast (by omega) (by omega) (by omega)
    have htrap : ¬ (len = 8 ∧ p.early = true) := fun h => hreach.2 ⟨h.1, h.2, by omega⟩
    obtain ⟨b', hrec, hr', hw'⟩ := empty_last nd ht htrap hspare
    rw [hrec] at hstep
    refine hinv.read (drop_base hlow) hk ?_ hstep (by omega)
    exact .used hfull (by rw [hlen']; omega) (hw'.trans hw) (hr'.trans hnext)

/-- A read step while there is a node to read from, outside the trap. -/
theorem read_advances {k : ℕ} (hinv : Inv len c p) (hlen : 1 ≤ len)
    (hreach : InReach len p (.read k)) (hadm : c.step (.read k) ≠ .refused) :
    Advances len c p (.read k) := by
  have hinv' := hinv
  obtain ⟨hstored, hconsumed, hfifo, hshape⟩ := hinv
  have hle := hfifo.length_le
  have hcap := capacity_ge hlen
  -- one case for each shape; `read_both` to `read_lastFull` are those where the node may be emptied
  cases hshape with
  | first htwo hlt hearly hw hr ht hfirst hlast hfree =>
    have hk := read_le hr hfirst hle hadm
    obtain ⟨b', hstep, hholds, hother, hr', ht', hw', hfree'⟩ :=
      read_spec hr hfirst hlt.le hk (by omega)
    refine hinv'.read (List.prefix_refl _) hk ?_ hstep (by omega)
    have hlen' := length_consumed (c := c) hk
    exact .first htwo hlt ((step_early (by omega)).trans hearly) (hw'.trans hw) (hr'.trans hr)
      (ht'.trans ht) (by simp only [hlen']; exact hholds) (hlast.congr (hother _ (by omega)))
      (hfree'.trans hfree)
  | both htwo hlow hhigh hcons hearly hw hr ht hfirst hlast hfree =>
    exact read_both hinv' hadm htwo hlow hhigh hcons hearly hw hr ht hfirst hlast hfree
  | firstFull htwo hfull hcons hearly hw hr ht hfirst hlast hfree =>
    exact read_firstFull hinv' hadm htwo hfull hcons hearly hw hr ht hfirst hlast hfree
  | last hlt hlow hw hr ht hlast hspare =>
    have hdrop : (c.stored.drop (capacity len - 4096)).length =
        c.stored.length - (capacity len - 4096) := List.length_drop
    have hk := read_le hr hlast (by omega) hadm
    have hlen' := length_consumed (c := c) hk
    obtain ⟨b', hstep, hholds, hother, hr', ht', hw', hfree'⟩ :=
      read_spec hr hlast (by omega) hk (by omega)
    refine hinv'.read (drop_base hlow) hk ?_ hstep (by omega)
    refine .last hlt (by rw [hlen']; omega) (hw'.trans hw) (hr'.trans hr) (ht'.trans ht) ?_
      (hspare.congr hfree' (fun h => hother 0 (by omega)) fun he => step_early_eq_true (.inl he))
    simp only [hlen']
    rw [Nat.sub_add_comm (by omega)]
    exact hholds
  | lastFull hfull hlow hhigh hw hr ht hlast hspare =>
    exact read_lastFull hinv' hlen hreach hadm hfull hlow hhigh hw hr ht hlast hspare
  | used _ hused =>
    have hlow := hreach.1
    omega

/-- A step out of reach faults. -/
theorem faults_of_not_inReach {op : Op} (hinv : Inv len c p) (hlen : 1 ≤ len)
    (hreach : ¬ InReach len p op) (hadm : c.step op ≠ .refused) : ∃ e, c.step op = .fault e := by
  obtain ⟨hstored, hconsumed, hfifo, hshape⟩ := hinv
  have hle := hfifo.length_le
  have hcap := capacity_ge hlen
  cases op with
  | write bs =>
    have hfull : capacity len ≤ c.stored.length := by
      rw [← hstored]
      exact not_lt.1 hreach
    cases hshape with
    | first | last => omega
    | both htwo _ hhigh =>
      rw [capacity_two htwo] at hfull
      omega
    | firstFull _ _ _ _ hw | lastFull _ _ _ hw | used _ _ hw => exact ⟨_, write_null bs hw⟩
  | read k =>
    -- a read is out of reach when all has been consumed, or in the trap with eight nodes
    have hcases : capacity len ≤ c.consumed.length ∨
        len = 8 ∧ p.early = true ∧ c.consumed.length + k = capacity len := by
      rw [← hconsumed]
      by_cases hlt : p.consumed < capacity len
      · exact .inr (not_not.1 fun htrap => hreach ⟨hlt, htrap⟩)
      · exact .inl (not_lt.1 hlt)
    cases hshape with
    | used _ _ _ hr => exact ⟨_, read_null k hr⟩
    | first htwo hlt hearly | both htwo _ _ hlt hearly | firstFull htwo _ hlt hearly =>
      rcases hcases with hge | ⟨-, he, -⟩
      · rw [capacity_two htwo] at hge
        omega
      · rw [hearly] at he
        cases he
    | last hlt hlow hw hr ht hlast hspare =>
      have hdrop : (c.stored.drop (capacity len - 4096)).length =
          c.stored.length - (capacity len - 4096) := List.length_drop
      have hk := read_le hr hlast (by omega) hadm
      omega
    | lastFull hfull hlow hhigh hw hr ht hlast hspare =>
      have hdrop : (c.stored.drop (capacity len - 4096)).length =
          c.stored.length - (capacity len - 4096) := List.length_drop
      obtain ⟨rfl, he, hk⟩ := hcases.resolve_left (by omega)
      rcases hspare with ⟨htrap, -⟩ | ⟨-, -, hfree, hdead⟩
      · exact absurd ⟨rfl, he⟩ htrap
      · -- the trap: `_pTail` still points to the first node, which has been deleted
        obtain ⟨nd, -, hstep⟩ := read_full (k := k) hr hlast (by omega) (by omega) (by omega)
        have hrec := recycle_fault (b := c.buff.setNode (8 - 1) nd) (a := 8 - 1) nd hfree ht
          (by decide) (by simp [hdead])
        rw [hrec] at hstep
        exact ⟨_, hstep⟩

end Steps

/-! ### Whole runs -/

section Runs

variable {len : ℕ} {c c' : Client} {op : Op} {granted : ℕ}

/-- A run that starts with a step that is done. -/
theorem run_cons (h : c.step op = .ok granted c') (ops : List Op) (u : Client) :
    (system len).Run c (op :: ops) u ↔ (system len).Run c' ops u := by
  refine LTS.Run.cons_iff fun v => ⟨?_, ?_⟩
  · rintro ⟨g, hv⟩
    rw [h] at hv
    cases hv
    rfl
  · rintro rfl
    exact ⟨granted, h⟩

/-- Statements about every step of a run, one step on. -/
theorem forall_steps_cons {Q : List Op → Client → Op → Prop} (h : c.step op = .ok granted c')
    (ops : List Op) :
    (∀ pre a post, op :: ops = pre ++ a :: post →
      ∀ u, (system len).Run c pre u → Q pre u a) ↔
    Q [] c op ∧ ∀ pre a post, ops = pre ++ a :: post →
      ∀ u, (system len).Run c' pre u → Q (op :: pre) u a := by
  rw [Stream.forall_split_cons]
  simp only [run_cons h]
  refine and_congr_left fun _ => ⟨fun hQ => hQ c (.nil c), fun hQ u hrun => ?_⟩
  cases hrun
  exact hQ

theorem admissible_cons (h : c.step op = .ok granted c') (ops : List Op) :
    Admissible len c (op :: ops) ↔ Admissible len c' ops := by
  unfold Admissible
  rw [forall_steps_cons (Q := fun _ u a => u.step a ≠ .refused) h]
  exact and_iff_right (by rw [h]; nofun)

theorem lossless_cons (h : c.step op = .ok granted c') (ops : List Op) :
    Lossless len c (op :: ops) ↔ Served c op ∧ Lossless len c' ops :=
  forall_steps_cons (Q := fun _ u a => Served u a) h ops

/-- A step that faults is the end of the run. -/
theorem admissible_of_fault {e : Fault} (h : c.step op = .fault e) : Admissible len c [op] := by
  unfold Admissible
  rw [Stream.forall_split_cons]
  refine ⟨fun u hrun => ?_, fun pre a post heq => by simp at heq⟩
  cases hrun
  rw [h]
  nofun

theorem not_lossless_of_fault {e : Fault} (h : c.step op = .fault e) (ops : List Op) :
    ¬ Lossless len c (op :: ops) := by
  intro hserved
  obtain ⟨granted, c', hstep, -⟩ := hserved [] op ops rfl c (.nil c)
  rw [h] at hstep
  cases hstep

end Runs

/-- A step that is done leads to another state of a run. -/
theorem Inv.step {len : ℕ} {c c' : Client} {p : Progress} {op : Op} {granted : ℕ}
    (hinv : Inv len c p) (hlen : 1 ≤ len) (hbyte : len < 256)
    (hstep : c.step op = .ok granted c') : Inv len c' (p.step op) := by
  have hadm : c.step op ≠ .refused := by
    rw [hstep]
    nofun
  have hreach : InReach len p op := by
    by_contra hreach
    obtain ⟨e, he⟩ := faults_of_not_inReach hinv hlen hreach hadm
    rw [hstep] at he
    cases he
  have hadv : Advances len c p op := by
    cases op with
    | write bs => exact write_advances hinv hlen hbyte hreach hadm
    | read k => exact read_advances hinv hlen hreach hadm
  obtain ⟨-, granted', c'', hstep', hinv'⟩ := hadv
  rw [hstep] at hstep'
  cases hstep'
  exact hinv'

/-- The states of a run, with the progress made. -/
theorem run_inv {len : ℕ} (hlen : 1 ≤ len) (hbyte : len < 256) {ops : List Op} {c c' : Client}
    {p : Progress} (hinv : Inv len c p) (hrun : (system len).Run c ops c') :
    Inv len c' (ops.foldl Progress.step p) := by
  induction hrun generalizing p with
  | nil => exact hinv
  | cons hstep _ ih =>
    obtain ⟨granted, hstep⟩ := hstep
    exact ih (hinv.step hlen hbyte hstep)

/-- From a state of a run: the steps to come are served exactly if they are in reach. -/
theorem lossless_from {len : ℕ} (hlen : 1 ≤ len) (hbyte : len < 256) (ops : List Op)
    {c : Client} {p : Progress} (hinv : Inv len c p) (hadm : Admissible len c ops) :
    Lossless len c ops ↔
      ∀ (pre : List Op) op post, ops = pre ++ op :: post →
        InReach len (pre.foldl Progress.step p) op := by
  induction ops generalizing c p with
  | nil => simp [Lossless]
  | cons op ops ih =>
    have hadm₀ : c.step op ≠ .refused := hadm [] op ops rfl c (.nil c)
    rw [Stream.forall_split_cons]
    by_cases hreach : InReach len p op
    · have hadv : Advances len c p op := by
        cases op with
        | write bs => exact write_advances hinv hlen hbyte hreach hadm₀
        | read k => exact read_advances hinv hlen hreach hadm₀
      obtain ⟨hserved, granted, c', hstep, hinv'⟩ := hadv
      rw [admissible_cons hstep] at hadm
      rw [lossless_cons hstep, ih hinv' hadm]
      exact and_congr_left fun _ => iff_of_true hserved hreach
    · obtain ⟨e, he⟩ := faults_of_not_inReach hinv hlen hreach hadm₀
      exact iff_of_false (not_lossless_of_fault he ops) fun h => hreach h.1

/-- A client's run, of any length and in any order of steps, is lossless if and only if every step
of it is in reach: a write step while less than `capacity len` bytes have been written, a read step
while less than that have been consumed, and with eight nodes not the one that would empty the last
node after the first was emptied before the last was full. -/
theorem lossless_iff {len : ℕ} (hlen : 1 ≤ len) (hbyte : len < 256) (ops : List Op)
    (hadm : Admissible len (Client.new len) ops) :
    Lossless len (Client.new len) ops ↔
      ∀ pre op post, ops = pre ++ op :: post → InReach len (progress pre) op :=
  lossless_from hlen hbyte ops (new_inv hlen hbyte) hadm

/-- Three bytes are stored and two of them consumed. -/
theorem lossless_sample : Lossless 2 (Client.new 2) [.write [1, 2, 3], .read 2] := by
  have hadm : Admissible 2 (Client.new 2) [.write [1, 2, 3], .read 2] := by
    have hwrite : ∃ c, (Client.new 2).step (.write [1, 2, 3]) = .ok 4096 c ∧
        ∃ c', c.step (.read 2) = .ok 3 c' := ⟨_, rfl, _, rfl⟩
    obtain ⟨c, hc, c', hc'⟩ := hwrite
    rw [admissible_cons hc, admissible_cons hc']
    intro pre op post heq
    simp at heq
  refine (lossless_iff (by decide) (by decide) _ hadm).2 ?_
  rw [Stream.forall_split_cons, Stream.forall_split_cons]
  refine ⟨by decide, by decide, fun pre op post heq => ?_⟩
  simp at heq

/-- A full node. -/
def nodeful : List UInt8 := List.replicate 4096 0

/-- A buffer with the default two nodes, filled once: the next writer follows a null pointer. -/
theorem third_node_faults :
    Admissible 2 (Client.new 2) [.write nodeful, .write nodeful, .write [1]] ∧
      ¬ Lossless 2 (Client.new 2) [.write nodeful, .write nodeful, .write [1]] := by
  have hlen : nodeful.length = 4096 := List.length_replicate
  have hpos : 0 < nodeful.length := by rw [hlen]; decide
  have hroom : ([] : List UInt8).length + nodeful.length = 4096 := by
    rw [List.length_nil, Nat.zero_add, hlen]
  have hb := @new_built 2 (by decide) (by decide)
  have hfirst : (Client.new 2).buff.Holds 0 [] 0 (some 1) := ⟨_, hb.first, reset_holds _⟩
  have hlast : (Client.new 2).buff.Holds 1 [] 0 none :=
    ⟨_, hb.others 1 (by decide) (by decide), reset_holds none⟩
  obtain ⟨b₁, h₁, -, hother, -, -, hw₁, -⟩ :=
    write_spec hb.pWrite hfirst hpos hroom.le
  rw [if_pos hroom] at hw₁
  obtain ⟨b₂, h₂, -, -, -, -, hw₂, -⟩ :=
    write_spec (c := ⟨b₁, (Client.new 2).stored ++ nodeful, (Client.new 2).consumed⟩) hw₁
      (hlast.congr (hother 1 (by decide))) hpos hroom.le
  rw [if_pos hroom] at hw₂
  have h₃ := write_null
    (c := ⟨b₂, (Client.new 2).stored ++ nodeful ++ nodeful, (Client.new 2).consumed⟩) [1] hw₂
  rw [admissible_cons h₁, admissible_cons h₂, lossless_cons h₁, lossless_cons h₂]
  exact ⟨admissible_of_fault h₃, fun h => not_lossless_of_fault h₃ [] h.2.2⟩

end MemoryBuff
end NetService
