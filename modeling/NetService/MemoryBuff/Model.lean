import NetService.Lib.LTS
import NetService.Lib.Memory
import NetService.Lib.Word

/-!
# `memoryBuff`

A list of nodes with a data block each.  Nodes live in `heap` under their addresses, and a deleted
node leaves its address empty; addresses are not used twice, so that every use of a deleted node is
seen.  A pointer is an address or null (`none`).  Following null, following a deleted node and a
failed `assert` are faults.

`_pTail` is not moved by the constructor: each node it makes replaces the one before as the
successor of the first node.
-/

namespace NetService

/-- `_LIST_NODE_DATA_SIZE` -/
def listNodeDataSize : ℕ := 4096

/-- `_DEFAULT_NODE_FREE_COUNT` -/
def defaultNodeFreeCount : ℕ := 5

/-- `ListNode` -/
structure ListNode where
  pData : ℕ → UInt8
  cap : ℕ
  writeSize : ℕ
  readSize : ℕ
  next : Option ℕ

namespace ListNode

/-- A node after `ResetNode()`: a new zeroed block, whatever the node was before. -/
def reset : ListNode where
  pData _ := 0
  cap := listNodeDataSize
  writeSize := 0
  readSize := 0
  next := none

end ListNode

/-- `memoryBuff` -/
structure MemoryBuff where
  heap : ℕ → Option ListNode
  /-- the address of the next `new ListNode()` -/
  fresh : ℕ
  pTail : Option ℕ
  pRead : Option ℕ
  pWrite : Option ℕ
  freeCount : ℕ

namespace MemoryBuff

/-- Undefined behaviour and failed assertions. -/
inductive Fault
  | nullDeref
  | deletedDeref (a : ℕ)
  | assertFailed
deriving DecidableEq

/-- An address in a node's block. -/
structure Addr where
  node : ℕ
  off : ℕ

/-- Follow a pointer. -/
def deref (b : MemoryBuff) : Option ℕ → Except Fault (ℕ × ListNode)
  | none => .error .nullDeref
  | some a =>
      match b.heap a with
      | none => .error (.deletedDeref a)
      | some nd => .ok (a, nd)

def setNode (b : MemoryBuff) (a : ℕ) (nd : ListNode) : MemoryBuff :=
  { b with heap := Function.update b.heap a (some nd) }

/-- One round of the constructor's loop. -/
def addNode (b : MemoryBuff) : MemoryBuff :=
  let made := { b.setNode b.fresh .reset with fresh := b.fresh + 1 }
  match b.pTail with
  | none => { made with pTail := some b.fresh, pRead := some b.fresh, pWrite := some b.fresh }
  | some t =>
      match made.heap t with
      | none => made -- not reached: `_pTail` is a node of the constructor
      | some nd => made.setNode t { nd with next := some b.fresh }

/-- `memoryBuff(len)` -/
def new (len : ℕ) : MemoryBuff :=
  addNode^[len] ⟨fun _ => none, 0, none, none, none, Word.wrap 16 ((len : ℤ) - 1)⟩

/-- `GetWriteBuff`: the region and its length. -/
def getWriteBuff (b : MemoryBuff) : Except Fault ((Addr × ℕ) × MemoryBuff) :=
  match b.deref b.pWrite with
  | .error e => .error e
  | .ok (a, nd) =>
      if nd.cap - nd.writeSize > 0 then
        .ok ((⟨a, nd.writeSize⟩, nd.cap - nd.writeSize), b)
      else
        let made := { b.setNode b.fresh .reset with
          fresh := b.fresh + 1, freeCount := Word.wrap 16 (b.freeCount + 1) }
        match made.deref b.pTail with
        | .error e => .error e
        | .ok (t, tail) =>
            .ok ((⟨b.fresh, 0⟩, ListNode.reset.cap),
              { made.setNode t { tail with next := some b.fresh } with
                pTail := some b.fresh, pWrite := some b.fresh })

/-- `GetReadBuff`: the region and its length, or a null pointer. -/
def getReadBuff (b : MemoryBuff) : Except Fault (Option (Addr × ℕ)) :=
  match b.deref b.pRead with
  | .error e => .error e
  | .ok (a, nd) =>
      if nd.writeSize > nd.readSize then .ok (some (⟨a, nd.readSize⟩, nd.writeSize - nd.readSize))
      else .ok none

/-- `AdjustWriteSize` -/
def adjustWriteSize (b : MemoryBuff) (len : ℕ) : Except Fault MemoryBuff :=
  match b.deref b.pWrite with
  | .error e => .error e
  | .ok (a, nd) =>
      if nd.cap - nd.writeSize ≥ len then
        let nd := { nd with writeSize := Word.wrap 16 (nd.writeSize + len) }
        let b := b.setNode a nd
        if nd.writeSize ≥ nd.cap then
          .ok { b with freeCount := Word.wrap 16 (b.freeCount - 1), pWrite := nd.next }
        else .ok b
      else .error .assertFailed

/-- The end of `AdjustReadSize`, for a node at `a` that has been read to its end. -/
def recycle (b : MemoryBuff) (a : ℕ) (nd : ListNode) : Except Fault MemoryBuff :=
  let b := { b.setNode a .reset with pRead := nd.next }
  if b.freeCount > defaultNodeFreeCount then
    .ok { b with heap := Function.update b.heap a none }
  else
    let b := { b with freeCount := Word.wrap 16 (b.freeCount + 1) }
    match b.deref b.pTail with
    | .error e => .error e
    | .ok (t, tail) => .ok { b.setNode t { tail with next := some a } with pTail := some a }

/-- `AdjustReadSize`.  While reading and writing are in different nodes the check is against the
capacity. -/
def adjustReadSize (b : MemoryBuff) (len : ℕ) : Except Fault MemoryBuff :=
  match b.deref b.pRead with
  | .error e => .error e
  | .ok (a, nd) =>
      let left := if b.pRead = b.pWrite then nd.writeSize - nd.readSize else nd.cap - nd.readSize
      if left < len then .error .assertFailed
      else
        let nd := { nd with readSize := Word.wrap 16 (nd.readSize + len) }
        let b := b.setNode a nd
        if nd.cap ≤ nd.readSize then b.recycle a nd else .ok b

/-- The client stores `bs` at an address. -/
def store (b : MemoryBuff) (q : Addr) (bs : List UInt8) : MemoryBuff :=
  match b.heap q.node with
  | none => b
  | some nd => b.setNode q.node { nd with pData := Memory.store nd.pData q.off bs }

/-- The client reads `n` bytes from an address. -/
def load (b : MemoryBuff) (q : Addr) (n : ℕ) : List UInt8 :=
  match b.heap q.node with
  | none => []
  | some nd => Memory.load nd.pData q.off n

/-! ### A client -/

/-- A step of a client: bytes it wants to store, or a number of bytes it wants to consume. -/
inductive Op
  | write (bs : List UInt8)
  | read (k : ℕ)

/-- A buffer, and all bytes stored in it and consumed from it so far. -/
structure Client where
  buff : MemoryBuff
  stored : List UInt8
  consumed : List UInt8

/-- What a step leads to. -/
inductive Outcome
  /-- the step asks for more than was granted, or writes nothing -/
  | refused
  /-- a call of the step faults -/
  | fault (e : Fault)
  /-- the step is done; `granted` is the length the buffer offered, 0 if it offered nothing -/
  | ok (granted : ℕ) (c : Client)

/-- A write step is `GetWriteBuff`, the store and `AdjustWriteSize`; a read step is `GetReadBuff`,
the copy and, unless there was nothing to read, `AdjustReadSize`. -/
def Client.step (c : Client) : Op → Outcome
  | .write bs =>
      match c.buff.getWriteBuff with
      | .error e => .fault e
      | .ok ((q, len), b) =>
          if 1 ≤ bs.length ∧ bs.length ≤ len then
            match (b.store q bs).adjustWriteSize bs.length with
            | .error e => .fault e
            | .ok b => .ok len ⟨b, c.stored ++ bs, c.consumed⟩
          else if len = 0 then .ok 0 c else .refused
  | .read k =>
      match c.buff.getReadBuff with
      | .error e => .fault e
      | .ok none => if k = 0 then .ok 0 c else .refused
      | .ok (some (q, len)) =>
          if k ≤ len then
            match c.buff.adjustReadSize k with
            | .error e => .fault e
            | .ok b => .ok len ⟨b, c.stored, c.consumed ++ c.buff.load q k⟩
          else .refused

/-- A new client of a buffer with `len` nodes. -/
def Client.new (len : ℕ) : Client := ⟨.new len, [], []⟩

end MemoryBuff
end NetService
