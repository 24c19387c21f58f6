import Mathlib.Data.List.DropRight
import NetService.Lib.Loop
import NetService.Lib.Memory

/-!
# `tl::buffer`: a queue of bytes in chunks

The class of `buffer.h` and `buffer.cc`.  Data enters at the front of `chunk_list_` and leaves at
its back.  Here `chunkList` is written from the back to the front, so that the head of the list
is `chunk_list_.back()` and its last element is `chunk_list_.front()`.

* A chunk owns a block `p` of `cap` cells; the live cells are `offset, …, end_ - 1`.
* Sizes are natural numbers: the invariant of `Buffer.Invariant` shows that no subtraction below
  goes under zero, and no size exceeds the memory that was allocated.
* Allocation succeeds.  The cells of a fresh block are unspecified; they are `default` here, for
  an arbitrary `Inhabited` instance.
* `back()` and `front()` on an empty list, which the standard leaves undefined, are faults.

A pointer into a buffer is the chunk it points into (counted from the back) and a cell of it.
-/

namespace NetService

variable {α : Type} [Inhabited α]

/-- `buffer::Chunk_`. -/
structure Chunk (α : Type) where
  p : ℕ → α
  offset : ℕ
  end_ : ℕ
  cap : ℕ

/-- The constructor `Chunk_(len)`. -/
def Chunk.new (len : ℕ) : Chunk α := ⟨fun _ => default, 0, 0, len⟩

/-- `tl::buffer`, with the defaults of its fields. -/
structure Buffer (α : Type) where
  size : ℕ := 0
  defaultChunkSize : ℕ := 4096
  chunkList : List (Chunk α) := []

namespace Buffer

/-- What the standard leaves undefined: `back()` or `front()` of an empty list, an access outside
a block. -/
inductive Fault
  | backOfEmpty
  | frontOfEmpty
  | outOfBlock
  deriving DecidableEq

/-- An address inside a buffer: a chunk, counted from the back, and a cell of its block. -/
structure Ptr where
  chunk : ℕ
  cell : ℕ
  deriving DecidableEq

/-- The caller reads `n` cells at `q`; `none` when they are not inside one block. -/
def load (b : Buffer α) (q : Ptr) (n : ℕ) : Option (List α) :=
  match b.chunkList[q.chunk]? with
  | some ch => if q.cell + n ≤ ch.cap then some (Memory.load ch.p q.cell n) else none
  | none => none

/-- The caller writes `bs` at `q`; `none` when that is not inside one block. -/
def store (b : Buffer α) (q : Ptr) (bs : List α) : Option (Buffer α) :=
  match b.chunkList[q.chunk]? with
  | some ch =>
      if q.cell + bs.length ≤ ch.cap then
        some { b with
          chunkList := b.chunkList.set q.chunk { ch with p := Memory.store ch.p q.cell bs } }
      else none
  | none => none

/-! ### `push` and `drain` -/

/-- The first part of `push`: fill the front chunk.  Returns the data that is left. -/
def fillFront (b : Buffer α) (data : List α) : List α × Buffer α :=
  match b.chunkList.getLast? with
  | some it =>
      if it.end_ < it.cap then
        let toCopy := min (it.cap - it.end_) data.length
        let it' := { it with
          p := Memory.store it.p it.end_ (data.take toCopy)
          end_ := it.end_ + toCopy }
        (data.drop toCopy,
          { b with size := b.size + toCopy, chunkList := b.chunkList.dropLast ++ [it'] })
      else (data, b)
  | none => (data, b)

/-- The second part of `push`: a new chunk at the front for the data that is left. -/
def pushChunk (b : Buffer α) (left : List α) : Buffer α :=
  let chunkSize := if b.defaultChunkSize < left.length then left.length else b.defaultChunkSize
  let newChunk := { (Chunk.new chunkSize : Chunk α) with
    p := Memory.store (fun _ => default) 0 left
    end_ := left.length }
  { b with size := b.size + left.length, chunkList := b.chunkList ++ [newChunk] }

/-- `buffer::push`: returns the number of bytes added. -/
def push (b : Buffer α) (data : List α) : ℕ × Buffer α :=
  let r := b.fillFront data
  if r.1.length = 0 then (data.length, r.2) else (data.length, r.2.pushChunk r.1)

/-- The loop of `drain`, from the back; returns `drain_len` and the chunks that are left. -/
def drainLoop (len : ℕ) : ℕ → List (Chunk α) → ℕ × List (Chunk α)
  | drainLen, [] => (drainLen, [])
  | drainLen, ch :: rest =>
      if drainLen < len then
        if ch.end_ - ch.offset ≤ len - drainLen then
          drainLoop len (drainLen + (ch.end_ - ch.offset)) rest
        else (len, { ch with offset := ch.offset + (len - drainLen) } :: rest)
      else (drainLen, ch :: rest)

/-- `buffer::drain`: returns the number of bytes removed. -/
def drain (b : Buffer α) (len : ℕ) : ℕ × Buffer α :=
  let r := drainLoop len 0 b.chunkList
  (r.1, { b with size := b.size - r.1, chunkList := r.2 })

/-! ### `data` and `dataChunk` -/

/-- The variables of the copying loop of `data`: `copied`, `new_chunk.p` and the chunk list. -/
structure DataLoop (α : Type) where
  copied : ℕ
  newp : ℕ → α
  chunks : List (Chunk α)

/-- One pass of the copying loop of `data`. -/
def dataBody (len : ℕ) (s : DataLoop α) : Loop.Pass (DataLoop α) (DataLoop α) Fault :=
  if s.copied < len then
    match s.chunks with
    | [] => .fault .backOfEmpty
    | ch :: rest =>
        if ch.offset < ch.end_ then
          let toCopy := min (ch.end_ - ch.offset) (len - s.copied)
          .next
            { copied := s.copied + toCopy
              newp := Memory.store s.newp s.copied (Memory.load ch.p ch.offset toCopy)
              chunks :=
                if ch.end_ - ch.offset ≤ toCopy then rest
                else { ch with offset := ch.offset + toCopy } :: rest }
        else .next s
  else .done s

/-- `buffer::data`: a pointer to `len` contiguous bytes, `none` for `nullptr`.  The outer `none`
says that the copying loop is still running after `fuel` passes. -/
def data (fuel : ℕ) (b : Buffer α) (len : ℕ) :
    Option (Except Fault (Option Ptr × Buffer α)) :=
  if b.size < len then some (.ok (none, b))
  else
    match b.chunkList with
    | [] => some (.error .backOfEmpty)
    | ch :: _ =>
        if len ≤ ch.end_ - ch.offset then some (.ok (some ⟨0, ch.offset⟩, b))
        else
          (Loop.iter (dataBody len) fuel ⟨0, fun _ => default, b.chunkList⟩).map
            (Except.map fun s =>
              (some ⟨0, 0⟩,
                { b with
                  chunkList := { p := s.newp, offset := 0, end_ := len, cap := len } :: s.chunks }))

/-- `buffer::dataChunk`: the live part of the back chunk. -/
def dataChunk (b : Buffer α) : Except Fault (Ptr × ℕ) :=
  match b.chunkList with
  | [] => .error .backOfEmpty
  | ch :: _ => .ok (⟨0, ch.offset⟩, ch.end_ - ch.offset)

/-! ### `space`, `spaceChunk` and `spaceHaveSeted` -/

/-- The part of `space` that makes a new front chunk, after dropping empty ones. -/
def spaceNew (b : Buffer α) (len : ℕ) : Ptr × Buffer α :=
  let rest := b.chunkList.rdropWhile fun ch => decide (ch.offset = ch.end_)
  (⟨rest.length, 0⟩, { b with chunkList := rest ++ [Chunk.new (max len b.defaultChunkSize)] })

/-- `buffer::space`: a pointer to `len` free cells. -/
def space (b : Buffer α) (len : ℕ) : Ptr × Buffer α :=
  match b.chunkList.getLast? with
  | some ch =>
      if len ≤ ch.cap - ch.end_ then (⟨b.chunkList.length - 1, ch.end_⟩, b) else b.spaceNew len
  | none => b.spaceNew len

/-- The part of `spaceChunk` that makes a new front chunk. -/
def spaceChunkNew (b : Buffer α) : (Ptr × ℕ) × Buffer α :=
  ((⟨b.chunkList.length, 0⟩, b.defaultChunkSize),
    { b with chunkList := b.chunkList ++ [Chunk.new b.defaultChunkSize] })

/-- `buffer::spaceChunk`: a pointer to free cells and their number. -/
def spaceChunk (b : Buffer α) : (Ptr × ℕ) × Buffer α :=
  match b.chunkList.getLast? with
  | some ch =>
      if 0 < ch.cap - ch.end_ then ((⟨b.chunkList.length - 1, ch.end_⟩, ch.cap - ch.end_), b)
      else b.spaceChunkNew
  | none => b.spaceChunkNew

/-- `buffer::spaceHaveSeted`: the first `len` free cells of the front chunk become live. -/
def spaceHaveSeted (b : Buffer α) (len : ℕ) : Except Fault (Buffer α) :=
  match b.chunkList.getLast? with
  | some ch =>
      .ok { b with
        size := b.size + len
        chunkList := b.chunkList.dropLast ++ [{ ch with end_ := ch.end_ + len }] }
  | none => .error .frontOfEmpty

/-! ### `operator[]`, `default_chunk_size` and `swap` -/

/-- The loop of `operator[]`, from the back. -/
def indexLoop (i : ℕ) : ℕ → List (Chunk α) → α
  | _, [] => default
  | cur, it :: rest =>
      if i < cur + it.end_ - it.offset then it.p (i - cur + it.offset)
      else indexLoop i (cur + (it.end_ - it.offset)) rest

/-- `buffer::operator[]`. -/
def index (b : Buffer α) (i : ℕ) : α := indexLoop i 0 b.chunkList

/-- `buffer::default_chunk_size(size)`. -/
def setDefaultChunkSize (b : Buffer α) (size : ℕ) : Buffer α :=
  { b with defaultChunkSize := size }

/-- `buffer::swap`: all three fields are exchanged. -/
def swap (b x : Buffer α) : Buffer α × Buffer α :=
  ({ size := x.size, defaultChunkSize := x.defaultChunkSize, chunkList := x.chunkList },
    { size := b.size, defaultChunkSize := b.defaultChunkSize, chunkList := b.chunkList })

end Buffer
end NetService
