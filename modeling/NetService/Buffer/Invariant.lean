import NetService.Buffer.Model

/-!
# The representation invariant and the content of `tl::buffer`

`Buffer.content` is the live cells of all chunks, from the back to the front.  `Buffer.Inv` is
the layout every operation keeps: `offset ≤ end_ ≤ cap` in each chunk, every chunk but the front
one holds data, and `size` is the length of the content.  Each operation has one specification
lemma below, in terms of `Inv` and `content` only; later modules never unfold an operation.
-/

namespace NetService

variable {α : Type}

/-! ### One chunk -/

/-- The live cells of a chunk. -/
def Chunk.live (ch : Chunk α) : List α := Memory.load ch.p ch.offset (ch.end_ - ch.offset)

/-- A chunk is well formed: its live cells lie in its block, which is not empty. -/
structure Chunk.Ok (ch : Chunk α) : Prop where
  offset_le : ch.offset ≤ ch.end_
  end_le : ch.end_ ≤ ch.cap
  cap_pos : 1 ≤ ch.cap

@[simp] theorem Chunk.length_live (ch : Chunk α) : ch.live.length = ch.end_ - ch.offset := by
  simp [Chunk.live]

/-- Writing `bs` behind the live cells and moving `end_` appends `bs`. -/
theorem Chunk.live_fill {ch : Chunk α} (h : ch.Ok) (bs : List α) :
    ({ ch with p := Memory.store ch.p ch.end_ bs, end_ := ch.end_ + bs.length } : Chunk α).live =
      ch.live ++ bs := by
  have hle := h.offset_le
  have happ := Memory.load_store_append ch.p ch.offset (ch.end_ - ch.offset) bs
  rw [show ch.offset + (ch.end_ - ch.offset) = ch.end_ by omega] at happ
  simp only [Chunk.live]
  rw [← happ, show ch.end_ + bs.length - ch.offset = ch.end_ - ch.offset + bs.length by omega]

/-- Moving `offset` drops cells from the front of the live ones. -/
theorem Chunk.live_skip (ch : Chunk α) {n : ℕ} (h : n ≤ ch.end_ - ch.offset) :
    ({ ch with offset := ch.offset + n } : Chunk α).live = ch.live.drop n := by
  simp only [Chunk.live]
  rw [Memory.drop_load _ _ _ _ h, Nat.sub_sub]

/-! ### The chunk list -/

namespace Buffer

/-- The layout of the chunk list: an empty chunk can only stand at the front, with `end_ = 0`. -/
structure ChunksOk (l : List (Chunk α)) : Prop where
  ok : ∀ ch ∈ l, ch.Ok
  inner : ∀ ch ∈ l.dropLast, ch.offset < ch.end_
  front : ∀ ch, l.getLast? = some ch → ch.offset < ch.end_ ∨ ch.end_ = 0

theorem chunksOk_nil : ChunksOk ([] : List (Chunk α)) := by
  constructor <;> simp

/-- The layout seen from the front. -/
theorem chunksOk_snoc {l : List (Chunk α)} {f : Chunk α} :
    ChunksOk (l ++ [f]) ↔
      (∀ ch ∈ l, ch.Ok ∧ ch.offset < ch.end_) ∧ f.Ok ∧ (f.offset < f.end_ ∨ f.end_ = 0) := by
  constructor
  · intro h
    refine ⟨fun ch hch => ⟨h.ok ch (by simp [hch]), h.inner ch (by simpa using hch)⟩,
      h.ok f (by simp), h.front f (by simp)⟩
  · rintro ⟨hl, hf, hfront⟩
    refine ⟨fun ch hch => ?_, fun ch hch => ?_, fun ch hch => ?_⟩
    · rcases List.mem_append.1 hch with hch | hch
      · exact (hl ch hch).1
      · exact List.mem_singleton.1 hch ▸ hf
    · rw [List.dropLast_concat] at hch
      exact (hl ch hch).2
    · rw [List.getLast?_concat, Option.some.injEq] at hch
      exact hch ▸ hfront

/-- A new front chunk may be added when every chunk holds data. -/
theorem ChunksOk.snoc {l : List (Chunk α)} {f : Chunk α} (h : ChunksOk l)
    (hl : ∀ ch ∈ l, ch.offset < ch.end_) (hf : f.Ok) (hfront : f.offset < f.end_ ∨ f.end_ = 0) :
    ChunksOk (l ++ [f]) :=
  chunksOk_snoc.2 ⟨fun ch hch => ⟨h.ok ch hch, hl ch hch⟩, hf, hfront⟩

/-- Dropping the back chunk keeps the layout. -/
theorem ChunksOk.tail {ch : Chunk α} {l : List (Chunk α)} (h : ChunksOk (ch :: l)) :
    ChunksOk l := by
  rcases List.eq_nil_or_concat l with rfl | ⟨inner, f, rfl⟩
  · exact chunksOk_nil
  · rw [List.concat_eq_append, ← List.cons_append, chunksOk_snoc] at h
    rw [List.concat_eq_append, chunksOk_snoc]
    exact ⟨fun c hc => h.1 c (by simp [hc]), h.2⟩

/-- A chunk with data may be put at the back. -/
theorem ChunksOk.cons {ch : Chunk α} {l : List (Chunk α)} (h : ChunksOk l) (hch : ch.Ok)
    (hdata : ch.offset < ch.end_) : ChunksOk (ch :: l) := by
  rcases List.eq_nil_or_concat l with rfl | ⟨inner, f, rfl⟩
  · exact chunksOk_snoc (l := []).2 ⟨by simp, hch, .inl hdata⟩
  · rw [List.concat_eq_append, chunksOk_snoc] at h
    rw [List.concat_eq_append, ← List.cons_append, chunksOk_snoc]
    refine ⟨fun c hc => ?_, h.2⟩
    rcases List.mem_cons.1 hc with rfl | hc
    · exact ⟨hch, hdata⟩
    · exact h.1 c hc

/-- The live cells of a chunk list. -/
def contentOf (l : List (Chunk α)) : List α := l.flatMap Chunk.live

@[simp] theorem contentOf_nil : contentOf ([] : List (Chunk α)) = [] := rfl

@[simp] theorem contentOf_cons (ch : Chunk α) (l : List (Chunk α)) :
    contentOf (ch :: l) = ch.live ++ contentOf l := rfl

@[simp] theorem contentOf_append (l l' : List (Chunk α)) :
    contentOf (l ++ l') = contentOf l ++ contentOf l' := by
  simp [contentOf]

/-- If the back chunk holds nothing, the buffer holds nothing. -/
theorem ChunksOk.back_empty {ch : Chunk α} {l : List (Chunk α)} (h : ChunksOk (ch :: l))
    (hch : ch.end_ ≤ ch.offset) : l = [] := by
  by_contra hl
  have := h.inner ch (by rw [List.dropLast_cons_of_ne_nil hl]; simp)
  omega

/-! ### The buffer -/

/-- The content of a buffer, from the back chunk to the front chunk. -/
def content (b : Buffer α) : List α := contentOf b.chunkList

/-- The representation invariant. -/
structure Inv (b : Buffer α) : Prop where
  chunks : ChunksOk b.chunkList
  size_eq : b.size = b.content.length
  chunk_pos : 1 ≤ b.defaultChunkSize

theorem inv_empty {b : Buffer α} (h : b.chunkList = []) (hs : b.size = 0)
    (hd : 1 ≤ b.defaultChunkSize) : b.Inv ∧ b.content = [] := by
  refine ⟨⟨h ▸ chunksOk_nil, ?_, hd⟩, ?_⟩ <;> simp [content, h, hs]

end Buffer
end NetService
