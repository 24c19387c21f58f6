import NetService.Buffer.Invariant

/-!
# What each operation of `tl::buffer` does to the content

One specification lemma for each operation, in terms of `Buffer.Inv` and `Buffer.content`.
`data` is proved to leave its copying loop, so that nothing below is only partially correct.
-/

namespace NetService

variable {α : Type}

namespace Buffer

/-! ### `drain` -/

theorem drainLoop_spec {len drainLen : ℕ} {l : List (Chunk α)} (h : ChunksOk l)
    (hle : drainLen ≤ len) :
    (drainLoop len drainLen l).1 = drainLen + min (len - drainLen) (contentOf l).length ∧
      ChunksOk (drainLoop len drainLen l).2 ∧
      contentOf (drainLoop len drainLen l).2 = (contentOf l).drop (len - drainLen) := by
  -- on the chunks, the back one first; `len - drainLen` bytes are still to go
  induction l generalizing drainLen with
  | nil => exact ⟨by simp [drainLoop], h, by simp [drainLoop]⟩
  | cons ch rest ih =>
    have hch := h.ok ch (by simp)
    have hoff := hch.offset_le
    unfold drainLoop
    split_ifs with hlt hpop
    · -- the back chunk goes altogether
      obtain ⟨h1, h2, h3⟩ := ih h.tail (show drainLen + (ch.end_ - ch.offset) ≤ len by omega)
      have hnil : ch.live.drop (len - drainLen) = [] :=
        List.drop_eq_nil_of_le (by rwa [Chunk.length_live])
      refine ⟨?_, h2, ?_⟩
      · rw [h1, contentOf_cons, List.length_append, Chunk.length_live]
        omega
      · rw [h3, contentOf_cons, List.drop_append, hnil, List.nil_append, Chunk.length_live,
          Nat.sub_sub]
    · -- only the beginning of the back chunk goes
      have hskip := Chunk.live_skip ch (n := len - drainLen) (by omega)
      have hend := hch.end_le
      refine ⟨?_, ?_, ?_⟩
      · rw [contentOf_cons, List.length_append, Chunk.length_live]
        simp only
        omega
      · rcases List.eq_nil_or_concat rest with rfl | ⟨inner, f, rfl⟩
        · refine chunksOk_snoc (l := []).2 ⟨by simp, ⟨?_, hend, hch.cap_pos⟩, .inl ?_⟩
          all_goals
            simp only
            omega
        · refine h.tail.cons ⟨?_, hend, hch.cap_pos⟩ ?_
          all_goals
            simp only
            omega
      · rw [contentOf_cons, contentOf_cons, hskip, List.drop_append_of_le_length]
        rw [Chunk.length_live]
        omega
    · rw [show len - drainLen = 0 by omega]
      simp [h]

/-- `drain` removes a prefix and returns its length. -/
theorem drain_spec {b : Buffer α} (h : b.Inv) (len : ℕ) :
    (b.drain len).1 = min len b.content.length ∧ (b.drain len).2.Inv ∧
      (b.drain len).2.content = b.content.drop len := by
  obtain ⟨h1, h2, h3⟩ := drainLoop_spec h.chunks (Nat.zero_le len)
  rw [Nat.zero_add, Nat.sub_zero] at h1
  rw [Nat.sub_zero] at h3
  refine ⟨h1, ⟨h2, ?_, h.chunk_pos⟩, h3⟩
  change b.size - (drainLoop len 0 b.chunkList).1 = (contentOf (drainLoop len 0 b.chunkList).2).length
  rw [h1, h3, List.length_drop, h.size_eq]
  simp only [content]
  omega

/-! ### `push` -/

theorem fillFront_spec {b : Buffer α} (h : b.Inv) (data : List α) :
    (b.fillFront data).2.Inv ∧
      b.content ++ data = (b.fillFront data).2.content ++ (b.fillFront data).1 ∧
      ((b.fillFront data).1 ≠ [] →
        ∀ ch ∈ (b.fillFront data).2.chunkList, ch.offset < ch.end_) := by
  obtain ⟨size, dflt, l⟩ := b
  rcases List.eq_nil_or_concat l with rfl | ⟨inner, f, rfl⟩
  · exact ⟨h, rfl, fun _ ch hch => by simp [fillFront] at hch⟩
  rw [List.concat_eq_append] at h ⊢
  have hl := chunksOk_snoc.1 h.chunks
  have hsize := h.size_eq
  have hpos := h.chunk_pos
  simp only [content, contentOf_append, contentOf_cons, contentOf_nil, List.append_nil,
    List.length_append] at hsize hpos
  simp only [fillFront, List.getLast?_concat, List.dropLast_concat]
  split_ifs with hcap
  · -- the front chunk takes the first `min (cap - end_) len` bytes
    have hlen : (data.take (min (f.cap - f.end_) data.length)).length =
        min (f.cap - f.end_) data.length := by simp
    have hfill := Chunk.live_fill hl.2.1 (data.take (min (f.cap - f.end_) data.length))
    rw [hlen] at hfill
    have hle := hl.2.1.offset_le
    have hend := hl.2.1.end_le
    have hfront := hl.2.2
    refine ⟨⟨chunksOk_snoc.2 ⟨hl.1, ⟨?_, ?_, hl.2.1.cap_pos⟩, ?_⟩, ?_, hpos⟩, ?_, ?_⟩
    · change f.offset ≤ f.end_ + _
      omega
    · change f.end_ + min (f.cap - f.end_) data.length ≤ f.cap
      omega
    · change f.offset < f.end_ + _ ∨ f.end_ + _ = 0
      omega
    · simp only [content, contentOf_append, contentOf_cons, contentOf_nil, hfill,
        List.length_append, hlen, List.length_nil]
      omega
    · simp [content, hfill]
    · intro hne ch hch
      have hlt : min (f.cap - f.end_) data.length < data.length := by
        by_contra hge
        exact hne (List.drop_eq_nil_of_le (by omega))
      rcases List.mem_append.1 hch with hch | hch
      · exact (hl.1 ch hch).2
      · rw [List.mem_singleton.1 hch]
        change f.offset < f.end_ + _
        have := hl.2.1.cap_pos
        omega
  · refine ⟨h, rfl, fun _ ch hch => ?_⟩
    rcases List.mem_append.1 hch with hch | hch
    · exact (hl.1 ch hch).2
    · rw [List.mem_singleton.1 hch]
      have := hl.2.1.cap_pos
      have := hl.2.2
      have := hl.2.1.end_le
      omega

end Buffer

variable [Inhabited α]

/-- A fresh chunk is well formed and holds nothing. -/
theorem Chunk.new_ok {len : ℕ} (h : 1 ≤ len) : (Chunk.new len : Chunk α).Ok :=
  ⟨le_rfl, Nat.zero_le _, h⟩

@[simp] theorem Chunk.live_new (len : ℕ) : (Chunk.new len : Chunk α).live = [] := rfl

namespace Buffer

theorem pushChunk_spec {b : Buffer α} (h : b.Inv) {left : List α} (hleft : left ≠ [])
    (hdata : ∀ ch ∈ b.chunkList, ch.offset < ch.end_) :
    (b.pushChunk left).Inv ∧ (b.pushChunk left).content = b.content ++ left := by
  have hpos : 0 < left.length := List.length_pos_iff.2 hleft
  have hdflt := h.chunk_pos
  have hlive : ∀ cap : ℕ,
      (⟨Memory.store (fun _ => default) 0 left, 0, left.length, cap⟩ : Chunk α).live = left :=
    fun cap => Memory.load_store _ 0 left
  have hcontent : (b.pushChunk left).content = b.content ++ left := by
    simp [pushChunk, Chunk.new, content, hlive]
  refine ⟨⟨?_, ?_, h.chunk_pos⟩, hcontent⟩
  · refine h.chunks.snoc hdata ⟨Nat.zero_le _, ?_, ?_⟩ (.inl hpos) <;>
    · simp only [Chunk.new]
      split_ifs <;> omega
  · rw [hcontent, List.length_append, ← h.size_eq]
    rfl

/-- `push` appends and returns the number of bytes it was given. -/
theorem push_spec {b : Buffer α} (h : b.Inv) (data : List α) :
    (b.push data).1 = data.length ∧ (b.push data).2.Inv ∧
      (b.push data).2.content = b.content ++ data := by
  obtain ⟨hinv, hsplit, hfull⟩ := fillFront_spec h data
  simp only [push]
  split_ifs with hleft
  · rw [List.length_eq_zero_iff] at hleft
    rw [hleft, List.append_nil] at hsplit
    exact ⟨rfl, hinv, hsplit.symm⟩
  · have hne : (b.fillFront data).1 ≠ [] := fun he => hleft (by rw [he]; rfl)
    obtain ⟨hinv', hcontent⟩ := pushChunk_spec hinv hne (hfull hne)
    exact ⟨rfl, hinv', hcontent.trans hsplit.symm⟩

/-! ### `data` and `dataChunk` -/

/-- The invariant of the copying loop: the bytes in the new block, followed by those still in the
chunks, are the content `c` the loop started with. -/
structure DataInv (len : ℕ) (c : List α) (s : DataLoop α) : Prop where
  copied_le : s.copied ≤ len
  chunks : ChunksOk s.chunks
  content : Memory.load s.newp 0 s.copied ++ contentOf s.chunks = c

omit [Inhabited α] in
/-- A pass at a back chunk with bytes copies `n` of them, and drops a chunk that has no more. -/
theorem dataBody_cons {len copied n : ℕ} (newp : ℕ → α) {ch : Chunk α} (rest : List (Chunk α))
    (hlt : copied < len) (hdata : ch.offset < ch.end_)
    (hn : n = min (ch.end_ - ch.offset) (len - copied)) :
    ∃ newp', dataBody len ⟨copied, newp, ch :: rest⟩ = .next ⟨copied + n, newp',
        if ch.end_ - ch.offset ≤ n then rest else { ch with offset := ch.offset + n } :: rest⟩ ∧
      Memory.load newp' 0 (copied + n) = Memory.load newp 0 copied ++ ch.live.take n := by
  have hload : (Memory.load ch.p ch.offset n).length = n := Memory.length_load ..
  have hnew := Memory.load_store_append newp 0 copied (Memory.load ch.p ch.offset n)
  rw [hload, Nat.zero_add] at hnew
  refine ⟨Memory.store newp copied (Memory.load ch.p ch.offset n), ?_, ?_⟩
  · simp [dataBody, hlt, hdata, hn]
  · rw [hnew, Chunk.live, Memory.take_load _ _ _ _ (by omega)]

omit [Inhabited α] in
/-- A pass with bytes still to copy copies at least one of them. -/
theorem dataBody_next {len : ℕ} {c : List α} {s : DataLoop α} (h : DataInv len c s)
    (hc : len ≤ c.length) (hlt : s.copied < len) :
    ∃ s', dataBody len s = .next s' ∧ DataInv len c s' ∧ s.copied < s'.copied := by
  obtain ⟨copied, newp, chunks⟩ := s
  obtain ⟨hle, hok, hcontent⟩ := h
  simp only at hle hok hcontent hlt
  cases chunks with
  | nil =>
    have := congrArg List.length hcontent
    simp at this
    omega
  | cons ch rest =>
    have hdata : ch.offset < ch.end_ := by
      by_contra hempty
      have hrest := hok.back_empty (not_lt.1 hempty)
      have := congrArg List.length hcontent
      simp [hrest] at this
      omega
    obtain ⟨n, hn⟩ : ∃ n, n = min (ch.end_ - ch.offset) (len - copied) := ⟨_, rfl⟩
    obtain ⟨newp', hnext, hnew⟩ := dataBody_cons newp rest hlt hdata hn
    refine ⟨_, hnext, ⟨?_, ?_, ?_⟩, ?_⟩
    · simp only
      omega
    · have hch := hok.ok ch (by simp)
      have hend := hch.end_le
      simp only
      split_ifs with hpop
      · exact hok.tail
      · refine hok.tail.cons ⟨?_, hend, hch.cap_pos⟩ ?_ <;>
        · simp only
          omega
    · rw [← hcontent]
      simp only
      rw [hnew, List.append_assoc]
      split_ifs with hpop
      · rw [List.take_of_length_le (by rw [Chunk.length_live]; omega), contentOf_cons]
      · rw [contentOf_cons, contentOf_cons, Chunk.live_skip ch (by omega), ← List.append_assoc,
          ← List.append_assoc, List.append_assoc _ (List.take n _), List.take_append_drop,
          List.append_assoc]
    · simp only
      omega

omit [Inhabited α] in
/-- The copying loop of `data` ends, with the first `len` bytes of the content in the new block
and the others still in the chunks. -/
theorem dataLoop_spec {len : ℕ} {l : List (Chunk α)} (h : ChunksOk l)
    (hlen : len ≤ (contentOf l).length) (m : ℕ → α) :
    ∃ s : DataLoop α, Loop.Ends (dataBody len) ⟨0, m, l⟩ (.ok s) ∧ ChunksOk s.chunks ∧
      Memory.load s.newp 0 len ++ contentOf s.chunks = contentOf l := by
  have hstart : DataInv len (contentOf l) ⟨0, m, l⟩ := ⟨Nat.zero_le _, h, by simp⟩
  obtain ⟨out, hends, s, rfl, hs⟩ := Loop.ends_of_measure (dataBody len)
    (DataInv len (contentOf l)) (fun s => len - s.copied)
    (fun out => ∃ s : DataLoop α, out = .ok s ∧ ChunksOk s.chunks ∧
      Memory.load s.newp 0 len ++ contentOf s.chunks = contentOf l)
    (fun s hs => by
      have hle := hs.copied_le
      by_cases hlt : s.copied < len
      · obtain ⟨s', hs', hinv, hmore⟩ := dataBody_next hs hlen hlt
        exact .inl ⟨s', hs', hinv, by omega⟩
      · have heq : s.copied = len := by omega
        have hdone : dataBody len s = .done s := by simp [dataBody, hlt]
        exact .inr ⟨_, .done hdone, s, rfl, hs.chunks, heq ▸ hs.content⟩)
    hstart
  exact ⟨s, hends, hs⟩

/-- `data` returns a pointer to the first `len` bytes of the content, which all lie in the back
chunk when it returns, and leaves the content as it is. -/
theorem data_spec {b : Buffer α} (h : b.Inv) {len : ℕ} (hpos : 1 ≤ len) (hlen : len ≤ b.size) :
    ∃ fuel q b', b.data fuel len = some (.ok (some q, b')) ∧ b'.Inv ∧ b'.content = b.content ∧
      b'.load q len = some (b.content.take len) ∧
      ∃ ch rest, b'.chunkList = ch :: rest ∧ q = ⟨0, ch.offset⟩ ∧ len ≤ ch.end_ - ch.offset := by
  have hsize := h.size_eq
  obtain ⟨size, dflt, l⟩ := b
  simp only [content] at hlen hsize
  cases l with
  | nil =>
    simp at hsize
    omega
  | cons ch rest =>
    have hch := h.chunks.ok ch (by simp)
    have hend := hch.end_le
    by_cases hback : len ≤ ch.end_ - ch.offset
    · -- the back chunk has enough
      refine ⟨0, ⟨0, ch.offset⟩, _, ?_, h, rfl, ?_, ch, rest, rfl, rfl, hback⟩
      · simp [data, not_lt.2 hlen, hback]
      · simp only [load, List.getElem?_cons_zero, content, contentOf_cons]
        rw [if_pos (by omega), List.take_append_of_le_length (by simpa using hback), Chunk.live,
          Memory.take_load _ _ _ _ hback]
    · -- chunks are merged into a new one
      obtain ⟨s, ⟨fuel, hiter⟩, hok, hcontent⟩ :=
        dataLoop_spec h.chunks (show len ≤ (contentOf (ch :: rest)).length by omega)
          (fun _ => default)
      have hnew : (⟨s.newp, 0, len, len⟩ : Chunk α).live = Memory.load s.newp 0 len := by
        simp [Chunk.live]
      refine ⟨fuel, ⟨0, 0⟩, ⟨size, dflt, ⟨s.newp, 0, len, len⟩ :: s.chunks⟩, ?_,
        ⟨hok.cons ⟨Nat.zero_le _, le_rfl, hpos⟩ hpos, ?_, h.chunk_pos⟩, ?_, ?_, _, _, rfl, rfl, ?_⟩
      · simp only at hiter
        simp [data, not_lt.2 hlen, hback, hiter, Except.map]
      · simp only [content, contentOf_cons, hnew, hcontent, hsize]
      · simp only [content, contentOf_cons, hnew] at hcontent ⊢
        exact hcontent
      · simp only [load, List.getElem?_cons_zero, Nat.zero_add, le_refl, if_true, content]
        rw [← hcontent, List.take_left' (Memory.length_load ..)]
      · simp

omit [Inhabited α] in
/-- `dataChunk` on a non-empty buffer returns a non-empty prefix of the content. -/
theorem dataChunk_spec {b : Buffer α} (h : b.Inv) (hsize : 0 < b.size) :
    ∃ q n, b.dataChunk = .ok (q, n) ∧ 1 ≤ n ∧ n ≤ b.size ∧
      b.load q n = some (b.content.take n) := by
  have heq := h.size_eq
  obtain ⟨size, dflt, l⟩ := b
  simp only [content] at hsize heq
  cases l with
  | nil =>
    simp at heq
    omega
  | cons ch rest =>
    have hend := (h.chunks.ok ch (by simp)).end_le
    have hdata : ch.offset < ch.end_ := by
      by_contra hempty
      simp [h.chunks.back_empty (not_lt.1 hempty)] at heq
      omega
    simp only [contentOf_cons, List.length_append, Chunk.length_live] at heq
    refine ⟨⟨0, ch.offset⟩, ch.end_ - ch.offset, rfl, by omega, by simp only; omega, ?_⟩
    simp only [load, List.getElem?_cons_zero, content, contentOf_cons]
    rw [if_pos (by omega), List.take_left' (Chunk.length_live ch), Chunk.live]

/-! ### `space`, `spaceChunk` and `spaceHaveSeted` -/

/-- `q` points to `n` free cells at the front of the buffer. -/
def Room (b : Buffer α) (q : Ptr) (n : ℕ) : Prop :=
  ∃ inner f, b.chunkList = inner ++ [f] ∧ q = ⟨inner.length, f.end_⟩ ∧ f.end_ + n ≤ f.cap

omit [Inhabited α] in
/-- Only an empty front chunk is dropped by `space`. -/
theorem rdropWhile_spec {l : List (Chunk α)} (h : ChunksOk l) :
    ChunksOk (l.rdropWhile fun ch => decide (ch.offset = ch.end_)) ∧
      (∀ ch ∈ l.rdropWhile fun ch => decide (ch.offset = ch.end_), ch.offset < ch.end_) ∧
      contentOf (l.rdropWhile fun ch => decide (ch.offset = ch.end_)) = contentOf l := by
  rcases List.eq_nil_or_concat l with rfl | ⟨inner, f, rfl⟩
  · exact ⟨h, by simp, rfl⟩
  rw [List.concat_eq_append] at h ⊢
  have hl := chunksOk_snoc.1 h
  by_cases hempty : f.offset = f.end_
  · rw [List.rdropWhile_concat_pos _ _ _ (by simpa using hempty)]
    rcases List.eq_nil_or_concat inner with rfl | ⟨inner', g, rfl⟩
    · have hlive : f.live = [] := List.eq_nil_of_length_eq_zero (by simp [hempty])
      exact ⟨chunksOk_nil, by simp, by simp [hlive]⟩
    · have hlive : f.live = [] := List.eq_nil_of_length_eq_zero (by simp [hempty])
      rw [List.concat_eq_append] at hl ⊢
      have hg := (hl.1 g (by simp)).2
      rw [List.rdropWhile_concat_neg _ _ _ (by simp; omega)]
      refine ⟨chunksOk_snoc.2 ⟨fun ch hch => hl.1 ch (by simp [hch]), (hl.1 g (by simp)).1,
        .inl hg⟩, fun ch hch => (hl.1 ch hch).2, by simp [hlive]⟩
  · rw [List.rdropWhile_concat_neg _ _ _ (by simpa using hempty)]
    refine ⟨h, fun ch hch => ?_, rfl⟩
    rcases List.mem_append.1 hch with hch | hch
    · exact (hl.1 ch hch).2
    · rw [List.mem_singleton.1 hch]
      have := hl.2.1.offset_le
      omega

/-- A fresh front chunk of at least `n` cells, behind chunks that all hold data. -/
theorem room_new {b : Buffer α} (h : b.Inv) {l : List (Chunk α)} (hl : ChunksOk l)
    (hdata : ∀ ch ∈ l, ch.offset < ch.end_) (hc : contentOf l = b.content) {n : ℕ}
    (hn : b.defaultChunkSize ≤ n) :
    ({ b with chunkList := l ++ [Chunk.new n] } : Buffer α).Inv ∧
      ({ b with chunkList := l ++ [Chunk.new n] } : Buffer α).content = b.content ∧
      Room { b with chunkList := l ++ [Chunk.new n] } ⟨l.length, 0⟩ n := by
  have hpos := h.chunk_pos
  have hcontent : ({ b with chunkList := l ++ [Chunk.new n] } : Buffer α).content = b.content := by
    simpa [content] using hc
  refine ⟨⟨hl.snoc hdata (Chunk.new_ok (by omega)) (.inr rfl), ?_, hpos⟩, hcontent,
    l, Chunk.new n, rfl, rfl, ?_⟩
  · rw [hcontent, ← h.size_eq]
  · simp [Chunk.new]

/-- `space` returns a pointer to `len` free cells. -/
theorem space_spec {b : Buffer α} (h : b.Inv) (len : ℕ) :
    (b.space len).2.Inv ∧ (b.space len).2.content = b.content ∧
      Room (b.space len).2 (b.space len).1 len := by
  have hnew : (b.spaceNew len).2.Inv ∧ (b.spaceNew len).2.content = b.content ∧
      Room (b.spaceNew len).2 (b.spaceNew len).1 len := by
    obtain ⟨hok, hdata, hc⟩ := rdropWhile_spec h.chunks
    obtain ⟨hinv, hcontent, inner, f, hf, hq, hroom⟩ :=
      room_new h hok hdata hc (Nat.le_max_right len b.defaultChunkSize)
    exact ⟨hinv, hcontent, inner, f, hf, hq, by omega⟩
  unfold space
  rcases List.eq_nil_or_concat b.chunkList with hl | ⟨inner, f, hl⟩
  · rw [hl]
    exact hnew
  · rw [List.concat_eq_append] at hl
    rw [hl, List.getLast?_concat]
    simp only
    split_ifs with hfits
    · have hend := (h.chunks.ok f (by simp [hl])).end_le
      exact ⟨h, rfl, inner, f, hl, by simp, by omega⟩
    · exact hnew

/-- `spaceChunk` returns a pointer to at least one free cell. -/
theorem spaceChunk_spec {b : Buffer α} (h : b.Inv) :
    b.spaceChunk.2.Inv ∧ b.spaceChunk.2.content = b.content ∧
      Room b.spaceChunk.2 b.spaceChunk.1.1 b.spaceChunk.1.2 ∧ 1 ≤ b.spaceChunk.1.2 := by
  unfold spaceChunk
  rcases List.eq_nil_or_concat b.chunkList with hl | ⟨inner, f, hl⟩
  · rw [hl]
    obtain ⟨hinv, hcontent, hroom⟩ :=
      room_new h h.chunks (by simp [hl]) rfl (le_refl b.defaultChunkSize)
    exact ⟨hinv, hcontent, hroom, h.chunk_pos⟩
  · rw [List.concat_eq_append] at hl
    rw [hl, List.getLast?_concat]
    have hf := h.chunks.ok f (by simp [hl])
    have hend := hf.end_le
    simp only
    split_ifs with hfree
    · exact ⟨h, rfl, ⟨inner, f, hl, by simp, by simp only; omega⟩, hfree⟩
    · -- the front chunk is full, hence holds data
      have hdata : ∀ ch ∈ b.chunkList, ch.offset < ch.end_ := by
        intro ch hch
        have hsnoc := chunksOk_snoc.1 (hl ▸ h.chunks)
        rw [hl] at hch
        rcases List.mem_append.1 hch with hch | hch
        · exact (hsnoc.1 ch hch).2
        · rw [List.mem_singleton.1 hch]
          have := hsnoc.2.2
          have := hf.cap_pos
          omega
      obtain ⟨hinv, hcontent, hroom⟩ :=
        room_new h h.chunks hdata rfl (le_refl b.defaultChunkSize)
      exact ⟨hinv, hcontent, hroom, h.chunk_pos⟩

omit [Inhabited α] in
/-- Writing into free cells and calling `spaceHaveSeted` appends what was written. -/
theorem fill_spec {b : Buffer α} (h : b.Inv) {q : Ptr} {n : ℕ} (hroom : Room b q n)
    {bs : List α} (hbs : bs.length ≤ n) :
    ∃ b₁ b₂, b.store q bs = some b₁ ∧ b₁.spaceHaveSeted bs.length = .ok b₂ ∧ b₂.Inv ∧
      b₂.content = b.content ++ bs := by
  obtain ⟨inner, f, hl, rfl, hfree⟩ := hroom
  have hsnoc := chunksOk_snoc.1 (hl ▸ h.chunks)
  have hlive := Chunk.live_fill hsnoc.2.1 bs
  have hoff := hsnoc.2.1.offset_le
  have hfront := hsnoc.2.2
  have hget : b.chunkList[inner.length]? = some f := by simp [hl]
  refine ⟨{ b with chunkList := inner ++ [{ f with p := Memory.store f.p f.end_ bs }] },
    ⟨b.size + bs.length, b.defaultChunkSize, inner ++ [⟨Memory.store f.p f.end_ bs, f.offset,
      f.end_ + bs.length, f.cap⟩]⟩, ?_, ?_, ⟨chunksOk_snoc.2 ⟨hsnoc.1, ⟨?_, ?_, ?_⟩, ?_⟩, ?_, ?_⟩, ?_⟩
  · simp only [store, hget]
    rw [if_pos (by omega), hl, List.set_append_right _ _ le_rfl, Nat.sub_self, List.set_cons_zero]
  · simp [spaceHaveSeted]
  · simp only
    omega
  · simp only
    omega
  · exact hsnoc.2.1.cap_pos
  · simp only
    omega
  · simp only [content, contentOf_append, contentOf_cons, contentOf_nil, hlive, h.size_eq, hl,
      List.length_append, List.length_nil]
    omega
  · exact h.chunk_pos
  · simp only [content, contentOf_append, contentOf_cons, contentOf_nil, hlive, hl,
      List.append_nil, List.append_assoc]

/-! ### `operator[]` and `swap` -/

theorem indexLoop_spec {i cur : ℕ} {l : List (Chunk α)} (h : ∀ ch ∈ l, ch.offset ≤ ch.end_)
    (hcur : cur ≤ i) (hi : i - cur < (contentOf l).length) :
    (contentOf l)[i - cur]? = some (indexLoop i cur l) := by
  induction l generalizing cur with
  | nil => simp at hi
  | cons ch rest ih =>
    have hch := h ch (by simp)
    rw [contentOf_cons, List.length_append, Chunk.length_live] at hi
    unfold indexLoop
    split_ifs with hin
    · rw [contentOf_cons, List.getElem?_append_left (by rw [Chunk.length_live]; omega), Chunk.live,
        Memory.getElem?_load, if_pos (by omega), Nat.add_comm]
    · rw [contentOf_cons, List.getElem?_append_right (by rw [Chunk.length_live]; omega),
        Chunk.length_live, Nat.sub_sub]
      exact ih (fun c hc => h c (by simp [hc])) (by omega) (by omega)

/-- `b[i]` is byte `i` of the content. -/
theorem index_spec {b : Buffer α} (h : b.Inv) {i : ℕ} (hi : i < b.size) :
    b.content[i]? = some (b.index i) := by
  rw [h.size_eq] at hi
  exact indexLoop_spec (fun ch hch => (h.chunks.ok ch hch).offset_le) (Nat.zero_le i) hi

end Buffer
end NetService
