import NetService.Buffer.Spec
import NetService.Lib.LTS

/-!
# Calls on `tl::buffer` with any arguments

Two buffers and every public operation that changes one, with whatever argument it accepts: a
default chunk size of zero, `data` of any length, `space` and `spaceChunk` that nothing is written
to.  `spaceHaveSeted` is called with as many bytes as the front chunk has room for.  `data` makes a
step only when it returns.

`Laid` is what all of that leaves true: `offset ≤ end_ ≤ cap` in each chunk, and `size` is the
length of the content.  As long as the default chunk size is not set to zero, the representation
invariant `Inv` is kept as well.
-/

namespace NetService

variable {α : Type}

/-- The live cells of a chunk lie in its block. -/
structure Chunk.Fits (ch : Chunk α) : Prop where
  offset_le : ch.offset ≤ ch.end_
  end_le : ch.end_ ≤ ch.cap

theorem Chunk.Ok.fits {ch : Chunk α} (h : ch.Ok) : ch.Fits := ⟨h.offset_le, h.end_le⟩

theorem Chunk.new_fits [Inhabited α] (len : ℕ) : (Chunk.new len : Chunk α).Fits :=
  ⟨le_rfl, Nat.zero_le _⟩

/-- Where the live cells of a chunk are. -/
def Chunk.bounds (ch : Chunk α) : ℕ × ℕ × ℕ := (ch.offset, ch.end_, ch.cap)

namespace Buffer

/-! ### The calls -/

/-- The loop of `operator[]`, for a value assigned to what it returns. -/
def assignLoop (i : ℕ) (v : α) : ℕ → List (Chunk α) → List (Chunk α)
  | _, [] => [] -- the reference is to `todo`
  | cur, it :: rest =>
      if i < cur + it.end_ - it.offset then
        { it with p := Function.update it.p (i - cur + it.offset) v } :: rest
      else it :: assignLoop i v (cur + (it.end_ - it.offset)) rest

/-- `b[i] = v` -/
def assign (b : Buffer α) (i : ℕ) (v : α) : Buffer α :=
  { b with chunkList := assignLoop i v 0 b.chunkList }

/-- The calls that change a buffer. -/
inductive Op (α : Type)
  | push (data : List α)
  | drain (len : ℕ)
  | data (len : ℕ)
  | space (len : ℕ)
  | spaceChunk
  /-- `bs` is written to the free cells of the front chunk and reported -/
  | spaceHaveSeted (bs : List α)
  | assign (i : ℕ) (v : α)
  | setDefaultChunkSize (size : ℕ)

/-- A call on one of two buffers, or `swap` between them. -/
inductive Act (α : Type)
  | op (i : Bool) (o : Op α)
  | swap

/-- The default chunk size is not set to zero. -/
def Act.Sized : Act α → Prop
  | .op _ (.setDefaultChunkSize size) => 1 ≤ size
  | _ => True

instance : (a : Act α) → Decidable a.Sized
  | .op _ (.setDefaultChunkSize size) => inferInstanceAs (Decidable (1 ≤ size))
  | .op _ (.push _) | .op _ (.drain _) | .op _ (.data _) | .op _ (.space _) | .op _ .spaceChunk
  | .op _ (.spaceHaveSeted _) | .op _ (.assign _ _) | .swap => inferInstanceAs (Decidable True)

section Calls

variable [Inhabited α]

/-- What a call that returns leaves. -/
inductive Op.Makes (b : Buffer α) : Op α → Buffer α → Prop
  | push (d : List α) : Makes b (.push d) (b.push d).2
  | drain (len : ℕ) : Makes b (.drain len) (b.drain len).2
  | data {len fuel : ℕ} {q : Option Ptr} {b' : Buffer α} :
      b.data fuel len = some (.ok (q, b')) → Makes b (.data len) b'
  | space (len : ℕ) : Makes b (.space len) (b.space len).2
  | spaceChunk : Makes b .spaceChunk b.spaceChunk.2
  | spaceHaveSeted {bs : List α} {q : Ptr} {b₁ b₂ : Buffer α} : Room b q bs.length →
      b.store q bs = some b₁ → b₁.spaceHaveSeted bs.length = .ok b₂ →
      Makes b (.spaceHaveSeted bs) b₂
  | assign (i : ℕ) (v : α) : Makes b (.assign i v) (b.assign i v)
  | setDefaultChunkSize (size : ℕ) : Makes b (.setDefaultChunkSize size) (b.setDefaultChunkSize size)

/-- Two buffers that start empty, and any calls on them. -/
def callSys (α : Type) [Inhabited α] : LTS (Bool → Buffer α) (Act α) where
  init w := w = fun _ => {}
  step w a w' :=
    match a with
    | .op i o => ∃ b, o.Makes (w i) b ∧ w' = Function.update w i b
    | .swap => w' = fun i => if i then ((w false).swap (w true)).2 else ((w false).swap (w true)).1

end Calls

/-! ### The layout -/

/-- What any call keeps. -/
structure Laid (b : Buffer α) : Prop where
  fits : ∀ ch ∈ b.chunkList, ch.Fits
  size_eq : b.size = b.content.length

theorem Inv.laid {b : Buffer α} (h : b.Inv) : b.Laid :=
  ⟨fun ch hch => (h.chunks.ok ch hch).fits, h.size_eq⟩

/-- Replacing the front chunk. -/
theorem fits_snoc {l : List (Chunk α)} {f : Chunk α} (hl : ∀ ch ∈ l, ch.Fits) (hf : f.Fits) :
    ∀ ch ∈ l ++ [f], ch.Fits := by
  intro ch hch
  rcases List.mem_append.1 hch with hch | hch
  · exact hl ch hch
  · exact List.mem_singleton.1 hch ▸ hf

/-- The layout of a buffer with a front chunk. -/
theorem laid_snoc {size dflt : ℕ} {l : List (Chunk α)} {f : Chunk α} :
    Laid ⟨size, dflt, l ++ [f]⟩ ↔
      (∀ ch ∈ l, ch.Fits) ∧ f.Fits ∧ size = (contentOf l).length + (f.end_ - f.offset) := by
  constructor
  · rintro ⟨hfits, hsize⟩
    refine ⟨fun ch hch => hfits ch (by simp [hch]), hfits f (by simp), ?_⟩
    simpa [content] using hsize
  · rintro ⟨hl, hf, hsize⟩
    exact ⟨fits_snoc hl hf, by simpa [content] using hsize⟩

theorem drainLoop_laid {len drainLen : ℕ} {l : List (Chunk α)} (h : ∀ ch ∈ l, ch.Fits)
    (hle : drainLen ≤ len) :
    (∀ ch ∈ (drainLoop len drainLen l).2, ch.Fits) ∧
      (drainLoop len drainLen l).1 + (contentOf (drainLoop len drainLen l).2).length =
        drainLen + (contentOf l).length := by
  induction l generalizing drainLen with
  | nil => exact ⟨h, rfl⟩
  | cons ch rest ih =>
    have hch := h ch (by simp)
    have hrest : ∀ c ∈ rest, c.Fits := fun c hc => h c (by simp [hc])
    unfold drainLoop
    split_ifs with hlt hpop
    · obtain ⟨hfits, hsum⟩ := ih hrest (show drainLen + (ch.end_ - ch.offset) ≤ len by omega)
      refine ⟨hfits, ?_⟩
      rw [hsum, contentOf_cons, List.length_append, Chunk.length_live]
      omega
    · have hoff := hch.offset_le
      have hend := hch.end_le
      refine ⟨fun c hc => ?_, ?_⟩
      · rcases List.mem_cons.1 hc with rfl | hc
        · refine ⟨?_, hend⟩
          simp only
          omega
        · exact hrest c hc
      · simp only [contentOf_cons, List.length_append, Chunk.length_live]
        omega
    · exact ⟨h, rfl⟩

theorem Laid.drain {b : Buffer α} (h : b.Laid) (len : ℕ) : (b.drain len).2.Laid := by
  obtain ⟨hfits, hsum⟩ := drainLoop_laid h.fits (Nat.zero_le len)
  refine ⟨hfits, ?_⟩
  have hsize := h.size_eq
  show b.size - (drainLoop len 0 b.chunkList).1 = (contentOf (drainLoop len 0 b.chunkList).2).length
  unfold content at hsize
  omega

/-- Assigning to `b[i]` changes byte `i` of the content. -/
theorem contentOf_assignLoop {i cur : ℕ} {v : α} {l : List (Chunk α)} (h : ∀ ch ∈ l, ch.Fits)
    (hcur : cur ≤ i) : contentOf (assignLoop i v cur l) = (contentOf l).set (i - cur) v := by
  induction l generalizing cur with
  | nil => rfl
  | cons ch rest ih =>
    have hoff := (h ch (by simp)).offset_le
    unfold assignLoop
    split_ifs with hin
    · rw [contentOf_cons, contentOf_cons, List.set_append_left _ _ (by rw [Chunk.length_live]; omega)]
      congr 1
      unfold Chunk.live
      simp only
      rw [Nat.add_comm (i - cur), Memory.load_update]
    · rw [contentOf_cons, contentOf_cons, List.set_append_right _ _ (by rw [Chunk.length_live]; omega),
        ih (fun c hc => h c (by simp [hc])) (by omega), Chunk.length_live, Nat.sub_sub]

theorem bounds_assignLoop (i cur : ℕ) (v : α) (l : List (Chunk α)) :
    (assignLoop i v cur l).map Chunk.bounds = l.map Chunk.bounds := by
  induction l generalizing cur with
  | nil => rfl
  | cons ch rest ih =>
    unfold assignLoop
    split_ifs with hin
    · rfl
    · rw [List.map_cons, List.map_cons, ih]

/-- A property of the bounds that every chunk has is kept where the bounds are. -/
theorem forall_of_bounds {P : Chunk α → Prop} (hP : ∀ c c' : Chunk α, c.bounds = c'.bounds → P c → P c')
    {l l' : List (Chunk α)} (hbounds : l'.map Chunk.bounds = l.map Chunk.bounds)
    (h : ∀ ch ∈ l, P ch) : ∀ ch ∈ l', P ch := by
  intro ch hch
  have hmem : ch.bounds ∈ l.map Chunk.bounds := hbounds ▸ List.mem_map_of_mem hch
  obtain ⟨c, hc, heq⟩ := List.mem_map.1 hmem
  exact hP c ch heq (h c hc)

theorem Laid.assign {b : Buffer α} (h : b.Laid) (i : ℕ) (v : α) : (b.assign i v).Laid := by
  refine ⟨forall_of_bounds (l := b.chunkList) ?_ (bounds_assignLoop i 0 v _) h.fits, ?_⟩
  · intro c c' heq hc
    simp only [Chunk.bounds, Prod.mk.injEq] at heq
    obtain ⟨hoff, hend, hcap⟩ := heq
    exact ⟨hoff ▸ hend ▸ hc.offset_le, hend ▸ hcap ▸ hc.end_le⟩
  · have hcontent := contentOf_assignLoop (i := i) (v := v) h.fits (Nat.zero_le i)
    have hsize := h.size_eq
    unfold content at hsize ⊢
    show b.size = (contentOf (assignLoop i v 0 b.chunkList)).length
    rw [hcontent, List.length_set, hsize]

theorem Laid.fillFront {b : Buffer α} (h : b.Laid) (data : List α) : (b.fillFront data).2.Laid := by
  obtain ⟨size, dflt, l⟩ := b
  rcases List.eq_nil_or_concat l with rfl | ⟨inner, f, rfl⟩
  · exact h
  rw [List.concat_eq_append] at h ⊢
  obtain ⟨hl, hf, hsize⟩ := laid_snoc.1 h
  have hoff := hf.offset_le
  have hend := hf.end_le
  simp only [Buffer.fillFront, List.getLast?_concat, List.dropLast_concat]
  split_ifs with hcap
  · refine laid_snoc.2 ⟨hl, ⟨?_, ?_⟩, ?_⟩
    all_goals
      simp only
      omega
  · exact h

section Laid

variable [Inhabited α]

theorem Laid.push {b : Buffer α} (h : b.Laid) (data : List α) : (b.push data).2.Laid := by
  unfold Buffer.push
  simp only
  split_ifs with hleft
  · exact h.fillFront data
  · have hfill := h.fillFront data
    refine ⟨fits_snoc hfill.fits ⟨Nat.zero_le _, ?_⟩, ?_⟩
    · simp only [Chunk.new]
      split_ifs <;> omega
    · have hsize := hfill.size_eq
      simp only [pushChunk, content, contentOf_append, contentOf_cons, contentOf_nil,
        List.length_append, Chunk.length_live, List.length_nil] at hsize ⊢
      simp only [Chunk.new]
      omega

omit [Inhabited α] in
/-- The chunks that `space` drops hold nothing. -/
theorem contentOf_rdropWhile (l : List (Chunk α)) :
    contentOf (l.rdropWhile fun ch => decide (ch.offset = ch.end_)) = contentOf l := by
  induction l using List.reverseRecOn with
  | nil => rfl
  | append_singleton l ch ih =>
    by_cases hempty : ch.offset = ch.end_
    · have hlive : ch.live = [] := List.eq_nil_of_length_eq_zero (by simp [hempty])
      rw [List.rdropWhile_concat_pos _ _ _ (by simpa using hempty), ih]
      simp [hlive]
    · rw [List.rdropWhile_concat_neg _ _ _ (by simpa using hempty)]

theorem Laid.spaceNew {b : Buffer α} (h : b.Laid) (len : ℕ) : (b.spaceNew len).2.Laid := by
  refine ⟨fits_snoc (fun ch hch => ?_) (Chunk.new_fits _), ?_⟩
  · exact h.fits ch ((List.rdropWhile_prefix _ _).subset hch)
  · have hsize := h.size_eq
    simp only [Buffer.spaceNew, content, contentOf_append, contentOf_rdropWhile, contentOf_cons,
      contentOf_nil, List.length_append, Chunk.length_live, List.length_nil] at hsize ⊢
    exact hsize

theorem Laid.space {b : Buffer α} (h : b.Laid) (len : ℕ) : (b.space len).2.Laid := by
  unfold Buffer.space
  cases b.chunkList.getLast? with
  | none => exact h.spaceNew len
  | some ch =>
    simp only
    split_ifs
    · exact h
    · exact h.spaceNew len

theorem Laid.spaceChunk {b : Buffer α} (h : b.Laid) : b.spaceChunk.2.Laid := by
  have hnew : b.spaceChunkNew.2.Laid := by
    refine ⟨fits_snoc h.fits (Chunk.new_fits _), ?_⟩
    have hsize := h.size_eq
    simp only [spaceChunkNew, content, contentOf_append, contentOf_cons, contentOf_nil,
      List.length_append, Chunk.length_live, List.length_nil] at hsize ⊢
    exact hsize
  unfold Buffer.spaceChunk
  cases b.chunkList.getLast? with
  | none => exact hnew
  | some ch =>
    simp only
    split_ifs
    · exact h
    · exact hnew

omit [Inhabited α] in
theorem Laid.spaceHaveSeted {b b₁ b₂ : Buffer α} {bs : List α} {q : Ptr} (h : b.Laid)
    (hroom : Room b q bs.length) (hstore : b.store q bs = some b₁)
    (hset : b₁.spaceHaveSeted bs.length = .ok b₂) : b₂.Laid := by
  obtain ⟨inner, f, hlist, rfl, hfree⟩ := hroom
  obtain ⟨size, dflt, l⟩ := b
  simp only at hlist
  subst hlist
  obtain ⟨hl, hf, hsize⟩ := laid_snoc.1 h
  have hoff := hf.offset_le
  simp only [store, List.getElem?_concat_length] at hstore
  rw [if_pos (by omega), Option.some.injEq, List.set_append_right _ _ le_rfl, Nat.sub_self,
    List.set_cons_zero] at hstore
  subst hstore
  simp only [Buffer.spaceHaveSeted, List.getLast?_concat, List.dropLast_concat,
    Except.ok.injEq] at hset
  subst hset
  refine laid_snoc.2 ⟨hl, ⟨?_, ?_⟩, ?_⟩
  all_goals
    simp only
    omega

end Laid

end Buffer
end NetService
