import NetService.Buffer.Data

/-!
# Loops that use up a `tl::buffer`

`Handler` takes what a buffer holds out of it in loops of one form: while `size()` is not zero, look
at `dataChunk`, use the bytes, and `drain` them.  `visitBody` is one pass of such a loop, for any use
of the bytes.  A pass makes progress because `dataChunk` never returns an empty slice: an empty chunk
can only stand at the front, so that the back chunk has bytes whenever there are any
(`reachable_chunks`).  So the loop ends, and its slices put together are the content
(`visitLoop_spec`).
-/

namespace NetService
namespace Buffer

variable {α : Type}

/-! ### The loop -/

section Visit

variable {β : Type} (use : β → List α → β)

/-- One pass of `while (b.size()) { b.dataChunk(p, n); use; b.drain(n); }`, on the buffer and
whatever `use` works on. -/
def visitBody (s : Buffer α × β) : Loop.Pass (Buffer α × β) (Buffer α × β) Fault :=
  if s.1.size = 0 then .done s
  else
    match s.1.dataChunk with
    | .error e => .fault e
    | .ok (q, n) =>
        match s.1.load q n with
        | none => .fault .outOfBlock
        | some slice => .next ((s.1.drain n).2, use s.2 slice)

theorem visitBody_empty {b : Buffer α} (h : b.Inv) (hnil : b.content = []) (x : β) :
    visitBody use (b, x) = .done (b, x) := by
  apply if_pos
  rw [h.size_eq, hnil]
  rfl

/-- A pass uses a non-empty slice from the front of the content, and drops it. -/
theorem visitBody_next {b : Buffer α} (h : b.Inv) (hne : b.content ≠ []) (x : β) :
    ∃ slice b', visitBody use (b, x) = .next (b', use x slice) ∧ slice ≠ [] ∧ b'.Inv ∧
      b.content = slice ++ b'.content := by
  have hsize : 0 < b.size := by
    rw [h.size_eq]
    exact List.length_pos_iff.2 hne
  obtain ⟨q, n, hchunk, hpos, hle, hload⟩ := dataChunk_spec h hsize
  obtain ⟨-, hinv, hrest⟩ := drain_spec h n
  refine ⟨b.content.take n, (b.drain n).2, ?_, ?_, hinv, ?_⟩
  · unfold visitBody
    simp only [if_neg hsize.ne', hchunk, hload]
  · intro hnil
    rcases List.take_eq_nil_iff.1 hnil with hzero | hnil
    · omega
    · exact hne hnil
  · rw [hrest, List.take_append_drop]

/-- The loop ends with an empty buffer, having used slices that make up the content. -/
theorem visitLoop_spec {b : Buffer α} (h : b.Inv) (x : β) :
    ∃ (slices : List (List α)) (b' : Buffer α),
      Loop.Ends (visitBody use) (b, x) (.ok (b', slices.foldl use x)) ∧ slices.flatten = b.content ∧
        (∀ slice ∈ slices, slice ≠ []) ∧ b'.Inv ∧ b'.content = [] := by
  induction hn : b.content.length using Nat.strong_induction_on generalizing b x with
  | _ n ih =>
    by_cases hnil : b.content = []
    · exact ⟨[], b, .done (visitBody_empty use h hnil x), hnil.symm, by simp, h, hnil⟩
    · obtain ⟨slice, b₁, hnext, hne, h₁, hcontent⟩ := visitBody_next use h hnil x
      have hlt : b₁.content.length < n := by
        have hpos := List.length_pos_iff.2 hne
        rw [← hn, hcontent, List.length_append]
        omega
      obtain ⟨slices, b', hends, hflat, hslices, h', hnil'⟩ := ih _ hlt h₁ (use x slice) rfl
      refine ⟨slice :: slices, b', hends.next hnext, ?_, ?_, h', hnil'⟩
      · rw [List.flatten_cons, hflat, hcontent]
      · exact List.forall_mem_cons.2 ⟨hne, hslices⟩

end Visit

/-! ### Every reachable state -/

theorem length_contentOf (l : List (Chunk α)) :
    (contentOf l).length = (l.map fun ch => ch.end_ - ch.offset).sum := by
  induction l with
  | nil => rfl
  | cons ch l ih => rw [contentOf_cons, List.length_append, ih, Chunk.length_live, List.map_cons,
      List.sum_cons]

variable [Inhabited α]

/-- In every state reached with default chunk sizes from one on: the live cells of each chunk lie in
its block, which is not empty, `size` is the sum of their numbers, and a chunk without live cells
stands at the front, with `end_` zero.  So `dataChunk` returns a slice from the start of the content,
with something in it if there is anything, and a loop that takes the buffer's slices, whatever it
does with them, ends and has then seen each byte of the content once and in order. -/
theorem reachable_chunks {w : Bool → Buffer α} (h : (sizedSys α).Reachable w) (i : Bool) :
    (∀ ch ∈ (w i).chunkList, ch.offset ≤ ch.end_ ∧ ch.end_ ≤ ch.cap ∧ 1 ≤ ch.cap) ∧
      (w i).size = ((w i).chunkList.map fun ch => ch.end_ - ch.offset).sum ∧
      (∀ ch ∈ (w i).chunkList.dropLast, ch.offset < ch.end_) ∧
      (∀ ch, (w i).chunkList.getLast? = some ch → ch.offset < ch.end_ ∨ ch.end_ = 0) ∧
      (0 < (w i).size → ∃ q n slice, (w i).dataChunk = .ok (q, n) ∧ 1 ≤ n ∧
        (w i).load q n = some slice ∧ slice.length = n ∧ slice <+: (w i).content) ∧
      ∀ (β : Type) (use : β → List α → β) (x : β), ∃ (slices : List (List α)) (b' : Buffer α),
        Loop.Ends (visitBody use) (w i, x) (.ok (b', slices.foldl use x)) ∧
          slices.flatten = (w i).content ∧ (∀ slice ∈ slices, slice ≠ []) ∧ b'.content = [] := by
  have hinv := reachable_inv h i
  refine ⟨?_, ?_, hinv.chunks.inner, hinv.chunks.front, ?_, ?_⟩
  · intro ch hch
    have hok := hinv.chunks.ok ch hch
    exact ⟨hok.offset_le, hok.end_le, hok.cap_pos⟩
  · rw [hinv.size_eq]
    exact length_contentOf _
  · intro hsize
    obtain ⟨q, n, hchunk, hpos, hle, hload⟩ := dataChunk_spec hinv hsize
    refine ⟨q, n, _, hchunk, hpos, hload, ?_, List.take_prefix _ _⟩
    rw [List.length_take, ← hinv.size_eq]
    exact Nat.min_eq_left hle
  · intro β use x
    obtain ⟨slices, b', hends, hflat, hslices, -, hnil⟩ := visitLoop_spec use hinv x
    exact ⟨slices, b', hends, hflat, hslices, hnil⟩

/-- An empty chunk in front of two bytes, left by `spaceChunk`. -/
theorem reachable_chunks_sample :
    ∃ w : Bool → Buffer UInt8, (sizedSys UInt8).Reachable w ∧ (w false).chunkList.length = 2 ∧
      ∃ (slices : List (List UInt8)) (b' : Buffer UInt8),
        Loop.Ends (visitBody fun n slice => n + slice.length) (w false, 0)
          (.ok (b', slices.foldl (fun n slice => n + slice.length) 0)) ∧
        slices.flatten = [1, 2] ∧ b'.content = [] := by
  have hrun : ∃ w : Bool → Buffer UInt8, (sizedSys UInt8).Reachable w ∧
      (w false).chunkList.length = 2 ∧ (w false).content = [1, 2] :=
    ⟨_, ⟨_, [.op false (.setDefaultChunkSize 2), .op false (.push [1, 2]), .op false .spaceChunk],
      rfl, .cons ⟨by decide, _, .setDefaultChunkSize 2, rfl⟩
        (.cons ⟨by decide, _, .push _, rfl⟩ (.cons ⟨by decide, _, .spaceChunk, rfl⟩ (.nil _)))⟩,
      by decide, by decide⟩
  obtain ⟨w, hw, htwo, hcontent⟩ := hrun
  obtain ⟨-, -, -, -, -, hvisits⟩ := reachable_chunks hw false
  obtain ⟨slices, b', hends, hflat, -, hnil⟩ := hvisits ℕ (fun n slice => n + slice.length) 0
  exact ⟨w, hw, htwo, slices, b', hends, hflat.trans hcontent, hnil⟩

end Buffer
end NetService
