import NetService.Buffer.Calls
import NetService.Buffer.Fifo

/-!
# `buffer::data` in every state

The copying loop of `data` takes bytes from the back chunk and drops a chunk when it has taken all
of it.  A back chunk without bytes is neither copied from nor dropped, so that the loop goes round
for ever when it meets one before it has enough (`MeetsEmpty`); otherwise it ends
(`dataLoop_ends_iff`).

* `data_linearises`: with default chunk sizes from 1 on, the first `len` bytes become contiguous and
  nothing else changes;
* `data_total_iff`: with any calls before it, when `data` returns.
-/

namespace NetService
namespace Buffer

variable {α : Type}

/-- From the back on, a chunk without bytes comes before there are `n` bytes. -/
def MeetsEmpty : List (Chunk α) → ℕ → Prop
  | [], _ => False
  | ch :: rest, n =>
      0 < n ∧ (ch.end_ ≤ ch.offset ∨ MeetsEmpty rest (n - (ch.end_ - ch.offset)))

instance decidableMeetsEmpty : (l : List (Chunk α)) → (n : ℕ) → Decidable (MeetsEmpty l n)
  | [], _ => .isFalse id
  | ch :: rest, n =>
      have := decidableMeetsEmpty rest (n - (ch.end_ - ch.offset))
      inferInstanceAs (Decidable (_ ∧ (_ ∨ _)))

theorem MeetsEmpty.pos {l : List (Chunk α)} {n : ℕ} (h : MeetsEmpty l n) : 0 < n := by
  cases l with
  | nil => exact h.elim
  | cons ch rest => exact h.1

/-! ### The copying loop -/

/-- The loop, with `size` bytes copied or still in the chunks. -/
structure Copying (len size : ℕ) (s : DataLoop α) : Prop where
  copied_le : s.copied ≤ len
  fits : ∀ ch ∈ s.chunks, ch.Fits
  size_eq : s.copied + (contentOf s.chunks).length = size

variable {len size : ℕ}

/-- A pass at a back chunk with bytes copies from it: all of it, or as much as is missing. -/
theorem dataBody_copies {copied : ℕ} {newp : ℕ → α} {ch : Chunk α} {rest : List (Chunk α)}
    (h : Copying len size ⟨copied, newp, ch :: rest⟩) (hlt : copied < len)
    (hdata : ch.offset < ch.end_) :
    ∃ s', dataBody len ⟨copied, newp, ch :: rest⟩ = .next s' ∧ Copying len size s' ∧
      copied < s'.copied ∧
      (MeetsEmpty s'.chunks (len - s'.copied) ↔ MeetsEmpty (ch :: rest) (len - copied)) := by
  obtain ⟨hle, hfits, hsize⟩ := h
  have hch := hfits ch (by simp)
  have hend := hch.end_le
  have hrest : ∀ c ∈ rest, c.Fits := fun c hc => hfits c (by simp [hc])
  simp only [contentOf_cons, List.length_append, Chunk.length_live] at hsize
  obtain ⟨n, hn⟩ : ∃ n, n = min (ch.end_ - ch.offset) (len - copied) := ⟨_, rfl⟩
  obtain ⟨newp', hnext, -⟩ := dataBody_cons newp rest hlt hdata hn
  -- whether an empty chunk is met depends only on what is missing, so a copy does not change it
  refine ⟨_, hnext, ⟨?_, ?_, ?_⟩, ?_, ?_⟩
  · show copied + n ≤ len
    omega
  · split_ifs with hpop
    · exact hrest
    · intro c hc
      rcases List.mem_cons.1 hc with rfl | hc
      · refine ⟨?_, hend⟩
        show ch.offset + n ≤ ch.end_
        omega
      · exact hrest c hc
  · split_ifs with hpop
    · show copied + n + (contentOf rest).length = size
      omega
    · simp only [contentOf_cons, List.length_append, Chunk.length_live]
      omega
  · show copied < copied + n
    omega
  · split_ifs with hpop
    · -- the chunk is dropped, and the others give what it did not
      have hsub : len - (copied + n) = len - copied - (ch.end_ - ch.offset) := by omega
      show MeetsEmpty rest (len - (copied + n)) ↔ _
      rw [hsub]
      constructor
      · exact fun hmeets => ⟨by omega, .inr hmeets⟩
      · exact fun hmeets => hmeets.2.resolve_left (by omega)
    · -- the chunk has enough
      have hzero : len - (copied + n) = 0 := by omega
      constructor
      · intro hmeets
        have := hmeets.pos
        simp only [hzero] at this
        omega
      · intro hmeets
        have := (hmeets.2.resolve_left (by omega)).pos
        omega

/-- A pass at a back chunk without bytes changes nothing. -/
theorem dataBody_empty {copied : ℕ} {newp : ℕ → α} {ch : Chunk α} {rest : List (Chunk α)}
    (hlt : copied < len) (hempty : ch.end_ ≤ ch.offset) :
    dataBody len ⟨copied, newp, ch :: rest⟩ = .next ⟨copied, newp, ch :: rest⟩ := by
  simp [dataBody, hlt, not_lt.2 hempty]

/-- A loop that will meet a chunk without bytes goes round, and will still meet it. -/
theorem dataBody_stuck {s : DataLoop α} (h : Copying len size s)
    (hstuck : MeetsEmpty s.chunks (len - s.copied)) :
    ∃ s', dataBody len s = .next s' ∧ Copying len size s' ∧
      MeetsEmpty s'.chunks (len - s'.copied) := by
  obtain ⟨copied, newp, chunks⟩ := s
  have hlt : copied < len := by
    have := hstuck.pos
    simp only at this
    omega
  cases chunks with
  | nil => exact hstuck.elim
  | cons ch rest =>
    by_cases hdata : ch.offset < ch.end_
    · obtain ⟨s', hnext, hs', -, hmeets⟩ := dataBody_copies h hlt hdata
      exact ⟨s', hnext, hs', hmeets.2 hstuck⟩
    · exact ⟨_, dataBody_empty hlt (not_lt.1 hdata), h, hstuck⟩

/-- Otherwise a pass copies something or ends the loop, with `len` bytes copied. -/
theorem dataBody_free {s : DataLoop α} (h : Copying len size s) (hlen : len ≤ size)
    (hfree : ¬ MeetsEmpty s.chunks (len - s.copied)) :
    (∃ s', dataBody len s = .next s' ∧ Copying len size s' ∧
        ¬ MeetsEmpty s'.chunks (len - s'.copied) ∧ s.copied < s'.copied) ∨
      dataBody len s = .done s ∧ s.copied = len := by
  obtain ⟨copied, newp, chunks⟩ := s
  have hle : copied ≤ len := h.copied_le
  by_cases hlt : copied < len
  · cases chunks with
    | nil =>
      have hsize : copied + 0 = size := h.size_eq
      omega
    | cons ch rest =>
      have hdata : ch.offset < ch.end_ := by
        by_contra hempty
        refine hfree ⟨?_, .inl (not_lt.1 hempty)⟩
        show 0 < len - copied
        omega
      obtain ⟨s', hnext, hs', hmore, hmeets⟩ := dataBody_copies h hlt hdata
      exact .inl ⟨s', hnext, hs', fun hm => hfree (hmeets.1 hm), hmore⟩
  · refine .inr ⟨by simp [dataBody, hlt], ?_⟩
    show copied = len
    omega

/-- The loop ends exactly if it does not meet a chunk without bytes before it has enough, and then
with `len` bytes copied. -/
theorem dataLoop_ends_iff {s : DataLoop α} (h : Copying len size s) (hlen : len ≤ size) :
    (∃ out, Loop.Ends (dataBody len) s out) ↔ ¬ MeetsEmpty s.chunks (len - s.copied) := by
  refine Loop.ends_iff (dataBody len) (Copying len size)
    (fun s => MeetsEmpty s.chunks (len - s.copied)) (fun s => len - s.copied) ?_ ?_ h
  · exact fun s hs hstuck => dataBody_stuck hs hstuck
  · intro s hs hfree s' hnext
    rcases dataBody_free hs hlen hfree with ⟨t, ht, hs', hfree', hmore⟩ | ⟨hdone, -⟩
    · cases ht.symm.trans hnext
      have := hs'.copied_le
      exact ⟨hs', hfree', by omega⟩
    · cases hdone.symm.trans hnext

/-- The loop does not come to an empty list, and ends with `len` bytes copied. -/
theorem dataLoop_result {s : DataLoop α} {out : Except Fault (DataLoop α)}
    (h : Copying len size s) (hlen : len ≤ size) (hends : Loop.Ends (dataBody len) s out) :
    ∃ s' : DataLoop α, out = .ok s' ∧ Copying len size s' ∧ s'.copied = len := by
  have hfree := (dataLoop_ends_iff h hlen).1 ⟨out, hends⟩
  refine Loop.Ends.of_invariant
    (fun s => Copying len size s ∧ ¬ MeetsEmpty s.chunks (len - s.copied))
    (fun out => ∃ s' : DataLoop α, out = .ok s' ∧ Copying len size s' ∧ s'.copied = len)
    ?_ ?_ ?_ ⟨h, hfree⟩ hends
  · rintro t t' ⟨ht, hfree⟩ hnext
    rcases dataBody_free ht hlen hfree with ⟨u, hu, ht', hfree', -⟩ | ⟨hdone, -⟩
    · cases hu.symm.trans hnext
      exact ⟨ht', hfree'⟩
    · cases hdone.symm.trans hnext
  · rintro t r ⟨ht, hfree⟩ hdone
    rcases dataBody_free ht hlen hfree with ⟨u, hu, -⟩ | ⟨hdone', hcopied⟩
    · cases hu.symm.trans hdone
    · cases hdone'.symm.trans hdone
      exact ⟨t, rfl, ht, hcopied⟩
  · rintro t e ⟨ht, hfree⟩ hfault
    rcases dataBody_free ht hlen hfree with ⟨u, hu, -⟩ | ⟨hdone, -⟩
    · cases hu.symm.trans hfault
    · cases hdone.symm.trans hfault

/-! ### A call of `data` -/

section Data

variable [Inhabited α]

/-- `data` returns, and has not called `back()` on an empty list. -/
def Returns (b : Buffer α) (len : ℕ) : Prop :=
  ∃ fuel q b', b.data fuel len = some (.ok (q, b'))

/-- There is not enough data, or a back chunk and no chunk without bytes before there are `len`. -/
def Serves (b : Buffer α) (len : ℕ) : Prop :=
  b.size < len ∨ b.chunkList ≠ [] ∧ ¬ MeetsEmpty b.chunkList len

instance (b : Buffer α) (len : ℕ) : Decidable (b.Serves len) :=
  inferInstanceAs (Decidable (_ ∨ (b.chunkList ≠ [] ∧ _)))

/-- `data` when chunks have to be merged: the loop decides. -/
theorem data_merges {b : Buffer α} {ch : Chunk α} {rest : List (Chunk α)}
    (hlist : b.chunkList = ch :: rest) (hsize : len ≤ b.size)
    (hback : ¬ len ≤ ch.end_ - ch.offset) (fuel : ℕ) :
    b.data fuel len =
      (Loop.iter (dataBody len) fuel ⟨0, fun _ => default, b.chunkList⟩).map
        (Except.map fun s =>
          (some ⟨0, 0⟩,
            { b with
              chunkList := { p := s.newp, offset := 0, end_ := len, cap := len } :: s.chunks })) := by
  unfold data
  rw [if_neg (not_lt.2 hsize), hlist]
  simp only
  rw [if_neg hback]

/-- Whatever it returns, `data` keeps the layout. -/
theorem Laid.data {b b' : Buffer α} (h : b.Laid) {fuel : ℕ} {q : Option Ptr}
    (hdata : b.data fuel len = some (.ok (q, b'))) : b'.Laid := by
  by_cases hsize : b.size < len
  · unfold Buffer.data at hdata
    rw [if_pos hsize] at hdata
    cases hdata
    exact h
  cases hlist : b.chunkList with
  | nil =>
    unfold Buffer.data at hdata
    rw [if_neg hsize, hlist] at hdata
    cases hdata
  | cons ch rest =>
    by_cases hback : len ≤ ch.end_ - ch.offset
    · unfold Buffer.data at hdata
      rw [if_neg hsize, hlist] at hdata
      simp only [hback, if_true] at hdata
      cases hdata
      exact h
    · rw [data_merges hlist (not_lt.1 hsize) hback] at hdata
      obtain ⟨out, hout, hmap⟩ := Option.map_eq_some_iff.1 hdata
      have hcopying : Copying len b.size (⟨0, fun _ => default, b.chunkList⟩ : DataLoop α) :=
        ⟨Nat.zero_le _, h.fits, by rw [Nat.zero_add]; exact h.size_eq.symm⟩
      obtain ⟨s, rfl, hs, hcopied⟩ := dataLoop_result hcopying (not_lt.1 hsize) ⟨fuel, hout⟩
      cases hmap
      refine ⟨fun c hc => ?_, ?_⟩
      · rcases List.mem_cons.1 hc with rfl | hc
        · exact ⟨Nat.zero_le _, le_rfl⟩
        · exact hs.fits c hc
      · have hsum := hs.size_eq
        simp only [content, contentOf_cons, List.length_append, Chunk.length_live]
        omega

theorem returns_iff_serves {b : Buffer α} (h : b.Laid) (len : ℕ) :
    b.Returns len ↔ b.Serves len := by
  -- in the order of the tests in `data`: too few bytes, no chunk, the back chunk, a new chunk
  by_cases hsize : b.size < len
  · refine ⟨fun _ => .inl hsize, fun _ => ⟨0, none, b, ?_⟩⟩
    unfold data
    rw [if_pos hsize]
  cases hlist : b.chunkList with
  | nil =>
    constructor
    · rintro ⟨fuel, q, b', hdata⟩
      unfold data at hdata
      rw [if_neg hsize, hlist] at hdata
      cases hdata
    · rintro (hlt | ⟨hne, -⟩)
      · exact absurd hlt hsize
      · exact absurd hlist hne
  | cons ch rest =>
    by_cases hback : len ≤ ch.end_ - ch.offset
    · -- the back chunk has enough
      constructor
      · refine fun _ => .inr ⟨by simp [hlist], fun hmeets => ?_⟩
        rw [hlist] at hmeets
        obtain ⟨hpos, hempty | hmore⟩ := hmeets
        · omega
        · have := hmore.pos
          omega
      · refine fun _ => ⟨0, some ⟨0, ch.offset⟩, b, ?_⟩
        unfold data
        rw [if_neg hsize, hlist]
        simp only [hback, if_true]
    · -- chunks are merged into a new one
      have hcopying : Copying len b.size (⟨0, fun _ => default, b.chunkList⟩ : DataLoop α) :=
        ⟨Nat.zero_le _, h.fits, by rw [Nat.zero_add]; exact h.size_eq.symm⟩
      have hends := dataLoop_ends_iff hcopying (not_lt.1 hsize)
      have hserves : b.Serves len ↔ ¬ MeetsEmpty b.chunkList len :=
        ⟨fun hs => (hs.resolve_left hsize).2, fun hm => .inr ⟨by simp [hlist], hm⟩⟩
      rw [hserves]
      refine Iff.trans ?_ hends
      constructor
      · rintro ⟨fuel, q, b', hdata⟩
        rw [data_merges hlist (not_lt.1 hsize) hback] at hdata
        obtain ⟨out, hout, -⟩ := Option.map_eq_some_iff.1 hdata
        exact ⟨out, fuel, hout⟩
      · rintro ⟨out, hout⟩
        obtain ⟨s, rfl, -⟩ := dataLoop_result hcopying (not_lt.1 hsize) hout
        obtain ⟨fuel, hiter⟩ := hout
        refine ⟨fuel, some ⟨0, 0⟩, { b with chunkList := ⟨s.newp, 0, len, len⟩ :: s.chunks }, ?_⟩
        rw [data_merges hlist (not_lt.1 hsize) hback, hiter]
        rfl

/-! ### The layout is kept -/

theorem Op.Makes.laid {b b' : Buffer α} {o : Op α} (h : b.Laid) (hmakes : o.Makes b b') :
    b'.Laid := by
  cases hmakes with
  | push d => exact h.push d
  | drain len => exact h.drain len
  | data hdata => exact h.data hdata
  | space len => exact h.space len
  | spaceChunk => exact h.spaceChunk
  | spaceHaveSeted hroom hstore hset => exact h.spaceHaveSeted hroom hstore hset
  | assign i v => exact h.assign i v
  | setDefaultChunkSize size => exact ⟨h.fits, h.size_eq⟩

/-- What each call on one buffer keeps, every step keeps of both. -/
theorem step_both {P : Buffer α → Prop} {a : Act α}
    (hop : ∀ i o, a = .op i o → ∀ b b' : Buffer α, P b → o.Makes b b' → P b')
    (hswap : ∀ b x : Buffer α, P b → P x → P (b.swap x).1 ∧ P (b.swap x).2)
    {w w' : Bool → Buffer α} (hw : ∀ i, P (w i)) (hstep : (callSys α).step w a w') :
    ∀ i, P (w' i) := by
  intro j
  cases a with
  | op i o =>
    obtain ⟨b, hmakes, rfl⟩ := hstep
    by_cases hj : j = i
    · subst hj
      rw [Function.update_self]
      exact hop j o rfl _ _ (hw j) hmakes
    · rw [Function.update_of_ne hj]
      exact hw j
  | swap =>
    obtain ⟨hfst, hsnd⟩ := hswap _ _ (hw false) (hw true)
    rw [show w' = _ from hstep]
    cases j with
    | false => exact hfst
    | true => exact hsnd

theorem reachable_laid {w : Bool → Buffer α} (h : (callSys α).Reachable w) (i : Bool) :
    (w i).Laid := by
  refine h.invariant (I := fun w => ∀ i, (w i).Laid) ?_ ?_ i
  · rintro _ rfl _
    exact ⟨fun ch hch => absurd hch List.not_mem_nil, rfl⟩
  · intro w a w' hw hstep
    exact step_both (fun _ _ _ _ _ hb hmakes => hmakes.laid hb)
      (fun b x hb hx => ⟨⟨hx.fits, hx.size_eq⟩, ⟨hb.fits, hb.size_eq⟩⟩) hw hstep

/-! ### Default chunk sizes from one on -/

omit [Inhabited α] in
theorem Inv.assign {b : Buffer α} (h : b.Inv) (i : ℕ) (v : α) : (b.assign i v).Inv := by
  have hbounds := bounds_assignLoop i 0 v b.chunkList
  refine ⟨⟨?_, ?_, ?_⟩, (h.laid.assign i v).size_eq, h.chunk_pos⟩
  · refine forall_of_bounds ?_ hbounds h.chunks.ok
    intro c c' heq hc
    simp only [Chunk.bounds, Prod.mk.injEq] at heq
    obtain ⟨hoff, hend, hcap⟩ := heq
    exact ⟨hoff ▸ hend ▸ hc.offset_le, hend ▸ hcap ▸ hc.end_le, hcap ▸ hc.cap_pos⟩
  · have hinner : (assignLoop i v 0 b.chunkList).dropLast.map Chunk.bounds =
        b.chunkList.dropLast.map Chunk.bounds := by
      rw [List.map_dropLast, List.map_dropLast, hbounds]
    refine forall_of_bounds ?_ hinner h.chunks.inner
    intro c c' heq hc
    simp only [Chunk.bounds, Prod.mk.injEq] at heq
    omega
  · intro ch hch
    have hlast : (b.chunkList.getLast?).map Chunk.bounds = some ch.bounds := by
      rw [← List.getLast?_map, ← hbounds, List.getLast?_map]
      exact congrArg (Option.map Chunk.bounds) hch
    obtain ⟨c, hc, heq⟩ := Option.map_eq_some_iff.1 hlast
    have hfront := h.chunks.front c hc
    simp only [Chunk.bounds, Prod.mk.injEq] at heq
    omega

/-- Without enough data, `data` gives `nullptr` and changes nothing. -/
theorem data_short {b : Buffer α} (h : b.size < len) (fuel : ℕ) :
    b.data fuel len = some (.ok (none, b)) := by
  unfold data
  rw [if_pos h]

/-- Whatever it returns, `data` keeps the representation invariant. -/
theorem Inv.data {b b' : Buffer α} (h : b.Inv) {fuel : ℕ} {q : Option Ptr}
    (hdata : b.data fuel len = some (.ok (q, b'))) : b'.Inv := by
  by_cases hsize : b.size < len
  · rw [data_short hsize] at hdata
    cases hdata
    exact h
  by_cases hpos : 1 ≤ len
  · obtain ⟨fuel', q', b'', hdata', hinv, -⟩ := data_spec h hpos (not_lt.1 hsize)
    have hmax := data_mono hdata (Nat.le_max_left fuel fuel')
    rw [data_mono hdata' (Nat.le_max_right fuel fuel')] at hmax
    cases hmax
    exact hinv
  · -- the back chunk has enough for no bytes
    unfold Buffer.data at hdata
    rw [if_neg hsize] at hdata
    cases hlist : b.chunkList with
    | nil =>
      rw [hlist] at hdata
      cases hdata
    | cons ch rest =>
      rw [hlist] at hdata
      simp only at hdata
      rw [if_pos (by omega)] at hdata
      cases hdata
      exact h

theorem Op.Makes.inv {b b' : Buffer α} {o : Op α} (h : b.Inv) (hsized : ∀ i, (Act.op i o).Sized)
    (hmakes : o.Makes b b') : b'.Inv := by
  cases hmakes with
  | push d => exact (push_spec h d).2.1
  | drain len => exact (drain_spec h len).2.1
  | data hdata => exact h.data hdata
  | space len => exact (space_spec h len).1
  | spaceChunk => exact (spaceChunk_spec h).1
  | spaceHaveSeted hroom hstore hset =>
    obtain ⟨c₁, c₂, hc₁, hc₂, hinv, -⟩ := fill_spec h hroom le_rfl
    cases hc₁.symm.trans hstore
    cases hc₂.symm.trans hset
    exact hinv
  | assign i v => exact h.assign i v
  | setDefaultChunkSize size => exact ⟨h.chunks, h.size_eq, hsized false⟩

/-- The calls with default chunk sizes from one on. -/
def sizedSys (α : Type) [Inhabited α] : LTS (Bool → Buffer α) (Act α) :=
  (callSys α).restrict fun _ a => a.Sized

theorem reachable_inv {w : Bool → Buffer α} (h : (sizedSys α).Reachable w) (i : Bool) :
    (w i).Inv := by
  refine h.invariant (I := fun w => ∀ i, (w i).Inv) ?_ ?_ i
  · rintro _ rfl _
    exact (inv_empty rfl rfl (by simp)).1
  · rintro w a w' hw ⟨hsized, hstep⟩
    refine step_both (fun i o ha b b' hb hmakes => ?_) ?_ hw hstep
    · subst ha
      refine hmakes.inv hb fun j => ?_
      cases o with
      | setDefaultChunkSize size => exact hsized
      | push | drain | data | space | spaceChunk | spaceHaveSeted | assign => trivial
    · exact fun b x hb hx => ⟨⟨hx.chunks, hx.size_eq, hx.chunk_pos⟩,
        ⟨hb.chunks, hb.size_eq, hb.chunk_pos⟩⟩

/-- `q` points to live cells of one block, from which on there are `bs`. -/
def LiveAt (b : Buffer α) (q : Ptr) (bs : List α) : Prop :=
  ∃ ch, b.chunkList[q.chunk]? = some ch ∧ ch.offset ≤ q.cell ∧ q.cell + bs.length ≤ ch.end_ ∧
    ch.end_ ≤ ch.cap ∧ Memory.load ch.p q.cell bs.length = bs

/-- In every state reached with default chunk sizes from one on, `data` of `len` bytes that are there
returns a pointer to the first `len` bytes of the content, in one block, and changes neither size nor
content; if they are not there, it returns `nullptr` and changes nothing. -/
theorem data_linearises {w : Bool → Buffer α} (h : (sizedSys α).Reachable w) (i : Bool) (len : ℕ) :
    (1 ≤ len → len ≤ (w i).size →
      ∃ fuel q b', (w i).data fuel len = some (.ok (some q, b')) ∧
        b'.LiveAt q ((w i).content.take len) ∧ b'.size = (w i).size ∧
        b'.content = (w i).content) ∧
      ((w i).size < len → ∀ fuel, (w i).data fuel len = some (.ok (none, w i))) := by
  have hinv := reachable_inv h i
  refine ⟨fun hpos hlen => ?_, fun hshort fuel => data_short hshort fuel⟩
  obtain ⟨fuel, q, b', hdata, hinv', hcontent, hload, ch, rest, hlist, rfl, hback⟩ :=
    data_spec hinv hpos hlen
  have hok := hinv'.chunks.ok ch (by rw [hlist]; simp)
  have hend := hok.end_le
  have hoff := hok.offset_le
  have htake : ((w i).content.take len).length = len := by
    rw [List.length_take, ← hinv.size_eq, Nat.min_eq_left hlen]
  refine ⟨fuel, _, b', hdata, ⟨ch, ?_, le_rfl, ?_, hend, ?_⟩, ?_, hcontent⟩
  · rw [hlist, List.getElem?_cons_zero]
  · rw [htake]
    simp only
    omega
  · simp only [load, hlist, List.getElem?_cons_zero] at hload
    rw [if_pos (by omega), Option.some.injEq] at hload
    rw [htake]
    exact hload
  · rw [hinv'.size_eq, hinv.size_eq, hcontent]

/-- Two chunks of two bytes, merged. -/
theorem data_linearises_sample :
    ∃ w : Bool → Buffer UInt8, (sizedSys UInt8).Reachable w ∧ (w false).chunkList.length = 2 ∧
      ∃ fuel q b', (w false).data fuel 3 = some (.ok (some q, b')) ∧ b'.LiveAt q [1, 2, 3] ∧
        b'.content = [1, 2, 3, 4] := by
  have hrun : ∃ w : Bool → Buffer UInt8, (sizedSys UInt8).Reachable w ∧
      (w false).chunkList.length = 2 ∧ (w false).size = 4 ∧ (w false).content = [1, 2, 3, 4] :=
    ⟨_, ⟨_, [.op false (.setDefaultChunkSize 2), .op false (.push [1, 2]), .op false (.push [3, 4])],
      rfl, .cons ⟨by decide, _, .setDefaultChunkSize 2, rfl⟩
        (.cons ⟨by decide, _, .push _, rfl⟩ (.cons ⟨by decide, _, .push _, rfl⟩ (.nil _)))⟩,
      by decide, by decide, by decide⟩
  obtain ⟨w, hw, htwo, hsize, hcontent⟩ := hrun
  obtain ⟨fuel, q, b', hdata, hlive, -, hsame⟩ :=
    (data_linearises hw false 3).1 (by decide) (by omega)
  rw [hcontent] at hlive hsame
  exact ⟨w, hw, htwo, fuel, q, b', hdata, hlive, hsame⟩

/-! ### Any calls -/

/-- In every state that any calls lead to, and for every `len`, `data` returns without calling
`back()` on an empty list exactly if there are fewer than `len` bytes, or there is a chunk and none
without bytes is met before `len` bytes are there. -/
theorem data_total_iff {w : Bool → Buffer α} (h : (callSys α).Reachable w) (i : Bool) (len : ℕ) :
    (w i).Returns len ↔ (w i).Serves len :=
  returns_iff_serves (reachable_laid h i) len

/-- A chunk of no bytes behind one with data: chunk size zero, `spaceChunk`, and a `push`. -/
def emptyBehind : Bool → Buffer UInt8 :=
  Function.update (fun _ => {}) false
    ((({} : Buffer UInt8).setDefaultChunkSize 0).spaceChunk.2.push [7]).2

theorem emptyBehind_reachable : (callSys UInt8).Reachable emptyBehind := by
  refine ⟨_, [.op false (.setDefaultChunkSize 0), .op false .spaceChunk, .op false (.push [7])], rfl,
    .cons ⟨_, .setDefaultChunkSize 0, rfl⟩ (.cons ⟨_, .spaceChunk, rfl⟩
      (.cons ⟨_, .push [7], ?_⟩ (.nil _)))⟩
  funext i
  cases i <;> rfl

/-- That buffer and no bytes. -/
theorem data_total_iff_sample : (emptyBehind false).Returns 0 :=
  (data_total_iff emptyBehind_reachable false 0).2 (by decide)

/-- `data` of no bytes in a fresh buffer, and of one byte in that buffer. -/
theorem data_not_total :
    (callSys UInt8).Reachable (fun _ => {}) ∧
      (∀ fuel, ({} : Buffer UInt8).data fuel 0 = some (.error .backOfEmpty)) ∧
      (callSys UInt8).Reachable emptyBehind ∧ (emptyBehind false).size = 1 ∧
      ∀ fuel, (emptyBehind false).data fuel 1 = none := by
  refine ⟨⟨_, [], rfl, .nil _⟩, fun _ => rfl, emptyBehind_reachable, rfl, fun fuel => ?_⟩
  have hlaid := reachable_laid emptyBehind_reachable false
  have hcopying : Copying 1 1 (⟨0, fun _ => default, (emptyBehind false).chunkList⟩ : DataLoop UInt8) :=
    ⟨Nat.zero_le _, hlaid.fits, rfl⟩
  have hdiverges := Loop.diverges_of_not_ends fun hends =>
    (dataLoop_ends_iff hcopying le_rfl).1 hends (by decide)
  rw [data_merges rfl (by decide) (by decide), hdiverges fuel]
  rfl

end Data

end Buffer
end NetService
