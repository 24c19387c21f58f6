import NetService.Buffer.Spec
import NetService.Lib.LTS

/-!
# `tl::buffer` refines an unbounded FIFO queue of bytes

The concrete system is two buffers, starting empty, and any sequence of calls on them.  The
abstract system is two lists.  Labels carry the call together with what the caller gets back, so
that a simulation also says that the replies agree.

* `pairSys`: the calls of `buffer.cc` on two buffers, each within its documented use;
* `fifoSys`: what the calls are for;
* `refines_fifo`: every run of `pairSys` is a run of `fifoSys` from empty queues to the contents,
  `size` and `operator[]` agree with the content, and every permitted call returns.
-/

namespace NetService
namespace Buffer

/-- A call on one buffer.  `space` and `spaceChunk` are followed at once by writing `bs` at the
address they return and by `spaceHaveSeted(bs.length)`. -/
inductive Call (α : Type)
  | push (data : List α)
  | drain (len : ℕ)
  | space (len : ℕ) (bs : List α)
  | spaceChunk (bs : List α)
  | data (len : ℕ)
  | dataChunk
  | setDefaultChunkSize (size : ℕ)

/-- A call on one of two buffers, or `swap` between them. -/
inductive Cmd (α : Type)
  | call (i : Bool) (c : Call α)
  | swap

/-- What the caller gets: nothing, a number, `nullptr`, or the bytes at the returned address. -/
inductive Reply (α : Type)
  | void
  | num (n : ℕ)
  | null
  | bytes (bs : List α)

/-! ### The concrete system -/

section Concrete

variable {α : Type} [Inhabited α]

/-- Write `bs` at `q` and report them with `spaceHaveSeted`. -/
def writeAt (b : Buffer α) (q : Ptr) (bs : List α) : Except Fault (Reply α × Buffer α) :=
  match b.store q bs with
  | none => .error .outOfBlock
  | some b₁ => (b₁.spaceHaveSeted bs.length).map fun b₂ => (.void, b₂)

/-- Read `n` bytes at `q`. -/
def readAt (b : Buffer α) (q : Ptr) (n : ℕ) : Except Fault (Reply α × Buffer α) :=
  match b.load q n with
  | none => .error .outOfBlock
  | some bs => .ok (.bytes bs, b)

/-- One call; `none` while the loop of `data` is still running after `fuel` passes. -/
def Call.exec (fuel : ℕ) (b : Buffer α) : Call α → Option (Except Fault (Reply α × Buffer α))
  | .push d => some (.ok (.num (b.push d).1, (b.push d).2))
  | .drain n => some (.ok (.num (b.drain n).1, (b.drain n).2))
  | .space len bs => some (writeAt (b.space len).2 (b.space len).1 bs)
  | .spaceChunk bs => some (writeAt b.spaceChunk.2 b.spaceChunk.1.1 bs)
  | .data len =>
      (b.data fuel len).map fun r =>
        match r with
        | .ok (some q, b') => readAt b' q len
        | .ok (none, b') => .ok (.null, b')
        | .error e => .error e
  | .dataChunk =>
      match b.dataChunk with
      | .ok (q, n) => some (readAt b q n)
      | .error e => some (.error e)
  | .setDefaultChunkSize size => some (.ok (.void, b.setDefaultChunkSize size))

/-- The documented use of a call: the length asked for or granted is respected. -/
def Call.Permitted (b : Buffer α) : Call α → Prop
  | .push _ => True
  | .drain _ => True
  | .space len bs => bs.length ≤ len
  | .spaceChunk bs => bs.length ≤ b.spaceChunk.1.2
  | .data len => 1 ≤ len ∧ len ≤ b.size
  | .dataChunk => 0 < b.size
  | .setDefaultChunkSize size => 1 ≤ size

instance (b : Buffer α) : (c : Call α) → Decidable (c.Permitted b)
  | .push _ => inferInstanceAs (Decidable True)
  | .drain _ => inferInstanceAs (Decidable True)
  | .space len bs => inferInstanceAs (Decidable (bs.length ≤ len))
  | .spaceChunk bs => inferInstanceAs (Decidable (bs.length ≤ b.spaceChunk.1.2))
  | .data len => inferInstanceAs (Decidable (1 ≤ len ∧ len ≤ b.size))
  | .dataChunk => inferInstanceAs (Decidable (0 < b.size))
  | .setDefaultChunkSize size => inferInstanceAs (Decidable (1 ≤ size))

/-- One command on two buffers. -/
def Cmd.exec (fuel : ℕ) (w : Bool → Buffer α) :
    Cmd α → Option (Except Fault (Reply α × (Bool → Buffer α)))
  | .call i c => (c.exec fuel (w i)).map (Except.map fun r => (r.1, Function.update w i r.2))
  | .swap =>
      let r := (w false).swap (w true)
      some (.ok (.void, fun i => if i then r.2 else r.1))

/-- The documented use of a command. -/
def Cmd.Permitted (w : Bool → Buffer α) : Cmd α → Prop
  | .call i c => c.Permitted (w i)
  | .swap => True

instance (w : Bool → Buffer α) : (cmd : Cmd α) → Decidable (cmd.Permitted w)
  | .call i c => inferInstanceAs (Decidable (c.Permitted (w i)))
  | .swap => inferInstanceAs (Decidable True)

/-- Two buffers that start empty, and permitted commands on them. -/
def pairSys (α : Type) [Inhabited α] : LTS (Bool → Buffer α) (Cmd α × Reply α) where
  init w := w = fun _ => {}
  step w l w' := l.1.Permitted w ∧ ∃ fuel, l.1.exec fuel w = some (.ok (l.2, w'))

end Concrete

/-! ### The abstract system -/

section Abstract

variable {α : Type}

/-- What a call on one queue is for: the queue, the reply and the new queue. -/
inductive Call.Spec (q : List α) : Call α → Reply α → List α → Prop
  | push (d : List α) : Spec q (.push d) (.num d.length) (q ++ d)
  | drain (n : ℕ) : Spec q (.drain n) (.num (min n q.length)) (q.drop n)
  | space (len : ℕ) (bs : List α) : Spec q (.space len bs) .void (q ++ bs)
  | spaceChunk (bs : List α) : Spec q (.spaceChunk bs) .void (q ++ bs)
  | data (len : ℕ) : Spec q (.data len) (.bytes (q.take len)) q
  | dataChunk (n : ℕ) : 1 ≤ n → n ≤ q.length → Spec q .dataChunk (.bytes (q.take n)) q
  | setDefaultChunkSize (size : ℕ) : Spec q (.setDefaultChunkSize size) .void q

/-- Two unbounded FIFO queues. -/
def fifoSys (α : Type) : LTS (Bool → List α) (Cmd α × Reply α) where
  init q := q = fun _ => []
  step q l q' :=
    match l.1 with
    | .call i c => ∃ qi, c.Spec (q i) l.2 qi ∧ q' = Function.update q i qi
    | .swap => q' = fun i => q (!i)

end Abstract

/-! ### The simulation -/

variable {α : Type} [Inhabited α]

/-- A permitted call returns, keeps the invariant and does what it is for. -/
theorem Call.exec_spec {b : Buffer α} (h : b.Inv) (c : Call α) (hc : c.Permitted b) :
    ∃ fuel r b', c.exec fuel b = some (.ok (r, b')) ∧ b'.Inv ∧ c.Spec b.content r b'.content := by
  cases c with
  | push d =>
    obtain ⟨hr, hinv, hcontent⟩ := push_spec h d
    exact ⟨0, _, _, rfl, hinv, by rw [hr, hcontent]; exact .push d⟩
  | drain n =>
    obtain ⟨hr, hinv, hcontent⟩ := drain_spec h n
    exact ⟨0, _, _, rfl, hinv, by rw [hr, hcontent]; exact .drain n⟩
  | space len bs =>
    obtain ⟨hinv, hcontent, hroom⟩ := space_spec h len
    obtain ⟨b₁, b₂, hstore, hset, hinv₂, hcontent₂⟩ := fill_spec hinv hroom hc
    refine ⟨0, .void, b₂, ?_, hinv₂, ?_⟩
    · simp [Call.exec, writeAt, hstore, hset, Except.map]
    · rw [hcontent₂, hcontent]
      exact .space len bs
  | spaceChunk bs =>
    obtain ⟨hinv, hcontent, hroom, -⟩ := spaceChunk_spec h
    obtain ⟨b₁, b₂, hstore, hset, hinv₂, hcontent₂⟩ := fill_spec hinv hroom hc
    refine ⟨0, .void, b₂, ?_, hinv₂, ?_⟩
    · simp [Call.exec, writeAt, hstore, hset, Except.map]
    · rw [hcontent₂, hcontent]
      exact .spaceChunk bs
  | data len =>
    obtain ⟨fuel, q, b', hdata, hinv, hcontent, hload, -⟩ := data_spec h hc.1 hc.2
    refine ⟨fuel, .bytes (b.content.take len), b', ?_, hinv, ?_⟩
    · simp [Call.exec, readAt, hdata, hload]
    · rw [hcontent]
      exact .data len
  | dataChunk =>
    obtain ⟨q, n, hchunk, hpos, hle, hload⟩ := dataChunk_spec h hc
    refine ⟨0, .bytes (b.content.take n), b, ?_, h, ?_⟩
    · simp [Call.exec, readAt, hchunk, hload]
    · exact .dataChunk n hpos (h.size_eq ▸ hle)
  | setDefaultChunkSize size =>
    exact ⟨0, .void, _, rfl, ⟨h.chunks, h.size_eq, hc⟩, .setDefaultChunkSize size⟩

/-! ### The reply does not depend on the fuel -/

theorem data_mono {b : Buffer α} {len m n : ℕ} {out : Except Fault (Option Ptr × Buffer α)}
    (h : b.data m len = some out) (hmn : m ≤ n) : b.data n len = some out := by
  unfold data at h ⊢
  split_ifs at h ⊢ with hsize
  · exact h
  cases hl : b.chunkList with
  | nil => rwa [hl] at h
  | cons ch rest =>
    simp only [hl] at h ⊢
    split_ifs at h ⊢ with hback
    · exact h
    obtain ⟨o, ho, rfl⟩ := Option.map_eq_some_iff.1 h
    rw [Loop.iter_mono ho hmn, Option.map_some]

theorem Call.exec_mono {b : Buffer α} {c : Call α} {m n : ℕ}
    {out : Except Fault (Reply α × Buffer α)} (h : c.exec m b = some out) (hmn : m ≤ n) :
    c.exec n b = some out := by
  cases c with
  | data len =>
    obtain ⟨o, ho, rfl⟩ := Option.map_eq_some_iff.1 h
    simp only [Call.exec, data_mono ho hmn, Option.map_some]
  | push | drain | space | spaceChunk | dataChunk | setDefaultChunkSize => exact h

theorem Call.exec_unique {b : Buffer α} {c : Call α} {m n : ℕ}
    {o₁ o₂ : Except Fault (Reply α × Buffer α)} (h₁ : c.exec m b = some o₁)
    (h₂ : c.exec n b = some o₂) : o₁ = o₂ :=
  Option.some.inj
    ((exec_mono h₁ (Nat.le_max_left m n)).symm.trans (exec_mono h₂ (Nat.le_max_right m n)))

/-- Whatever a permitted call returns, it keeps the invariant and does what it is for. -/
theorem Call.spec_of_exec {b b' : Buffer α} (h : b.Inv) {c : Call α} (hc : c.Permitted b)
    {fuel : ℕ} {r : Reply α} (hexec : c.exec fuel b = some (.ok (r, b'))) :
    b'.Inv ∧ c.Spec b.content r b'.content := by
  obtain ⟨fuel', r', b'', hexec', hspec⟩ := Call.exec_spec h c hc
  cases Call.exec_unique hexec hexec'
  exact hspec

/-! ### The simulation -/

/-- The two queues are the contents of the two buffers. -/
def Sim (w : Bool → Buffer α) (q : Bool → List α) : Prop :=
  (∀ i, (w i).Inv) ∧ q = fun i => (w i).content

omit [Inhabited α] in
theorem sim_start : Sim (fun _ => ({} : Buffer α)) fun _ => [] :=
  ⟨fun _ => (inv_empty rfl rfl (by simp)).1, rfl⟩

/-- One step of the two buffers is one step of the two queues. -/
theorem sim_step (w : Bool → Buffer α) (l : Cmd α × Reply α) (w' : Bool → Buffer α)
    (q : Bool → List α) (hsim : Sim w q) (hstep : (pairSys α).step w l w') :
    ∃ q', (fifoSys α).step q (id l) q' ∧ Sim w' q' := by
  obtain ⟨hinv, rfl⟩ := hsim
  obtain ⟨cmd, r⟩ := l
  obtain ⟨hperm, fuel, hexec⟩ := hstep
  cases cmd with
  | call i c =>
    simp only [Cmd.exec, Option.map_eq_some_iff] at hexec
    obtain ⟨o, ho, heq⟩ := hexec
    cases o with
    | error e => cases heq
    | ok p =>
      cases heq
      obtain ⟨hinv', hspec⟩ := Call.spec_of_exec (hinv i) hperm ho
      refine ⟨_, ⟨_, hspec, ?_⟩, fun j => ?_, rfl⟩
      · funext j
        by_cases hj : j = i
        · subst hj
          simp
        · simp [Function.update_of_ne hj]
      · by_cases hj : j = i
        · subst hj
          simpa using hinv'
        · simpa [Function.update_of_ne hj] using hinv j
  | swap =>
    simp only [Cmd.exec, Option.some.injEq, Except.ok.injEq, Prod.mk.injEq] at hexec
    obtain ⟨-, rfl⟩ := hexec
    refine ⟨_, ?_, fun j => ?_, rfl⟩
    · funext j
      cases j <;> rfl
    · cases j with
      | false => exact hinv true
      | true => exact hinv false

/-- Every permitted command returns. -/
theorem step_exists {w : Bool → Buffer α} (hinv : ∀ i, (w i).Inv) {cmd : Cmd α}
    (hperm : cmd.Permitted w) : ∃ r w', (pairSys α).step w (cmd, r) w' := by
  cases cmd with
  | call i c =>
    obtain ⟨fuel, r, b', hexec, -⟩ := Call.exec_spec (hinv i) c hperm
    exact ⟨r, Function.update w i b', hperm, fuel, by simp [Cmd.exec, hexec, Except.map]⟩
  | swap => exact ⟨.void, _, hperm, 0, rfl⟩

/-- **`tl::buffer` refines an unbounded FIFO queue of bytes.**  After any run of permitted calls
the contents are those of the abstract queues, with the same replies; `size` is the length of the
content, `b[k]` is its byte `k`; and any further permitted call returns. -/
theorem refines_fifo {w : Bool → Buffer α} {tr : List (Cmd α × Reply α)}
    (h : (pairSys α).Run (fun _ => {}) tr w) :
    (fifoSys α).Run (fun _ => []) tr (fun i => (w i).content) ∧
      (∀ i, (w i).size = (w i).content.length ∧
        ∀ k < (w i).size, (w i).content[k]? = some ((w i).index k)) ∧
      ∀ cmd : Cmd α, cmd.Permitted w → ∃ r w', (pairSys α).step w (cmd, r) w' := by
  obtain ⟨q, hrun, hinv, rfl⟩ := h.simulate id sim_step sim_start
  rw [List.map_id] at hrun
  exact ⟨hrun, fun i => ⟨(hinv i).size_eq, fun k hk => index_spec (hinv i) hk⟩,
    fun cmd hperm => step_exists hinv hperm⟩

/-- A run with a chunk size of two: a push over a chunk border, a drain, a merge, free space and
a swap. -/
def sampleTrace : List (Cmd UInt8 × Reply UInt8) :=
  [(.call false (.setDefaultChunkSize 2), .void), (.call false (.push [1, 2]), .num 2),
    (.call false (.push [3]), .num 1), (.call false (.drain 1), .num 1),
    (.call false (.data 2), .bytes [2, 3]), (.call false (.space 2 [4, 5]), .void), (.swap, .void)]

theorem refines_fifo_sample :
    ∃ w : Bool → Buffer UInt8, (pairSys UInt8).Run (fun _ => {}) sampleTrace w ∧
      (fifoSys UInt8).Run (fun _ => []) sampleTrace (fun i => (w i).content) ∧
      (w true).content = [2, 3, 4, 5] ∧ (w false).content = [] := by
  have hrun : ∃ w : Bool → Buffer UInt8, (pairSys UInt8).Run (fun _ => {}) sampleTrace w ∧
      (w true).content = [2, 3, 4, 5] ∧ (w false).content = [] :=
    ⟨_, .cons ⟨by decide, 3, rfl⟩ (.cons ⟨by decide, 3, rfl⟩ (.cons ⟨by decide, 3, rfl⟩
      (.cons ⟨by decide, 3, rfl⟩ (.cons ⟨by decide, 3, rfl⟩ (.cons ⟨by decide, 3, rfl⟩
        (.cons ⟨by decide, 3, rfl⟩ (.nil _))))))), by decide, by decide⟩
  obtain ⟨w, hw, htrue, hfalse⟩ := hrun
  exact ⟨w, hw, (refines_fifo hw).1, htrue, hfalse⟩

end Buffer
end NetService
