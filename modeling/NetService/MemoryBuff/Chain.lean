import NetService.MemoryBuff.Fifo

/-!
# The node list of a `memoryBuff`

`Shaped` is the list as it is meant to be: from `_pRead` along `_next` to `_pTail`, through
`_pWrite`, with full nodes before `_pWrite` and `_freeCount` empty ones behind it.  Two steps of the
code leave it.

* The constructor makes the further nodes without moving `_pTail`, so that with two nodes or more
  the list does not end at `_pTail`, and only the first and the last node made are on it.
* `AdjustWriteSize` moves `_pWrite` on when the last node is full as well, to null, and counts one
  free node less than there are.

So the list has this shape exactly as long as there is one node and it is not full (`shaped_iff`).
-/

namespace NetService
namespace MemoryBuff

/-- From `p` along `next` the nodes at `chain` follow one another, and null follows the last. -/
inductive Linked (b : MemoryBuff) : Option ℕ → List ℕ → Prop
  | null : Linked b none []
  | node {a : ℕ} {nd : ListNode} {chain : List ℕ} :
      b.heap a = some nd → Linked b nd.next chain → Linked b (some a) (a :: chain)

/-- The list with the nodes `before` and `after` the one that is written to. -/
structure Arranged (len : ℕ) (b : MemoryBuff) (before : List ℕ) (w : ℕ) (after : List ℕ) :
    Prop where
  linked : b.Linked b.pRead (before ++ w :: after)
  nodup : (before ++ w :: after).Nodup
  pWrite : b.pWrite = some w
  pTail : b.pTail = (before ++ w :: after).getLast?
  /-- every node that has been allocated and not deleted -/
  all : ∀ a, b.heap a ≠ none → a ∈ before ++ w :: after
  full : ∀ a ∈ before, ∀ nd, b.heap a = some nd → nd.writeSize = nd.cap
  empty : ∀ a ∈ after, ∀ nd, b.heap a = some nd → nd.writeSize = 0
  sizes : ∀ a nd, b.heap a = some nd → nd.readSize ≤ nd.writeSize ∧ nd.writeSize ≤ nd.cap
  freeCount : b.freeCount = after.length
  /-- a node is deleted when there are more than `_DEFAULT_NODE_FREE_COUNT` spare ones -/
  spare : after.length ≤ max (len - 1) (defaultNodeFreeCount + 1)

/-- The node list of a buffer made with `len` nodes is as it should be. -/
def Shaped (len : ℕ) (b : MemoryBuff) : Prop := ∃ before w after, b.Arranged len before w after

/-! ### What a chain says about its nodes -/

variable {b : MemoryBuff} {len a r : ℕ} {bytes : List UInt8} {next : Option ℕ}

theorem Linked.eq_none {p : Option ℕ} (h : b.Linked p []) : p = none := by
  cases h
  rfl

/-- The last node of a chain has no successor. -/
theorem Linked.next_of_last {p : Option ℕ} {chain : List ℕ} {nd : ListNode}
    (h : b.Linked p chain) (hlast : chain.getLast? = some a) (hnd : b.heap a = some nd) :
    nd.next = none := by
  induction h with
  | null => cases hlast
  | @node x ndx chain hx hrest ih =>
    cases chain with
    | nil =>
      obtain rfl : x = a := Option.some.inj hlast
      rw [hx] at hnd
      cases hnd
      exact hrest.eq_none
    | cons y chain =>
      apply ih
      rw [← hlast, List.getLast?_cons_cons]

/-- A chain that begins with a node without successor has no other nodes. -/
theorem Linked.eq_singleton {chain : List ℕ} {nd : ListNode} (h : b.Linked (some a) chain)
    (hnd : b.heap a = some nd) (hnext : nd.next = none) : chain = [a] := by
  cases h with
  | node ha hrest =>
    rw [ha] at hnd
    cases hnd
    rw [hnext] at hrest
    cases hrest
    rfl

theorem not_shaped_of_pWrite (hw : b.pWrite = none) : ¬ b.Shaped len := by
  rintro ⟨before, w, after, h⟩
  rw [h.pWrite] at hw
  cases hw

/-- `_pTail` points to a node with another one behind it. -/
theorem not_shaped_of_tail {x : ℕ} (ht : b.pTail = some a) (h : b.Holds a bytes r (some x)) :
    ¬ b.Shaped len := by
  rintro ⟨before, w, after, hshaped⟩
  obtain ⟨nd, hnd, hholds⟩ := h
  have hnone := hshaped.linked.next_of_last (hshaped.pTail.symm.trans ht) hnd
  rw [hholds.next] at hnone
  cases hnone

/-- `_pTail` points to a node that is not the last of the list. -/
theorem not_shaped_of_last {t : ℕ} (hr : b.pRead = some a) (ht : b.pTail = some t) (hat : t ≠ a)
    (h : b.Holds a bytes r none) : ¬ b.Shaped len := by
  rintro ⟨before, w, after, hshaped⟩
  obtain ⟨nd, hnd, hholds⟩ := h
  have hlinked := hshaped.linked
  have htail := hshaped.pTail
  rw [hr] at hlinked
  rw [hlinked.eq_singleton hnd hholds.next, ht] at htail
  cases htail
  exact hat rfl

/-- One node, which is read from and written to. -/
theorem shaped_single (hlone : ∀ x, x ≠ a → b.heap x = none) (hw : b.pWrite = some a)
    (hr : b.pRead = some a) (ht : b.pTail = some a) (hfree : b.freeCount = 0)
    (h : b.Holds a bytes r none) (hread : r ≤ bytes.length) (hroom : bytes.length ≤ 4096) :
    b.Shaped len := by
  obtain ⟨nd, hnd, hholds⟩ := h
  have honly : ∀ x nd', b.heap x = some nd' → x = a := by
    intro x nd' hx
    by_contra hne
    rw [hlone x hne] at hx
    cases hx
  refine ⟨[], a, [], ?_, List.nodup_singleton a, hw, ht, ?_, by simp, by simp, ?_, hfree,
    Nat.zero_le _⟩
  · rw [hr]
    apply Linked.node hnd
    rw [hholds.next]
    exact .null
  · intro x hx
    obtain ⟨nd', hnd'⟩ := Option.ne_none_iff_exists'.1 hx
    exact List.mem_singleton.2 (honly x nd' hnd')
  · intro x nd' hx
    obtain rfl := honly x nd' hx
    rw [hnd] at hx
    cases hx
    rw [hholds.read, hholds.write, hholds.cap]
    exact ⟨hread, hroom⟩

/-! ### Runs -/

/-- The nodes but the first, while a buffer of one node is not full: there are none. -/
def Lone (c : Client) : Prop := c.stored.length < 4096 → ∀ x, x ≠ 0 → c.buff.heap x = none

theorem new_lone : Lone (Client.new 1) := by
  intro _ x hx
  simp [Client.new, new, addNode, hx]

/-- What `Shape` says of a buffer of one node that is not full. -/
theorem Inv.single {c : Client} {p : Progress} (hinv : Inv 1 c p) (hlt : c.stored.length < 4096) :
    c.buff.pWrite = some 0 ∧ c.buff.pRead = some 0 ∧ c.buff.pTail = some 0 ∧
      c.buff.freeCount = 0 ∧ c.buff.Holds 0 c.stored c.consumed.length none := by
  cases hinv.shape with
  | first htwo | both htwo | firstFull htwo => omega
  | lastFull hfull | used hfull =>
    rw [capacity_one] at hfull
    omega
  | last _ _ hw hr ht hlast hspare =>
    refine ⟨hw, hr, ht, ?_, hlast⟩
    rcases hspare with ⟨-, hfree⟩ | ⟨htwo, -⟩ | ⟨height, -⟩
    · exact hfree
    · omega
    · omega

/-- A step in a buffer of one node makes no other node while the node is not full. -/
theorem Lone.step {c c' : Client} {p : Progress} {op : Op} {granted : ℕ} (hinv : Inv 1 c p)
    (hlone : Lone c) (hstep : c.step op = .ok granted c') : Lone c' := by
  have hinv' := hinv.step le_rfl (by omega) hstep
  have hadm : c.step op ≠ .refused := by
    rw [hstep]
    nofun
  intro hlt x hx
  have hstored := hinv'.stored
  have hle := hinv.fifo.length_le
  cases op with
  | write bs =>
    have hsum : c.stored.length + bs.length = c'.stored.length := by
      rw [← hstored, ← hinv.stored]
      rfl
    obtain ⟨hw, -, -, -, hholds⟩ := hinv.single (by omega)
    obtain ⟨hpos, hroom⟩ := write_le hw hholds (by omega) hadm
    obtain ⟨b', hdone, -, hother, -⟩ := write_spec hw hholds hpos hroom
    rw [hstep] at hdone
    cases hdone
    rw [hother x hx]
    exact hlone (by omega) x hx
  | read k =>
    have hsame : c.stored.length = c'.stored.length := by
      rw [← hstored, ← hinv.stored]
      rfl
    obtain ⟨-, hr, -, -, hholds⟩ := hinv.single (by omega)
    have hk := read_le hr hholds hle hadm
    obtain ⟨b', hdone, -, hother, -⟩ := read_spec hr hholds (by omega) hk (by omega)
    rw [hstep] at hdone
    cases hdone
    rw [hother x hx]
    exact hlone (by omega) x hx

theorem run_lone {ops : List Op} {c c' : Client} {p : Progress} (hinv : Inv 1 c p)
    (hlone : Lone c) (hrun : (system 1).Run c ops c') : Lone c' := by
  induction hrun generalizing p with
  | nil => exact hlone
  | cons hstep _ ih =>
    obtain ⟨granted, hstep⟩ := hstep
    exact ih (hinv.step le_rfl (by omega) hstep) (hlone.step hinv hstep)

/-- After any run of steps, the node list has its shape if and only if the buffer was made with one
node and less than that node takes has been written. -/
theorem shaped_iff {len : ℕ} (hlen : 1 ≤ len) (hbyte : len < 256) {ops : List Op} {c : Client}
    (hrun : (system len).Run (Client.new len) ops c) :
    c.buff.Shaped len ↔ len = 1 ∧ (progress ops).stored < listNodeDataSize := by
  have hinv : Inv len c (progress ops) := run_inv hlen hbyte (new_inv hlen hbyte) hrun
  have hstored := hinv.stored
  rw [hstored]
  constructor
  · intro hshaped
    cases hinv.shape with
    | first _ _ _ _ _ ht hfirst | both _ _ _ _ _ _ _ ht hfirst =>
      exact absurd hshaped (not_shaped_of_tail ht hfirst)
    | firstFull _ _ _ _ hw | lastFull _ _ _ hw | used _ _ hw =>
      exact absurd hshaped (not_shaped_of_pWrite hw)
    | last hlt _ _ hr ht hlast =>
      by_cases hone : len = 1
      · subst hone
        exact ⟨rfl, hlt⟩
      · exact absurd hshaped (not_shaped_of_last hr ht (by omega) hlast)
  · rintro ⟨rfl, hlt⟩
    obtain ⟨hw, hr, ht, hfree, hholds⟩ := hinv.single hlt
    have hlone := run_lone (new_inv hlen hbyte) new_lone hrun hlt
    exact shaped_single hlone hw hr ht hfree hholds hinv.fifo.length_le hlt.le

/-- One node, with three bytes. -/
theorem shaped_iff_sample : ∃ c, (system 1).Run (Client.new 1) [.write [1, 2, 3]] c ∧
    c.buff.Shaped 1 := by
  have hrun : ∃ c, (system 1).Run (Client.new 1) [.write [1, 2, 3]] c :=
    ⟨_, .cons ⟨4096, rfl⟩ (.nil _)⟩
  obtain ⟨c, hc⟩ := hrun
  exact ⟨c, hc, (shaped_iff (by decide) (by decide) hc).2 (by decide)⟩

/-- A new buffer with the default two nodes; and one node that has been filled, which leaves no node
to write to and a count of free nodes that has wrapped. -/
theorem new_not_shaped :
    ((system 2).Run (Client.new 2) [] (Client.new 2) ∧ ¬ (Client.new 2).buff.Shaped 2) ∧
      ∃ c, (system 1).Run (Client.new 1) [.write nodeful] c ∧ c.buff.freeCount = 65535 ∧
        ¬ c.buff.Shaped 1 := by
  constructor
  · have hb := @new_built 2 (by decide) (by decide)
    exact ⟨.nil _, not_shaped_of_tail hb.pTail ⟨_, hb.first, reset_holds _⟩⟩
  · have hlen : nodeful.length = 4096 := List.length_replicate
    have hb := @new_built 1 (by decide) (by decide)
    have hroom : ([] : List UInt8).length + nodeful.length = 4096 := by
      rw [List.length_nil, Nat.zero_add, hlen]
    obtain ⟨b', hstep, -, -, -, -, hw, hfree⟩ :=
      write_spec (c := Client.new 1) hb.pWrite ⟨_, hb.first, reset_holds _⟩
        (by rw [hlen]; decide) hroom.le
    rw [if_pos hroom] at hw hfree
    refine ⟨_, .cons ⟨_, hstep⟩ (.nil _), ?_, not_shaped_of_pWrite hw⟩
    exact hfree.trans (congrArg (fun n : ℕ => Word.wrap 16 ((n : ℤ) - 1)) hb.freeCount)

end MemoryBuff
end NetService
