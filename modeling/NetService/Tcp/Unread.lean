import NetService.Tcp.Termination

/-!
# What `TcpStickyWrap::readData` leaves unread

The receive buffer is a FIFO of bytes in nodes of 4096: a byte goes behind the others of the node
that is written, or into a new node when that one is full, and `GetReadBuff` hands out what is unread
in the node that is read.

The loop of `readData` is left when a round has used up what it was given, so that it reads the node
it starts in to its end and no other (`readData_result`).
-/

namespace NetService
namespace Tcp

open TcpStickyWrap PackDealWith

/-! ### The nodes -/

/-- The capacity of a node. -/
def nodeCap : ℕ := 4096

/-- A connection, with the number of bytes that the node being written has room for. -/
structure Link where
  wrap : TcpStickyWrap
  free : ℕ

/-- A byte is written. -/
def put (x : List (List UInt8) × ℕ) (b : UInt8) : List (List UInt8) × ℕ :=
  match x.2 with
  | 0 => (x.1 ++ [[b]], nodeCap - 1)
  | free + 1 =>
      match x.1.getLast? with
      | none => ([[b]], free)
      | some r => (x.1.dropLast ++ [r ++ [b]], free)

/-- The bytes `bs` are received. -/
def Link.receive (l : Link) (bs : List UInt8) : Link where
  wrap := { l.wrap with recvBuf := (bs.foldl put (l.wrap.recvBuf, l.free)).1 }
  free := (bs.foldl put (l.wrap.recvBuf, l.free)).2

/-- The nodes: none holds more than its capacity, and the last one has room for `free` bytes. -/
structure Nodes (x : List (List UInt8) × ℕ) : Prop where
  cap : ∀ r ∈ x.1, r.length ≤ nodeCap
  room : ∀ r, x.1.getLast? = some r → r.length + x.2 ≤ nodeCap
  free_lt : x.2 < nodeCap

theorem Nodes.put {x : List (List UInt8) × ℕ} (h : Nodes x) (b : UInt8) : Nodes (put x b) := by
  obtain ⟨regions, free⟩ := x
  obtain ⟨hcap, hroom, hfree⟩ := h
  simp only at hcap hroom hfree
  -- a byte opens a node if the last one is full
  cases free with
  | zero =>
    refine ⟨fun r hr => ?_, fun r hr => ?_, by show nodeCap - 1 < nodeCap; decide⟩
    · rcases List.mem_append.1 hr with hr | hr
      · exact hcap r hr
      · rw [List.mem_singleton.1 hr]
        show 1 ≤ nodeCap
        decide
    · have hlast : (regions ++ [[b]]).getLast? = some r := hr
      rw [List.getLast?_concat, Option.some.injEq] at hlast
      subst hlast
      show 1 + (nodeCap - 1) ≤ nodeCap
      decide
  | succ free =>
    unfold Tcp.put
    simp only
    cases hlast : regions.getLast? with
    | none =>
      refine ⟨fun r hr => ?_, fun r hr => ?_, by simp only; omega⟩
      · rw [List.mem_singleton.1 hr]
        show 1 ≤ nodeCap
        decide
      · simp only [List.getLast?_singleton, Option.some.injEq] at hr
        subst hr
        simp only [List.length_singleton]
        omega
    | some q =>
      have hq := hroom q hlast
      have hlen : (q ++ [b]).length = q.length + 1 := List.length_append
      refine ⟨fun r hr => ?_, fun r hr => ?_, by simp only; omega⟩
      · rcases List.mem_append.1 hr with hr | hr
        · exact hcap r (List.dropLast_subset _ hr)
        · rw [List.mem_singleton.1 hr, hlen]
          omega
      · simp only [List.getLast?_concat, Option.some.injEq] at hr
        subst hr
        simp only [hlen]
        omega

theorem Nodes.receive {l : Link} (h : Nodes (l.wrap.recvBuf, l.free)) (bs : List UInt8) :
    Nodes ((l.receive bs).wrap.recvBuf, (l.receive bs).free) := by
  unfold Link.receive
  simp only
  generalize (l.wrap.recvBuf, l.free) = x at h
  induction bs generalizing x with
  | nil => exact h
  | cons b bs ih => exact ih _ (h.put b)

/-! ### One round -/

/-- A copy that succeeds has a length that is not negative. -/
theorem memcpy_nonneg {p p' : PackDealWith} {dst : ℕ} {src : List UInt8} {n : ℤ}
    (h : p.memcpy dst src n = .ok p') : 0 ≤ n ∧ p'.dataSize = p.dataSize := by
  unfold PackDealWith.memcpy at h
  split_ifs at h with hn
  cases h
  exact ⟨hn.1, rfl⟩

/-- A round uses at most the region. -/
theorem copyBody_le {p p' : PackDealWith} {region : List UInt8} {n r : ℕ}
    (hregion : region.length < 65536)
    (h : p.copyBody region n = .ok (p', r)) : r ≤ region.length := by
  unfold PackDealWith.copyBody at h
  simp only at h
  cases hlen : p.headLen with
  | error e =>
    rw [hlen] at h
    cases h
  | ok hl =>
    rw [hlen] at h
    simp only at h
    by_cases hall : (hl : ℤ) ≥ p.dataSize + ((region.length : ℤ) - n)
    · rw [if_pos hall] at h
      cases hcopy : p.memcpy p.dataSize region ((region.length : ℤ) - n) with
      | error e =>
        rw [hcopy] at h
        cases h
      | ok q =>
        rw [hcopy] at h
        cases h
        exact (u16_natCast hregion).le
    · rw [if_neg hall] at h
      cases hcopy : p.memcpy p.dataSize region ((hl : ℤ) - p.dataSize) with
      | error e =>
        rw [hcopy] at h
        cases h
      | ok q =>
        obtain ⟨hpos, hsize⟩ := memcpy_nonneg hcopy
        rw [hcopy] at h
        cases h
        obtain ⟨k, hk⟩ : ∃ k : ℕ, (hl : ℤ) - p.dataSize = k := ⟨_, (Int.toNat_of_nonneg hpos).symm⟩
        have hsum : (n : ℤ) + ((hl : ℤ) - p.dataSize) = ((n + k : ℕ) : ℤ) := by
          rw [hk]
          exact (Int.natCast_add n k).symm
        rw [hsize, hsum, u16_natCast (by omega)]
        omega

/-- Delivering a packet does not touch the receive buffer. -/
theorem finishPack_recvBuf {s s' : TcpStickyWrap} (h : finishPack s = .ok s') :
    s'.recvBuf = s.recvBuf := by
  unfold finishPack at h
  split at h
  · split at h
    · split at h
      all_goals
        cases h
        rfl
    · cases h
    · cases h
  · cases h
    rfl

/-- A round fails, or reads `k` bytes of the region and goes round again unless that is all of it. -/
theorem pass_cases {s : TcpStickyWrap} (hregion : (s.recvBuf.headD []).length < 65536) (total : ℕ) :
    (∃ e, pass (s, total) = .fault e) ∨ (∃ s', pass (s, total) = .done (-1, s')) ∨
      ∃ k ≤ (s.recvBuf.headD []).length, ∃ s', s'.recvBuf = adjustReadSize s.recvBuf k ∧
        pass (s, total) = if (s.recvBuf.headD []).length ≤ k then .done ((total : ℤ) + k, s')
          else .next (s', total + k) := by
  -- along the calls of the round, each of which may fault
  cases hheader : s.pack.copyHeader (s.recvBuf.headD []) with
  | error e =>
    left
    unfold TcpStickyWrap.pass
    simp only [hheader]
    exact ⟨e, rfl⟩
  | ok x =>
    obtain ⟨p₁, n⟩ := x
    cases hover : p₁.oversize with
    | error e =>
      left
      unfold TcpStickyWrap.pass
      simp only [hheader, hover]
      exact ⟨e, rfl⟩
    | ok long =>
      cases long with
      | true =>
        right; left
        unfold TcpStickyWrap.pass
        simp only [hheader, hover]
        exact ⟨_, rfl⟩
      | false =>
        cases hbody : p₁.copyBody (s.recvBuf.headD []) n with
        | error e =>
          left
          unfold TcpStickyWrap.pass
          simp only [hheader, hover, hbody]
          exact ⟨e, rfl⟩
        | ok y =>
          obtain ⟨p₂, k⟩ := y
          cases hfinish : finishPack { s with pack := p₂, recvBuf := adjustReadSize s.recvBuf k
                                              decided := s.decided ++ [p₁.dataSize] } with
          | error e =>
            left
            unfold TcpStickyWrap.pass
            simp only [hheader, hover, hbody, hfinish]
            exact ⟨e, rfl⟩
          | ok s' =>
            exact .inr (.inr ⟨k, copyBody_le hregion hbody, s',
              finishPack_recvBuf hfinish, pass_of_copies total hheader hover hbody hfinish⟩)

/-- Reading `k` bytes of the region, but not all of it. -/
theorem adjustReadSize_part {regions : List (List UInt8)} {k : ℕ}
    (hk : k < (regions.headD []).length) :
    adjustReadSize regions k = (regions.headD []).drop k :: regions.tail := by
  cases regions with
  | nil => cases hk
  | cons region rest => exact if_pos hk

/-- Reading all of the region. -/
theorem adjustReadSize_all (regions : List (List UInt8)) :
    adjustReadSize regions (regions.headD []).length = regions.tail := by
  cases regions with
  | nil => rfl
  | cons region rest => exact if_neg (lt_irrefl _)

/-- A round that goes round again has read a part of the region. -/
theorem pass_next_reads {s s' : TcpStickyWrap} {total total' : ℕ}
    (hregion : (s.recvBuf.headD []).length < 65536) (h : pass (s, total) = .next (s', total')) :
    ∃ k < (s.recvBuf.headD []).length,
      s'.recvBuf = (s.recvBuf.headD []).drop k :: s.recvBuf.tail ∧ total' = total + k := by
  rcases pass_cases hregion total with ⟨e, hpass⟩ | ⟨s₁, hpass⟩ | ⟨k, -, s₁, hbuf, hpass⟩
  · cases hpass.symm.trans h
  · cases hpass.symm.trans h
  · by_cases hall : (s.recvBuf.headD []).length ≤ k
    · rw [if_pos hall] at hpass
      cases hpass.symm.trans h
    · rw [if_neg hall] at hpass
      cases hpass.symm.trans h
      exact ⟨k, not_le.1 hall, hbuf.trans (adjustReadSize_part (not_le.1 hall)), rfl⟩

/-- A round that ends the loop without failing has read all of the region. -/
theorem pass_done_reads {s s' : TcpStickyWrap} {total : ℕ} {r : ℤ}
    (hregion : (s.recvBuf.headD []).length < 65536) (h : pass (s, total) = .done (r, s')) :
    r = -1 ∨ r = total + (s.recvBuf.headD []).length ∧ s'.recvBuf = s.recvBuf.tail := by
  rcases pass_cases hregion total with ⟨e, hpass⟩ | ⟨s₁, hpass⟩ | ⟨k, hle, s₁, hbuf, hpass⟩
  · cases hpass.symm.trans h
  · cases hpass.symm.trans h
    exact .inl rfl
  · by_cases hall : (s.recvBuf.headD []).length ≤ k
    · obtain rfl : k = (s.recvBuf.headD []).length := by omega
      rw [if_pos le_rfl] at hpass
      cases hpass.symm.trans h
      exact .inr ⟨rfl, hbuf.trans (adjustReadSize_all _)⟩
    · rw [if_neg hall] at hpass
      cases hpass.symm.trans h

/-! ### The loop -/

/-- The loop, with the first region in part behind it. -/
structure Reading (s : TcpStickyWrap) (x : TcpStickyWrap × ℕ) : Prop where
  short : (x.1.recvBuf.headD []).length < 65536
  tail : x.1.recvBuf.tail = s.recvBuf.tail
  sum : x.2 + (x.1.recvBuf.headD []).length = (s.recvBuf.headD []).length

/-- A `readData` that returns and does not fail has read the first region, to its end, and no
other. -/
theorem readData_result {s s' : TcpStickyWrap} {fuel : ℕ} {r : ℤ}
    (h : (s.recvBuf.headD []).length < 65536)
    (hread : Loop.iter pass fuel (s, 0) = some (.ok (r, s'))) (hr : r ≠ -1) :
    r = (s.recvBuf.headD []).length ∧ s'.recvBuf = s.recvBuf.tail := by
  let Q : Except PackFault (ℤ × TcpStickyWrap) → Prop := fun out =>
    ∀ r s', out = .ok (r, s') → r ≠ -1 →
      r = (s.recvBuf.headD []).length ∧ s'.recvBuf = s.recvBuf.tail
  have hQ : Q (.ok (r, s')) := by
    refine Loop.Ends.of_invariant (Reading s) Q ?_ ?_ ?_ ⟨h, rfl, Nat.zero_add _⟩ ⟨fuel, hread⟩
    · rintro ⟨t, total⟩ ⟨t', total'⟩ ⟨hshort, htail, hsum⟩ hb
      obtain ⟨k, hk, hbuf, rfl⟩ := pass_next_reads hshort hb
      simp only at hk hshort htail hsum hbuf
      have hlen : (t'.recvBuf.headD []).length = (t.recvBuf.headD []).length - k := by
        rw [hbuf, List.headD_cons, List.length_drop]
      refine ⟨by simp only; omega, ?_, by simp only; omega⟩
      simp only [hbuf, List.tail_cons, htail]
    · rintro ⟨t, total⟩ out ⟨hshort, htail, hsum⟩ hb r s' hout hr
      cases hout
      simp only at htail hsum
      rcases pass_done_reads hshort hb with rfl | ⟨rfl, hbuf⟩
      · exact absurd rfl hr
      · simp only at hbuf ⊢
        exact ⟨by omega, hbuf.trans htail⟩
    · rintro _ _ _ _ _ _ ⟨⟩
  exact hQ r s' rfl hr

/-! ### The result -/

/-- Any number of bytes is received before each `readData`, which does not fail. -/
def linkSys (m : ℕ → UInt8) : LTS Link (List UInt8) where
  init l := l = ⟨new (some 0) m, 0⟩
  step l bs l' :=
    ∃ fuel r, Loop.iter pass fuel ((l.receive bs).wrap, 0) = some (.ok (r, l'.wrap)) ∧ r ≠ -1 ∧
      l'.free = (l.receive bs).free

theorem Nodes.head_lt {x : List (List UInt8) × ℕ} (h : Nodes x) :
    (x.1.headD []).length < 65536 := by
  cases hlist : x.1 with
  | nil => exact (by decide : (0 : ℕ) < 65536)
  | cons r rest => exact (h.cap r (hlist ▸ List.mem_cons_self)).trans_lt (by decide)

theorem Nodes.tail {regions : List (List UInt8)} {free : ℕ} (h : Nodes (regions, free)) :
    Nodes (regions.tail, free) := by
  refine ⟨fun r hr => h.cap r (List.mem_of_mem_tail hr), fun r hr => h.room r ?_, h.free_lt⟩
  simp only [List.getLast?_tail] at hr
  split_ifs at hr
  exact hr

theorem reachable_nodes {m : ℕ → UInt8} {l : Link} (h : (linkSys m).Reachable l) :
    Nodes (l.wrap.recvBuf, l.free) := by
  refine h.invariant (I := fun l => Nodes (l.wrap.recvBuf, l.free)) ?_ ?_
  · rintro _ rfl
    refine ⟨fun r hr => absurd hr List.not_mem_nil, fun r hr => ?_, by show 0 < nodeCap; decide⟩
    cases hr
  · rintro l bs l' hl ⟨fuel, r, hread, hr, hfree⟩
    have hnodes := hl.receive bs
    obtain ⟨-, hbuf⟩ := readData_result hnodes.head_lt hread hr
    show Nodes (l'.wrap.recvBuf, l'.free)
    rw [hbuf, hfree]
    exact hnodes.tail

/-- Whatever is received in a reachable state, a `readData` that returns a value that is not negative
has read all there was, and returns how much that was, exactly if no node behind the one it starts in
holds unread bytes. -/
theorem readData_empties_iff (m : ℕ → UInt8) {l : Link} (h : (linkSys m).Reachable l)
    (bs : List UInt8) {fuel : ℕ} {r : ℤ} {s' : TcpStickyWrap}
    (hread : Loop.iter pass fuel ((l.receive bs).wrap, 0) = some (.ok (r, s'))) (hr : 0 ≤ r) :
    (unread s' = 0 ∧ r = unread (l.receive bs).wrap) ↔
      (l.receive bs).wrap.recvBuf.tail.flatten = [] := by
  have hnodes := (reachable_nodes h).receive bs
  obtain ⟨hvalue, hbuf⟩ := readData_result hnodes.head_lt hread (by omega)
  have hall : unread (l.receive bs).wrap = ((l.receive bs).wrap.recvBuf.headD []).length +
      (l.receive bs).wrap.recvBuf.tail.flatten.length := by
    unfold unread
    cases (l.receive bs).wrap.recvBuf with
    | nil => rfl
    | cons r rest => exact List.length_append
  unfold unread at hall ⊢
  rw [hbuf, hvalue, ← List.length_eq_zero_iff]
  omega

/-- One packet in a fresh connection. -/
theorem readData_empties_iff_sample :
    ∃ s', Loop.iter pass 1 (((⟨new (some 0) fun _ => 0, 0⟩ : Link).receive [5, 0, 1, 0, 7]).wrap, 0) =
        some (.ok (5, s')) ∧ unread s' = 0 := by
  obtain ⟨s', hread⟩ : ∃ s', Loop.iter pass 1
      (((⟨new (some 0) fun _ => 0, 0⟩ : Link).receive [5, 0, 1, 0, 7]).wrap, 0) =
        some (.ok (5, s')) := ⟨_, rfl⟩
  exact ⟨s', hread, ((readData_empties_iff (fun _ => 0) ⟨_, [], rfl, .nil _⟩ _ hread (by decide)).2
    rfl).1⟩

/-! ### Two nodes -/

/-- Bytes for which the node has room. -/
theorem foldl_put_fits {inner : List (List UInt8)} {r bs : List UInt8} {free : ℕ}
    (h : bs.length ≤ free) :
    bs.foldl put (inner ++ [r], free) = (inner ++ [r ++ bs], free - bs.length) := by
  induction bs generalizing r free with
  | nil => rw [List.append_nil]; rfl
  | cons b bs ih =>
    rw [List.length_cons] at h
    obtain ⟨free, rfl⟩ : ∃ n, free = n + 1 := ⟨free - 1, by omega⟩
    have hput : put (inner ++ [r], free + 1) b = (inner ++ [r ++ [b]], free) := by
      unfold put
      simp only [List.getLast?_concat, List.dropLast_concat]
    have hlen : free + 1 - (b :: bs).length = free - bs.length := by
      rw [List.length_cons]
      omega
    rw [List.foldl_cons, hput, ih (by omega), List.append_assoc, hlen]
    rfl

/-- Bytes for a new node. -/
theorem foldl_put_new {regions : List (List UInt8)} {b : UInt8} {bs : List UInt8}
    (h : bs.length ≤ nodeCap - 1) :
    (b :: bs).foldl put (regions, 0) = (regions ++ [b :: bs], nodeCap - 1 - bs.length) := by
  have hput : put (regions, 0) b = (regions ++ [[b]], nodeCap - 1) := rfl
  rw [List.foldl_cons, hput, foldl_put_fits h]
  rfl

/-- A region that is one packet is read in one round. -/
theorem pass_whole {s : TcpStickyWrap} (h : Ready s) (hpending : pending s = [])
    (hfour : 4 ≤ (s.recvBuf.headD []).length) (hcap : (s.recvBuf.headD []).length ≤ packCap)
    (hlen : lenOf (s.recvBuf.headD []) = (s.recvBuf.headD []).length) :
    ∃ s', pass (s, 0) = .done (((s.recvBuf.headD []).length : ℕ), s') := by
  have hahead : ahead s = s.recvBuf.headD [] := by
    unfold ahead
    rw [hpending, List.nil_append]
  obtain ⟨stale, p₁, n, p₂, got, hheader, hover, hbody, hold, -⟩ :=
    h.copies (by rw [hahead]; exact hfour) (by rw [hahead, hlen]; exact hfour)
      (by rw [hahead, hlen]; exact hcap)
  rw [hahead, hlen, hpending, List.length_nil, Nat.sub_zero, Nat.min_self] at hbody
  obtain ⟨id, hfinish⟩ := finishPack_holding (s := { s with
    pack := p₂, recvBuf := adjustReadSize s.recvBuf (s.recvBuf.headD []).length
    decided := s.decided ++ [p₁.dataSize] }) hold
  have hpass := pass_of_copies 0 hheader hover hbody hfinish
  rw [if_pos le_rfl, Nat.cast_zero, Int.zero_add] at hpass
  exact ⟨_, hpass⟩

/-- A packet that fills a node. -/
def fullNode : List UInt8 := 0 :: 16 :: 1 :: 0 :: List.replicate 4092 0

/-- A packet that fills a node, and one behind it. -/
theorem next_node_unread :
    ∃ s', Loop.iter pass 1 (((⟨new (some 0) fun _ => 0, 0⟩ : Link).receive
        (fullNode ++ [5, 0, 1, 0, 7])).wrap, 0) = some (.ok (4096, s')) ∧ unread s' = 5 := by
  have hlength : fullNode.length = 4096 := by
    simp only [fullNode, List.length_cons, List.length_replicate]
  have hbytes : (fullNode ++ [5, 0, 1, 0, 7]).foldl put ([], 0) =
      ([fullNode, [5, 0, 1, 0, 7]], 4091) := by
    have hrest : (16 :: 1 :: 0 :: List.replicate 4092 (0 : UInt8)).length = nodeCap - 1 := by
      simp only [List.length_cons, List.length_replicate, nodeCap]
    have hfirst : fullNode.foldl put ([], 0) = ([fullNode], 0) := by
      unfold fullNode
      rw [foldl_put_new hrest.le, hrest, Nat.sub_self, List.nil_append]
    rw [List.foldl_append, hfirst]
    rfl
  have hwrap : ((⟨new (some 0) fun _ => 0, 0⟩ : Link).receive (fullNode ++ [5, 0, 1, 0, 7])).wrap =
      { new (some 0) (fun _ => 0) with recvBuf := [fullNode, [5, 0, 1, 0, 7]] } := by
    show ({ new (some 0) (fun _ => 0) with
      recvBuf := ((fullNode ++ [5, 0, 1, 0, 7]).foldl put ([], 0)).1 } : TcpStickyWrap) = _
    rw [hbytes]
  rw [hwrap]
  have hready : Ready { new (some 0) (fun _ => 0) with recvBuf := [fullNode, [5, 0, 1, 0, 7]] } := by
    obtain ⟨hold, hfits, -⟩ := new_ready fun _ => 0
    refine ⟨hold, hfits, fun r hr => ?_⟩
    rcases List.mem_cons.1 hr with rfl | hr
    · omega
    · rw [List.mem_singleton.1 hr]
      decide
  obtain ⟨s', hpass⟩ := pass_whole hready rfl (by show 4 ≤ fullNode.length; omega)
    (by show fullNode.length ≤ 4096; omega) (by show lenOf fullNode = fullNode.length; rw [hlength]; rfl)
  have hread : Loop.iter pass 1 ({ new (some 0) (fun _ => 0) with
      recvBuf := [fullNode, [5, 0, 1, 0, 7]] }, 0) = some (.ok (4096, s')) := by
    rw [Loop.iter_done hpass]
    show some (Except.ok ((fullNode.length : ℤ), s')) = _
    rw [hlength]
    rfl
  refine ⟨s', hread, ?_⟩
  obtain ⟨-, hbuf⟩ := readData_result (by show fullNode.length < 65536; omega) hread (by decide)
  unfold unread
  rw [hbuf]
  rfl

end Tcp
end NetService
