import NetService.Tcp.Packet

/-!
# TCP packet reassembly

`Exact` is what reassembly should do: however the packets are cut into received segments, after
each segment the calls of `MakeServerMsg` are exactly the packets that are complete, and
`readData` has never failed.

The code does it only for some cuts.  A *piece* is what one segment holds of one packet; `pieces`
lists them.  A piece is fine when it lies in the header or in the body, or when its body bytes
happen to repeat its first bytes, since the body bytes of a piece are copied from its start; and
when it is not a lone zero length byte in front of a zero left by the packet before.
`reassembly_exact_iff` says that reassembly is exact if and only if every piece is fine.

`advance` is the abstract reassembly the code performs, on packets instead of `_pData`;
`readData_spec` is the simulation of a `readData` by it, and `advance_spec` compares it with the
packets.
-/

namespace NetService
namespace Tcp

open TcpStickyWrap PackDealWith

/-! ### The cut -/

/-- The bytes of the packets on the wire. -/
def stream (ps : List Packet) : List UInt8 := ps.flatMap Packet.bytes

/-- The bytes of the segments, in order. -/
def received (segs : List Segment) : List UInt8 := segs.flatMap Segment.bytes

/-- The packets whose last byte is among the first `n` bytes. -/
def completed : List Packet → ℕ → List Packet
  | [], _ => []
  | pk :: ps, n => if pk.size ≤ n then pk :: completed ps (n - pk.size) else []

/-- What one segment holds of one packet: the length high byte of the packet before, the number of
bytes of the packet before the piece, and the bytes of the piece. -/
structure Piece where
  stale : UInt8
  before : ℕ
  bytes : List UInt8
deriving DecidableEq

/-- A piece the code copies as it is. -/
def Piece.Fine (x : Piece) : Prop :=
  copied x.before x.bytes = x.bytes ∧ ¬ (x.before = 0 ∧ x.bytes = [0] ∧ x.stale = 0)

instance (x : Piece) : Decidable x.Fine := inferInstanceAs (Decidable (_ ∧ ¬ (_ ∧ _ ∧ _)))

/-- The pieces of a segment that starts `n` bytes into the packets. -/
def pieces : List Packet → UInt8 → ℕ → List UInt8 → List Piece
  | [], _, _, _ => []
  | pk :: ps, stale, n, seg =>
      if pk.size ≤ n then pieces ps pk.high (n - pk.size) seg
      else if seg = [] then []
      else ⟨stale, n, seg.take (pk.size - n)⟩ :: pieces ps pk.high 0 (seg.drop (pk.size - n))

/-- Every piece of the cut is fine, with `first` the byte `malloc` left at index 1. -/
def FineCut (first : UInt8) (ps : List Packet) (segs : List Segment) : Prop :=
  ∀ pre seg post, segs = pre ++ seg :: post →
    ∀ x ∈ pieces ps first (received pre).length seg.bytes, x.Fine

/-- After each segment the complete packets have been delivered, each once and in order, and no
`readData` has failed. -/
def Exact (m : ℕ → UInt8) (ps : List Packet) (segs : List Segment) : Prop :=
  ∀ pre post, segs = pre ++ post →
    ∃ s, (system (some 0) m).Run (new (some 0) m) pre s ∧
      s.msgs = (completed ps (received pre).length).map Packet.msg

/-! ### The abstract reassembly -/

/-- What the code has of the stream: the packets not delivered, what it holds of the first one,
and the byte an earlier packet left at index 1. -/
structure Cursor where
  stale : UInt8
  got : List UInt8
  rest : List Packet

/-- The bytes held are part of the first packet, in number, and in content as far as the header
goes. -/
def Cursor.Ok (c : Cursor) : Prop :=
  match c.rest with
  | [] => c.got = []
  | pk :: _ => c.got.length < pk.size ∧ c.got.take 4 <+: pk.bytes

/-- The bytes held are those of the packet. -/
def Cursor.Right (c : Cursor) : Prop :=
  match c.rest with
  | [] => True
  | pk :: _ => c.got <+: pk.bytes

/-- What `readData` makes of a segment: the messages, and the cursor behind it; nothing when it
falls into the trap. -/
def advance : List Packet → UInt8 → List UInt8 → List UInt8 → Option (List ServerMsg × Cursor)
  | [], stale, got, _ => some ([], ⟨stale, got, []⟩)
  | pk :: ps, stale, got, seg =>
      if seg = [] then some ([], ⟨stale, got, pk :: ps⟩)
      else
        let piece := seg.take (pk.size - got.length)
        if Trap stale got piece then none
        else if got.length + piece.length = pk.size then
          (advance ps pk.high [] (seg.drop piece.length)).map fun x =>
            (⟨pk.msgId.toNat, got ++ copied got.length piece⟩ :: x.1, x.2)
        else some ([], ⟨stale, got ++ copied got.length piece, pk :: ps⟩)

theorem advance_nil (ps : List Packet) (stale : UInt8) (got : List UInt8) :
    advance ps stale got [] = some ([], ⟨stale, got, ps⟩) := by
  cases ps <;> rfl

/-- A packet that is about to start. -/
theorem Cursor.ok_start (stale : UInt8) (ps : List Packet) : Cursor.Ok ⟨stale, [], ps⟩ := by
  cases ps with
  | nil => rfl
  | cons pk ps => exact ⟨Nat.zero_lt_of_lt pk.size_gt, List.nil_prefix⟩

theorem pieces_nil (ps : List Packet) (stale : UInt8) (n : ℕ) : pieces ps stale n [] = [] := by
  induction ps generalizing stale n with
  | nil => rfl
  | cons pk ps ih =>
    unfold pieces
    split
    · exact ih _ _
    · rfl

/-- The first piece of a segment of the stream, and what is behind it. -/
theorem cut_stream {pk : Packet} {ps : List Packet} {seg piece : List UInt8} {n : ℕ}
    (hseg : seg <+: (stream (pk :: ps)).drop n) (hlt : n < pk.size)
    (heq : piece = seg.take (pk.size - n)) :
    piece <+: pk.bytes.drop n ∧
      (n + piece.length = pk.size → seg.drop piece.length <+: stream ps) := by
  have hdrop : (stream (pk :: ps)).drop n = pk.bytes.drop n ++ stream ps := by
    show (pk.bytes ++ stream ps).drop n = _
    rw [List.drop_append_of_le_length (by rw [pk.length_bytes]; omega)]
  have hlen : (pk.bytes.drop n).length = pk.size - n := by
    rw [List.length_drop, pk.length_bytes]
  rw [hdrop] at hseg
  constructor
  · have htake := hseg.take (pk.size - n)
    rwa [List.take_left' hlen, ← heq] at htake
  · intro hfull
    have hrest := hseg.drop piece.length
    rwa [List.drop_left' (by omega)] at hrest

/-! ### `readData` follows `advance` -/

/-- The rounds of one `readData`. -/
theorem rounds_spec (ps : List Packet) {s : TcpStickyWrap} {stale : UInt8} {got seg : List UInt8}
    (h : s.pack.Holding stale got) (hok : Cursor.Ok ⟨stale, got, ps⟩) (hbuf : s.recvBuf = [seg])
    (hne : seg ≠ []) (hlen : seg.length < 65536)
    (hseg : seg <+: (stream ps).drop got.length) (total : ℕ) :
    match advance ps stale got seg with
    | none => ∃ e, Loop.Ends pass (s, total) (.error e)
    | some (ms, c) => ∃ s', Loop.Ends pass (s, total) (.ok ((total : ℤ) + seg.length, s')) ∧
        s'.msgs = s.msgs ++ ms ∧ s'.recvBuf = [] ∧ s'.pack.Holding c.stale c.got := by
  induction ps generalizing s stale got seg total with
  | nil =>
    -- there is nothing left to receive
    rw [show stream [] = [] from rfl, List.drop_nil, List.prefix_nil] at hseg
    exact absurd hseg hne
  | cons pk ps ih =>
    obtain ⟨hlt, hpre⟩ : got.length < pk.size ∧ got.take 4 <+: pk.bytes := hok
    obtain ⟨piece, heq⟩ : ∃ piece, piece = seg.take (pk.size - got.length) := ⟨_, rfl⟩
    have hplen : piece.length = min (pk.size - got.length) seg.length := by
      rw [heq, List.length_take]
    obtain ⟨hpiece, hbehind⟩ := cut_stream hseg hlt heq
    unfold advance
    rw [if_neg hne]
    simp only [← heq]
    by_cases htrap : Trap stale got piece
    · rw [if_pos htrap]
      obtain ⟨rfl, hzero, rfl⟩ := htrap
      have hone : seg = [0] := by
        have hgt := pk.size_gt
        rw [hzero, List.length_singleton, List.length_nil] at hplen
        rw [List.length_nil] at heq
        rwa [List.take_of_length_le (by omega), hzero, eq_comm] at heq
      rw [hone] at hbuf
      exact ⟨_, .fault (pass_trap h hbuf total)⟩
    · rw [if_neg htrap]
      obtain ⟨s', hpass, hbuf', hrest⟩ :=
        pass_spec h hpre hlt hbuf hne hlen heq hpiece htrap total
      by_cases hfull : got.length + piece.length = pk.size
      · rw [if_pos hfull] at hrest ⊢
        obtain ⟨hmsgs, hhold⟩ := hrest
        by_cases hall : seg.length ≤ piece.length
        · rw [if_pos hall] at hpass hbuf'
          have hlast : piece.length = seg.length := by omega
          rw [hlast] at hpass
          rw [List.drop_eq_nil_of_le hall, advance_nil]
          exact ⟨s', .done hpass, hmsgs, hbuf', hhold⟩
        · rw [if_neg hall] at hpass hbuf'
          -- the rest of the segment starts the next packet
          have hne' : seg.drop piece.length ≠ [] := by
            rw [ne_eq, List.drop_eq_nil_iff]
            exact hall
          have hnext := ih hhold (Cursor.ok_start pk.high ps) hbuf' hne'
            (by rw [List.length_drop]; omega) (hbehind hfull) (total + piece.length)
          cases hadv : advance ps pk.high [] (seg.drop piece.length) with
          | none =>
            rw [hadv] at hnext
            obtain ⟨e, he⟩ := hnext
            exact ⟨e, he.next hpass⟩
          | some x =>
            rw [hadv] at hnext
            obtain ⟨s'', hends, hmsgs', hbuf'', hhold'⟩ := hnext
            refine ⟨s'', ?_, ?_, hbuf'', hhold'⟩
            · have htotal : ((total + piece.length : ℕ) : ℤ) + (seg.drop piece.length).length =
                  (total : ℤ) + seg.length := by
                rw [List.length_drop]
                omega
              rw [htotal] at hends
              exact hends.next hpass
            · rw [hmsgs', hmsgs, List.append_assoc]
              rfl
      · rw [if_neg hfull] at hrest ⊢
        obtain ⟨hmsgs, hhold⟩ := hrest
        have hall : seg.length ≤ piece.length := by omega
        rw [if_pos hall] at hpass hbuf'
        have hlast : piece.length = seg.length := by omega
        rw [hlast] at hpass
        exact ⟨s', .done hpass, by rw [hmsgs, List.append_nil], hbuf', hhold⟩

/-- A `readData` on a segment of the stream. -/
theorem readData_spec (ps : List Packet) {s : TcpStickyWrap} {stale : UInt8} {got : List UInt8}
    (h : s.pack.Holding stale got) (hok : Cursor.Ok ⟨stale, got, ps⟩) (hbuf : s.recvBuf = [])
    (seg : Segment) (hseg : seg.bytes <+: (stream ps).drop got.length) :
    match advance ps stale got seg.bytes with
    | none => ∀ s', ¬ Reads s seg s'
    | some (ms, c) => ∃ s', (∀ s'', Reads s seg s'' ↔ s'' = s') ∧
        s'.msgs = s.msgs ++ ms ∧ s'.recvBuf = [] ∧ s'.pack.Holding c.stale c.got := by
  have hrounds := rounds_spec ps (s := { s with recvBuf := s.recvBuf ++ [seg.bytes] }) h hok
    (by rw [hbuf]; rfl) seg.ne seg.fits hseg 0
  cases hadv : advance ps stale got seg.bytes with
  | none =>
    rw [hadv] at hrounds
    obtain ⟨e, he⟩ := hrounds
    rintro s' ⟨fuel, r, hread, -⟩
    cases he.unique ⟨fuel, hread⟩
  | some x =>
    rw [hadv] at hrounds
    obtain ⟨s', hends, hmsgs, hbuf', hhold⟩ := hrounds
    refine ⟨s', fun s'' => ⟨?_, ?_⟩, hmsgs, hbuf', hhold⟩
    · rintro ⟨fuel, r, hread, -⟩
      cases hends.unique ⟨fuel, hread⟩
      rfl
    · rintro rfl
      obtain ⟨fuel, hread⟩ := hends
      exact ⟨fuel, _, hread, by omega⟩

/-! ### `advance` against the packets -/

theorem completed_of_lt {pk : Packet} {ps : List Packet} {n : ℕ} (h : n < pk.size) :
    completed (pk :: ps) n = [] :=
  if_neg (by omega)

theorem completed_cons (pk : Packet) (ps : List Packet) (n : ℕ) :
    completed (pk :: ps) (pk.size + n) = pk :: completed ps n := by
  show (if pk.size ≤ pk.size + n then _ else _) = _
  rw [if_pos (by omega), Nat.add_sub_cancel_left]

theorem pieces_cons (pk : Packet) (ps : List Packet) (stale : UInt8) (n : ℕ) (seg : List UInt8) :
    pieces (pk :: ps) stale (pk.size + n) seg = pieces ps pk.high n seg := by
  show (if pk.size ≤ pk.size + n then _ else _) = _
  rw [if_pos (by omega), Nat.add_sub_cancel_left]

theorem pieces_of_lt {pk : Packet} {ps : List Packet} {stale : UInt8} {n : ℕ} {seg : List UInt8}
    (hn : n < pk.size) (hne : seg ≠ []) :
    pieces (pk :: ps) stale n seg =
      ⟨stale, n, seg.take (pk.size - n)⟩ :: pieces ps pk.high 0 (seg.drop (pk.size - n)) := by
  show (if pk.size ≤ n then _ else _) = _
  rw [if_neg (by omega), if_neg hne]

/-- The last piece of a packet makes it right exactly if what was held and the piece are. -/
theorem complete_iff {pk : Packet} {got piece : List UInt8}
    (hpiece : piece <+: pk.bytes.drop got.length)
    (hfull : got.length + piece.length = pk.size) :
    got ++ copied got.length piece = pk.bytes ↔
      got <+: pk.bytes ∧ copied got.length piece = piece := by
  have hrest : piece = pk.bytes.drop got.length :=
    hpiece.eq_of_length (by rw [List.length_drop, pk.length_bytes]; omega)
  constructor
  · intro h
    refine ⟨⟨_, h⟩, ?_⟩
    have hd := congrArg (List.drop got.length) h
    rwa [List.drop_left, ← hrest] at hd
  · rintro ⟨hgot, hcopied⟩
    rw [hcopied, hrest]
    conv_rhs => rw [← List.take_append_drop got.length pk.bytes]
    rw [← List.prefix_iff_eq_take.1 hgot]

/-- A piece that does not complete its packet keeps it right exactly if it is copied as it is. -/
theorem incomplete_iff {pk : Packet} {got piece : List UInt8}
    (hpiece : piece <+: pk.bytes.drop got.length) :
    got ++ copied got.length piece <+: pk.bytes ↔
      got <+: pk.bytes ∧ copied got.length piece = piece := by
  constructor
  · intro h
    have hgot : got <+: pk.bytes := (List.prefix_append _ _).trans h
    refine ⟨hgot, ?_⟩
    have hd : copied got.length piece <+: pk.bytes.drop got.length := by
      have hdrop := h.drop got.length
      rwa [List.drop_left] at hdrop
    exact (List.prefix_of_prefix_length_le hd hpiece (by simp)).eq_of_length (by simp)
  · rintro ⟨hgot, hcopied⟩
    rw [hcopied]
    exact Stream.append_prefix hgot hpiece

/-- The bytes held complete no packet. -/
theorem completed_got {ps : List Packet} {stale : UInt8} {got : List UInt8}
    (hok : Cursor.Ok ⟨stale, got, ps⟩) : completed ps got.length = [] := by
  cases ps with
  | nil => rfl
  | cons pk ps => exact completed_of_lt hok.1

/-- What `advance` leaves is a cursor on the rest of the stream. -/
structure Follows (ps : List Packet) (stale : UInt8) (got seg : List UInt8)
    (ms : List ServerMsg) (c : Cursor) : Prop where
  ok : c.Ok
  stream_eq : (stream ps).drop (got.length + seg.length) = (stream c.rest).drop c.got.length
  completed_eq : ∀ n, completed ps (got.length + seg.length + n) =
    completed ps (got.length + seg.length) ++ completed c.rest (c.got.length + n)
  pieces_eq : ∀ n seg', pieces ps stale (got.length + seg.length + n) seg' =
    pieces c.rest c.stale (c.got.length + n) seg'
  right_iff : (Cursor.Right ⟨stale, got, ps⟩ ∧ ∀ x ∈ pieces ps stale got.length seg, x.Fine) ↔
    ms = (completed ps (got.length + seg.length)).map Packet.msg ∧ c.Right

/-- Without bytes nothing changes. -/
theorem Follows.refl {ps : List Packet} {stale : UInt8} {got : List UInt8}
    (hok : Cursor.Ok ⟨stale, got, ps⟩) : Follows ps stale got [] [] ⟨stale, got, ps⟩ := by
  have hnone := completed_got hok
  refine ⟨hok, rfl, fun n => ?_, fun n seg' => rfl, ?_⟩
  · rw [List.length_nil, Nat.add_zero, hnone]
    rfl
  · rw [List.length_nil, Nat.add_zero, hnone, pieces_nil]
    simp

/-- A piece that completes its packet, followed by the rest of the segment. -/
theorem Follows.complete {pk : Packet} {ps : List Packet} {stale : UInt8}
    {got piece seg : List UInt8} {ms : List ServerMsg} {c : Cursor}
    (heq : piece = seg.take (pk.size - got.length)) (hne : seg ≠ []) (hlt : got.length < pk.size)
    (hpiece : piece <+: pk.bytes.drop got.length) (htrap : ¬ Trap stale got piece)
    (hfull : got.length + piece.length = pk.size)
    (h : Follows ps pk.high [] (seg.drop piece.length) ms c) :
    Follows (pk :: ps) stale got seg
      (⟨pk.msgId.toNat, got ++ copied got.length piece⟩ :: ms) c := by
  have hlen : got.length + seg.length = pk.size + (seg.drop piece.length).length := by
    have hple : piece.length ≤ seg.length := by
      rw [heq, List.length_take]
      exact min_le_right _ _
    rw [List.length_drop]
    omega
  have hsub : pk.size - got.length = piece.length := by omega
  obtain ⟨hok, hstream, hcompleted, hpieces, hright⟩ := h
  simp only [List.length_nil, Nat.zero_add] at hstream hcompleted hpieces hright
  refine ⟨hok, ?_, fun n => ?_, fun n seg' => ?_, ?_⟩
  · rw [hlen, ← hstream]
    show (pk.bytes ++ stream ps).drop _ = _
    rw [← pk.length_bytes, List.drop_append, List.drop_eq_nil_of_le (by omega),
      Nat.add_sub_cancel_left, List.nil_append]
  · rw [hlen, Nat.add_assoc, completed_cons, completed_cons, hcompleted]
    rfl
  · rw [hlen, Nat.add_assoc, pieces_cons, hpieces]
  · have hmsg : (⟨pk.msgId.toNat, got ++ copied got.length piece⟩ : ServerMsg) = pk.msg ↔
        got <+: pk.bytes ∧ copied got.length piece = piece := by
      rw [← complete_iff hpiece hfull]
      simp [Packet.msg]
    -- nothing of the next packet is there, so that its bytes cannot be wrong
    have hnil : Cursor.Right ⟨pk.high, [], ps⟩ := by
      cases ps with
      | nil => trivial
      | cons _ _ => exact List.nil_prefix
    -- outside the trap a piece is fine exactly if it is copied as it is
    have hfine : Piece.Fine ⟨stale, got.length, piece⟩ ↔ copied got.length piece = piece := by
      refine and_iff_left fun ht => htrap ?_
      exact ⟨List.length_eq_zero_iff.1 ht.1, ht.2⟩
    rw [pieces_of_lt hlt hne, ← heq, hsub, hlen, completed_cons, List.map_cons,
      List.cons.injEq, hmsg, List.forall_mem_cons, hfine, and_assoc, ← hright]
    simp only [hnil, true_and]
    exact and_assoc.symm

/-- A piece that leaves its packet unfinished is all of the segment. -/
theorem Follows.incomplete {pk : Packet} {ps : List Packet} {stale : UInt8}
    {got seg : List UInt8} (hne : seg ≠ []) (hpre : got.take 4 <+: pk.bytes)
    (hpiece : seg <+: pk.bytes.drop got.length) (htrap : ¬ Trap stale got seg)
    (hlt : got.length + seg.length < pk.size) :
    Follows (pk :: ps) stale got seg [] ⟨stale, got ++ copied got.length seg, pk :: ps⟩ := by
  have hlen : (got ++ copied got.length seg).length = got.length + seg.length := by
    rw [List.length_append, length_copied]
  refine ⟨⟨by rw [hlen]; exact hlt, ?_⟩, ?_, fun n => ?_, fun n seg' => ?_, ?_⟩
  · exact header_copied hpre hpiece
  · rw [hlen]
  · rw [completed_of_lt hlt, hlen]
    rfl
  · rw [hlen]
  · have hle : seg.length ≤ pk.size - got.length := by omega
    have hfine : Piece.Fine ⟨stale, got.length, seg⟩ ↔ copied got.length seg = seg := by
      refine and_iff_left fun ht => htrap ?_
      exact ⟨List.length_eq_zero_iff.1 ht.1, ht.2⟩
    have hpos := List.length_pos_iff.2 hne
    rw [pieces_of_lt (by omega) hne, List.take_of_length_le hle, List.drop_eq_nil_of_le hle,
      pieces_nil, List.forall_mem_singleton, hfine, completed_of_lt hlt]
    show got <+: pk.bytes ∧ _ ↔ _ ∧ got ++ copied got.length seg <+: pk.bytes
    rw [incomplete_iff hpiece]
    simp

/-- `advance` either falls into a trap, at a piece that is not fine, or follows the stream. -/
theorem advance_spec (ps : List Packet) {stale : UInt8} {got seg : List UInt8}
    (hok : Cursor.Ok ⟨stale, got, ps⟩) (hseg : seg <+: (stream ps).drop got.length) :
    match advance ps stale got seg with
    | none => ∃ x ∈ pieces ps stale got.length seg, ¬ x.Fine
    | some (ms, c) => Follows ps stale got seg ms c := by
  -- on the packets: what is left of the segment behind one is cut at the next
  induction ps generalizing stale got seg with
  | nil =>
    rw [show stream [] = [] from rfl, List.drop_nil, List.prefix_nil] at hseg
    subst hseg
    exact Follows.refl hok
  | cons pk ps ih =>
    by_cases hne : seg = []
    · subst hne
      rw [advance_nil]
      exact Follows.refl hok
    · obtain ⟨hlt, hpre⟩ : got.length < pk.size ∧ got.take 4 <+: pk.bytes := hok
      obtain ⟨piece, heq⟩ : ∃ piece, piece = seg.take (pk.size - got.length) := ⟨_, rfl⟩
      obtain ⟨hpiece, hrest⟩ := cut_stream hseg hlt heq
      unfold advance
      rw [if_neg hne]
      simp only [← heq]
      by_cases htrap : Trap stale got piece
      · rw [if_pos htrap]
        refine ⟨⟨stale, got.length, piece⟩, ?_, fun hfine => hfine.2 ?_⟩
        · rw [pieces_of_lt hlt hne, ← heq]
          exact List.mem_cons_self
        · exact ⟨by rw [htrap.1]; rfl, htrap.2⟩
      · rw [if_neg htrap]
        by_cases hfull : got.length + piece.length = pk.size
        · rw [if_pos hfull]
          have hnext := ih (Cursor.ok_start pk.high ps) (hrest hfull)
          cases hadv : advance ps pk.high [] (seg.drop piece.length) with
          | none =>
            rw [hadv] at hnext
            obtain ⟨x, hx, hbad⟩ := hnext
            refine ⟨x, ?_, hbad⟩
            have hsub : pk.size - got.length = piece.length := by omega
            rw [pieces_of_lt hlt hne, hsub]
            exact List.mem_cons_of_mem _ hx
          | some x =>
            rw [hadv] at hnext
            exact hnext.complete heq hne hlt hpiece htrap hfull
        · rw [if_neg hfull]
          have hlen : piece.length = min (pk.size - got.length) seg.length := by
            rw [heq, List.length_take]
          have hall : piece = seg := by
            rw [heq, List.take_of_length_le (by omega)]
          subst hall
          exact Follows.incomplete hne hpre hpiece htrap (by omega)

/-! ### The segments one after the other -/

/-- At the end of the stream no packet is unfinished. -/
theorem Cursor.Ok.right_of_end {stale : UInt8} {got : List UInt8} {ps : List Packet}
    (hok : Cursor.Ok ⟨stale, got, ps⟩) (hend : (stream ps).drop got.length = []) :
    Cursor.Right ⟨stale, got, ps⟩ := by
  cases ps with
  | nil => trivial
  | cons pk ps =>
    have hlt : got.length < pk.size := hok.1
    have hlen := List.drop_eq_nil_iff.1 hend
    rw [show stream (pk :: ps) = pk.bytes ++ stream ps from rfl, List.length_append,
      pk.length_bytes] at hlen
    omega

/-- From a state that holds part of a packet: the deliveries are those of the complete packets
exactly if what is held is right and all pieces to come are fine. -/
theorem exact_from (head : Option ℕ) (m : ℕ → UInt8) (segs : List Segment) {s : TcpStickyWrap}
    {stale : UInt8} {got : List UInt8} {ps : List Packet} (h : s.pack.Holding stale got)
    (hok : Cursor.Ok ⟨stale, got, ps⟩) (hbuf : s.recvBuf = [])
    (hcut : received segs = (stream ps).drop got.length) :
    (∀ pre post, segs = pre ++ post → ∃ s', (system head m).Run s pre s' ∧
      s'.msgs = s.msgs ++ (completed ps (got.length + (received pre).length)).map Packet.msg) ↔
    (Cursor.Right ⟨stale, got, ps⟩ ∧ ∀ pre seg post, segs = pre ++ seg :: post →
      ∀ x ∈ pieces ps stale (got.length + (received pre).length) seg.bytes, x.Fine) := by
  induction segs generalizing s stale got ps with
  | nil =>
    -- nothing is left of the stream, so no packet is unfinished
    have hdone : Cursor.Right ⟨stale, got, ps⟩ := hok.right_of_end hcut.symm
    constructor
    · intro _
      refine ⟨hdone, fun pre seg post heq => ?_⟩
      simp at heq
    · intro _ pre post heq
      obtain ⟨rfl, -⟩ := List.append_eq_nil_iff.1 heq.symm
      exact ⟨s, .nil s, by simp [received, completed_got hok]⟩
  | cons seg segs ih =>
    have hcut' : seg.bytes ++ received segs = (stream ps).drop got.length := hcut
    have hseg : seg.bytes <+: (stream ps).drop got.length := ⟨_, hcut'⟩
    have hread := readData_spec ps h hok hbuf seg hseg
    have hadvance := advance_spec ps hok hseg
    rw [Stream.forall_prefix_cons, Stream.forall_split_cons]
    simp only [show received [] = [] from rfl, List.length_nil, Nat.add_zero]
    cases hadv : advance ps stale got seg.bytes with
    | none =>
      rw [hadv] at hread hadvance
      obtain ⟨x, hx, hbad⟩ := hadvance
      constructor
      · rintro ⟨-, hrun⟩
        obtain ⟨s', hs', -⟩ := hrun [] segs rfl
        cases hs' with
        | cons hstep _ => exact absurd hstep (hread _)
      · rintro ⟨-, hfine, -⟩
        exact absurd (hfine x hx) hbad
    | some r =>
      obtain ⟨ms, c⟩ := r
      rw [hadv] at hread hadvance
      obtain ⟨s', hreads, hmsgs, hbuf', hhold⟩ := hread
      have hf : Follows ps stale got seg.bytes ms c := hadvance
      have hcut'' : received segs = (stream c.rest).drop c.got.length := by
        rw [← hf.stream_eq, ← List.drop_drop, ← hcut', List.drop_left]
      have hlen : ∀ pre, (received (seg :: pre)).length =
          seg.bytes.length + (received pre).length := fun pre => by
        simp [received]
      have hcons : ∀ pre t, (system head m).Run s (seg :: pre) t ↔
          (system head m).Run s' pre t := fun _ _ => LTS.Run.cons_iff hreads
      simp only [hlen, ← Nat.add_assoc, hf.completed_eq, hf.pieces_eq, hcons,
        List.map_append, ← List.append_assoc]
      rw [← and_assoc (b := ∀ x ∈ pieces ps stale got.length seg.bytes, x.Fine), hf.right_iff,
        and_assoc, ← ih hhold hf.ok hbuf' hcut'']
      constructor
      · rintro ⟨-, hrun⟩
        obtain ⟨t, ht, hmsgs'⟩ := hrun [] segs rfl
        have hms : ms = (completed ps (got.length + seg.bytes.length)).map Packet.msg := by
          cases ht
          simpa [hmsgs, received, completed_got hf.ok] using hmsgs'
        refine ⟨hms, fun pre post heq => ?_⟩
        rw [hmsgs, hms]
        exact hrun pre post heq
      · rintro ⟨hms, hrun⟩
        refine ⟨⟨s, .nil s, by simp [completed_got hok]⟩, fun pre post heq => ?_⟩
        rw [← hms, ← hmsgs]
        exact hrun pre post heq

/-- From the constructor on, reassembly is exact exactly for the fine cuts. -/
theorem exact_iff_fineCut (m : ℕ → UInt8) (ps : List Packet) (segs : List Segment)
    (hcut : received segs = stream ps) : Exact m ps segs ↔ FineCut (m 1) ps segs := by
  have hnew : (new (some 0) m).pack.Holding (m 1) [] := new_holding m
  have hiff := exact_from (some 0) m segs hnew (Cursor.ok_start (m 1) ps) rfl hcut
  have hright : Cursor.Right ⟨m 1, [], ps⟩ := by
    cases ps with
    | nil => trivial
    | cons _ _ => exact List.nil_prefix
  simp only [hright, true_and, List.length_nil, Nat.zero_add] at hiff
  exact hiff

/-- Reassembly of any packets, cut in any way into segments, with `_head` set and any contents of
the allocated block, is exact if and only if every piece of the cut is copied as it is. -/
theorem reassembly_exact_iff (m : ℕ → UInt8) (ps : List Packet) (segs : List Segment)
    (hcut : received segs = stream ps) :
    Exact m ps segs ↔
      ∀ pre seg post, segs = pre ++ seg :: post →
        ∀ x ∈ pieces ps (m 1) (received pre).length seg.bytes,
          copied x.before x.bytes = x.bytes ∧
            ¬ (x.before = 0 ∧ x.bytes = [0] ∧ x.stale = 0) :=
  exact_iff_fineCut m ps segs hcut

/-- A packet with one body byte. -/
def samplePacket : Packet := ⟨1, [7], by decide, by decide⟩

/-- The packet cut behind its header. -/
def sampleCut : List Segment := [⟨[5, 0, 1, 0], by decide, by decide⟩, ⟨[7], by decide, by decide⟩]

theorem reassembly_exact_sample : Exact (fun _ => 0) [samplePacket] sampleCut := by
  refine (reassembly_exact_iff (fun _ => 0) [samplePacket] sampleCut (by decide)).2 ?_
  unfold sampleCut
  rw [Stream.forall_split_cons, Stream.forall_split_cons]
  refine ⟨by decide, by decide, fun pre seg post heq => ?_⟩
  simp at heq

/-- The packet in one segment. -/
def wholePacket : Segment := ⟨[5, 0, 1, 0, 7], by decide, by decide⟩

/-- A packet received whole is delivered with its first byte in the place of its body byte. -/
theorem body_copied_from_start :
    received [wholePacket] = stream [samplePacket] ∧
    (∃ s, Reads (new (some 0) fun _ => 0) wholePacket s ∧ s.msgs = [⟨1, [5, 0, 1, 0, 5]⟩]) ∧
    ¬ Exact (fun _ => 0) [samplePacket] [wholePacket] := by
  refine ⟨by decide, ⟨_, ⟨2, 5, rfl, by decide⟩, by decide⟩, fun hexact => ?_⟩
  have hfine := (exact_iff_fineCut _ _ _ (by decide)).1 hexact
  have hpiece := hfine [] wholePacket [] rfl ⟨0, 0, [5, 0, 1, 0, 7]⟩ (by decide)
  exact absurd hpiece (by decide)

end Tcp
end NetService
