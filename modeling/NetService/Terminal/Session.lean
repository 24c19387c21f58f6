import NetService.Terminal.Model

/-!
# A session of `client.cc` with the server

However the terminal and the network go on, the server makes one `ServerPack` for each line of which
the packet has arrived, in order and of the right length (`session_framed`).  A packet without a body,
as the client sends at the end of its input, is never passed.

`Blocked` says where a session stops: one byte behind the header of an empty line, and where the first
length byte of a packet arrives alone, is zero, and lies before a zero in `_pData`.  That zero is left
by a packet below 256 bytes, or before the first packet by the block that the constructor has been
given (`arrive_iff`).
-/

namespace NetService
namespace Terminal

open Tcp TcpStickyWrap Memory

/-- The packets of the lines, one after the other. -/
def requests (lines : List (List UInt8)) : List UInt8 := lines.flatMap request

theorem requests_cons (line : List UInt8) (lines : List (List UInt8)) :
    requests (line :: lines) = request line ++ requests lines := rfl

theorem requests_append (lines lines' : List (List UInt8)) :
    requests (lines ++ lines') = requests lines ++ requests lines' :=
  List.flatMap_append

theorem lenOf_request {line : List UInt8} (h : line.length ≤ 1020) (l : List UInt8) :
    lenOf (request line ++ l) = line.length + 4 :=
  le16_decode (by omega)

/-- The length of bytes that begin a packet. -/
theorem lenOf_of_prefix {line l l' : List UInt8} (h : line.length ≤ 1020) (htwo : 2 ≤ l.length)
    (hl : l <+: request line ++ l') : lenOf l = line.length + 4 := by
  rw [← lenOf_request h l', lenOf_congr hl htwo]

/-! ### What the server has of the lines -/

/-- The first bytes of the packet of the next line, all of them only if it has no body. -/
def Begun (rest : List UInt8) (lines : List (List UInt8)) : Prop :=
  ∀ line ∈ lines.head?, rest.length < line.length + 4 ∨ line = [] ∧ rest.length = 4

/-- Bytes of the packets of some lines are split into these packets. -/
theorem splits_requests {first stale : UInt8} {read rest wire : List UInt8}
    {parts : List (List UInt8)} (h : Splits first read parts stale rest)
    {ls : List (List UInt8)} (hls : ∀ line ∈ ls, line.length ≤ 1020)
    (hread : requests ls = read ++ wire) :
    ∃ done todo, ls = done ++ todo ∧ parts = done.map request ∧ (∀ line ∈ done, line ≠ []) ∧
      requests todo = rest ++ wire ∧ Begun rest todo := by
  induction h generalizing ls with
  | @rest stale l hu =>
    refine ⟨[], ls, rfl, rfl, fun _ hline => absurd hline List.not_mem_nil, hread, ?_⟩
    intro line hline
    obtain ⟨ls', rfl⟩ := List.head?_eq_some_iff.1 hline
    have hlen := hls line List.mem_cons_self
    by_contra hlong
    rw [not_or, Nat.not_lt] at hlong
    obtain ⟨hle, hbare⟩ := hlong
    have hprefix : l <+: request line ++ requests ls' := ⟨wire, hread.symm⟩
    have hlenOf : lenOf l = line.length + 4 := lenOf_of_prefix hlen (by omega) hprefix
    have hfits := hu.fits (by omega)
    have hfour := hu.bare (by omega)
    exact hbare ⟨List.length_eq_zero_iff.1 (by omega), by omega⟩
  | @whole stale stale' p l rest parts hp _ ih =>
    have hbody := hp.body
    cases ls with
    | nil =>
      have hnil := congrArg List.length hread
      simp [requests] at hnil
      omega
    | cons line ls =>
      rw [requests_cons, List.append_assoc] at hread
      have hlen := hls line List.mem_cons_self
      -- both begin with the same length
      have hlenOf : p.length = line.length + 4 := by
        have hprefix : p <+: request line ++ requests ls := ⟨_, hread.symm⟩
        rw [← hp.len]
        exact lenOf_of_prefix hlen (by omega) hprefix
      obtain ⟨rfl, hrest⟩ := List.append_inj hread (by rw [length_request, hlenOf])
      obtain ⟨done, todo, rfl, rfl, hne, htodo, hbegun⟩ :=
        ih (fun line' hline' => hls line' (List.mem_cons_of_mem _ hline')) hrest
      refine ⟨line :: done, todo, rfl, rfl, ?_, htodo, hbegun⟩
      refine List.forall_mem_cons.2 ⟨?_, hne⟩
      rintro rfl
      simp at hbody

/-! ### Where the server stops -/

/-- With `n` bytes of the packets of these lines, `readData` does not return, or fails; `stale` is the
high length byte of the packet before, or what the block had there before the first packet. -/
def Blocked : UInt8 → ℕ → List (List UInt8) → Prop
  | _, _, [] => False
  | stale, n, line :: lines =>
      if line = [] then 4 < n
      else if line.length + 4 ≤ n then
        Blocked (UInt8.ofNat ((line.length + 4) / 256)) (n - (line.length + 4)) lines
      else n = 1 ∧ stale = 0 ∧ (line.length + 4) % 256 = 0

/-- The packet of a line that is not empty is a whole one. -/
theorem whole_request {line : List UInt8} (hne : line ≠ []) (h : line.length ≤ 1020) :
    Whole (request line) where
  len := by
    have hlen := lenOf_request h []
    rwa [List.append_nil, ← length_request] at hlen
  body := by
    have hpos := List.length_pos_iff.2 hne
    rw [length_request]
    omega
  cap := by
    rw [length_request]
    unfold packCap
    omega

/-- Behind an empty line's packet there is no way on. -/
theorem refused_empty_iff {stale : UInt8} {l l' : List UInt8} (hl : l <+: request [] ++ l') :
    Refused stale l ↔ 4 < l.length := by
  have hshort : ([] : List UInt8).length ≤ 1020 := by decide
  have hlen : 2 ≤ l.length → lenOf l = 4 := fun htwo => lenOf_of_prefix hshort htwo hl
  constructor
  · intro hrefused
    cases hrefused with
    | lone =>
      -- the first byte of the packet is 4
      obtain ⟨t, ht⟩ := hl
      exact absurd (List.cons.inj ht).1 (by decide)
    | low two low => exact absurd (hlen two) (by omega)
    | high four high => exact absurd (hlen (by omega)) (by unfold packCap at high; omega)
    | stall _ more => exact more
    | later low _ hrest =>
      by_contra hshort
      by_cases htwo : 2 ≤ l.length
      · exact absurd (hlen htwo) (by omega)
      · have hpos := List.length_pos_iff.2 hrest.ne_nil
        rw [List.length_drop] at hpos
        omega
  · intro hmore
    exact .stall (hlen (by omega)) hmore

/-- In the packet of a line that is not empty, one zero byte may be read as a length. -/
theorem refused_within_iff {stale : UInt8} {line l l' : List UInt8} (hne : line ≠ [])
    (hline : line.length ≤ 1020) (hl : l <+: request line ++ l')
    (hshort : l.length < line.length + 4) :
    Refused stale l ↔ l.length = 1 ∧ stale = 0 ∧ (line.length + 4) % 256 = 0 := by
  have hpos := List.length_pos_iff.2 hne
  have hlen : 2 ≤ l.length → lenOf l = line.length + 4 := fun htwo =>
    lenOf_of_prefix hline htwo hl
  have hfirst : ∀ b, l = [b] → b.toNat = (line.length + 4) % 256 := by
    rintro b rfl
    obtain ⟨t, ht⟩ := hl
    rw [(List.cons.inj ht).1]
    exact UInt8.toNat_ofNat'
  constructor
  · intro hrefused
    cases hrefused with
    | lone => exact ⟨rfl, rfl, (hfirst 0 rfl).symm⟩
    | low two low => exact absurd (hlen two) (by omega)
    | high four high => exact absurd (hlen (by omega)) (by unfold packCap at high; omega)
    | stall four more => exact absurd (hlen (by omega)) (by omega)
    | later low _ hrest =>
      have hrest := List.length_pos_iff.2 hrest.ne_nil
      rw [List.length_drop] at hrest
      exact absurd (hlen (by omega)) (by omega)
  · rintro ⟨hone, rfl, hmod⟩
    obtain ⟨b, rfl⟩ := List.length_eq_one_iff.1 hone
    have hzero : b = 0 := UInt8.toNat_inj.1 ((hfirst b rfl).trans hmod)
    rw [hzero]
    exact .lone

/-- Which bytes of the packets are refused depends on their number. -/
theorem refused_iff_blocked {ls : List (List UInt8)} (hls : ∀ line ∈ ls, line.length ≤ 1020)
    {stale : UInt8} {l : List UInt8} (hl : l <+: requests ls) :
    Refused stale l ↔ Blocked stale l.length ls := by
  induction ls generalizing stale l with
  | nil =>
    rw [List.prefix_nil.1 hl]
    exact ⟨fun hrefused => hrefused.ne_nil rfl, False.elim⟩
  | cons line ls ih =>
    obtain ⟨hline, hls⟩ := List.forall_mem_cons.1 hls
    rw [requests_cons] at hl
    unfold Blocked
    by_cases hempty : line = []
    · subst hempty
      rw [if_pos rfl]
      exact refused_empty_iff hl
    rw [if_neg hempty]
    by_cases hlong : line.length + 4 ≤ l.length
    · obtain ⟨l', rfl⟩ : request line <+: l :=
        List.prefix_of_prefix_length_le (List.prefix_append _ _) hl (by rwa [length_request])
      have hhigh : (request line).getD 1 0 = UInt8.ofNat ((line.length + 4) / 256) := rfl
      rw [if_pos hlong, (whole_request hempty hline).refused_iff, hhigh,
        ih hls ((List.prefix_append_right_inj _).1 hl), List.length_append, length_request,
        Nat.add_sub_cancel_left]
    · rw [if_neg hlong]
      exact refused_within_iff hempty hline hl (Nat.not_le.1 hlong)

/-! ### Runs -/

/-- The lines read so far have been sent, and what has arrived of them is framed. -/
structure Sent (m : ℕ → UInt8) (ls : List (List UInt8)) (s : Session) : Prop where
  short : ∀ line ∈ ls, line.length ≤ 1020
  framed : ∃ received, Framed (m 1) s.server received ∧ requests ls = received ++ s.wire

theorem Sent.step {m : ℕ → UInt8} {ls : List (List UInt8)} {s s' : Session} {a : Act}
    (h : Sent m ls s) (hstep : (session m).step s a s') : Sent m (ls ++ lines [a]) s' := by
  obtain ⟨received, hframed, hsent⟩ := h.framed
  cases hstep with
  | @input line out hread =>
    obtain ⟨_, hline, hlen, rfl⟩ := readTerminal_eq_some.1 hread
    cases hline
    refine ⟨?_, received, hframed, ?_⟩
    · intro line hline
      rcases List.mem_append.1 hline with hold | hnew
      · exact h.short line hold
      · rwa [List.mem_singleton.1 hnew]
    · have hlast : requests (lines [Act.input line]) = request line := List.append_nil _
      rw [requests_append, hsent, hlast, List.append_assoc]
  | @arrive bs wire server _ hwire hstep =>
    rw [show lines [Act.arrive bs] = [] from rfl, List.append_nil]
    obtain ⟨read, _, _, _, hread, -⟩ := hframed.splits
    rcases hframed.step m bs hread with ⟨-, l', hiff, hl'⟩ | ⟨-, hno⟩
    · obtain rfl := (hiff server).1 hstep
      exact ⟨h.short, _, hl', by rw [hsent, hwire, List.append_assoc]⟩
    · exact absurd hstep (hno server)

theorem lines_cons (a : Act) (as : List Act) : lines (a :: as) = lines [a] ++ lines as := by
  cases a <;> rfl

theorem Sent.run {m : ℕ → UInt8} {ls : List (List UInt8)} {s s' : Session} {as : List Act}
    (h : Sent m ls s) (hrun : (session m).Run s as s') : Sent m (ls ++ lines as) s' := by
  induction hrun generalizing ls with
  | nil => rwa [show lines [] = [] from rfl, List.append_nil]
  | cons hstep _ ih =>
    rw [lines_cons, ← List.append_assoc]
    exact ih (h.step hstep)

theorem sent_new (m : ℕ → UInt8) : Sent m [] ⟨[], ⟨TcpStickyWrap.new (some 0) m, 0⟩⟩ :=
  ⟨fun _ hline => absurd hline List.not_mem_nil, [], framed_new m, rfl⟩

/-- A `ServerPack` for the packet of `line`: its own header, then the header of the packet. -/
structure PackFor (connId : UInt32) (line : List UInt8) (pack : ServerPack) : Prop where
  size : pack.size = line.length + 12
  msgId : pack.msgId = 100
  header : load pack.pData 0 12 = le16 (line.length + 12) ++ le16 100 ++ le32 connId ++
    (le16 (line.length + 4) ++ le16 100)

theorem idOf_request (line : List UInt8) : idOf (request line) = 100 := rfl

/-- The call of `MakeServerMsg` for a line. -/
theorem packFor_of_delivers (connId : UInt32) (junk : ℕ → UInt8) {msg : ServerMsg}
    {line : List UInt8} (hline : line.length ≤ 1020) (h : Delivers msg (request line)) :
    ∃ pack, makeServerMsg connId junk msg = some pack ∧ PackFor connId line pack := by
  have hlen : msg.data.length = line.length + 4 := by rw [h.data.length, length_request]
  obtain ⟨pack, hpack, hsize, hid, hload⟩ := ServerPack.new_spec connId (store junk 0 msg.data)
    msg.msgId (show msg.data.length + 8 < 65536 by omega)
    (show msg.data.length ≤ packCap by unfold packCap; omega)
  refine ⟨pack, hpack, by omega, by rw [hid, h.msgId, idOf_request], ?_⟩
  have htake := congrArg (List.take 12) hload
  rw [take_load _ _ _ _ (by omega), load_store, hlen, h.msgId, idOf_request] at htake
  have hfour : msg.data.take 4 = le16 (line.length + 4) ++ le16 100 := by
    rw [h.data.header]
    rfl
  rw [htake, ← hfour]
  rfl

/-- The calls of `MakeServerMsg` for some lines. -/
theorem packs_of_delivers (connId : UInt32) (junk : ℕ → UInt8) {msgs : List ServerMsg}
    {ls : List (List UInt8)} (hls : ∀ line ∈ ls, line.length ≤ 1020)
    (h : List.Forall₂ Delivers msgs (ls.map request)) :
    ∃ packs, msgs.mapM (makeServerMsg connId junk) = some packs ∧
      List.Forall₂ (PackFor connId) ls packs := by
  induction ls generalizing msgs with
  | nil =>
    cases h
    exact ⟨[], rfl, .nil⟩
  | cons line ls ih =>
    obtain ⟨hline, hls⟩ := List.forall_mem_cons.1 hls
    cases h with
    | cons hfirst hrest =>
      obtain ⟨pack, hpack, hfor⟩ := packFor_of_delivers connId junk hline hfirst
      obtain ⟨packs, hpacks, hall⟩ := ih hls hrest
      refine ⟨pack :: packs, ?_, .cons hfor hall⟩
      rw [List.mapM_cons, hpack, hpacks]
      rfl

/-- In every session, however the client's input and the network go on, the server makes one
`ServerPack` for each of the first lines, in order, none of which is empty, with the length and the
header of its packet; and it has taken the beginning of the packet of the next line, all of it only if
the line is empty.  What it holds of that packet agrees with it in length and header. -/
theorem session_framed (m : ℕ → UInt8) {as : List Act} {s : Session}
    (h : (session m).Run ⟨[], ⟨TcpStickyWrap.new (some 0) m, 0⟩⟩ as s) (connId : UInt32)
    (junk : ℕ → UInt8) :
    ∃ done todo packs rest, lines as = done ++ todo ∧ (∀ line ∈ done, line ≠ []) ∧
      s.server.wrap.msgs.mapM (makeServerMsg connId junk) = some packs ∧
      List.Forall₂ (PackFor connId) done packs ∧ Alike (pending s.server.wrap) rest ∧
      requests todo = rest ++ s.server.wrap.recvBuf.flatten ++ s.wire ∧ Begun rest todo := by
  have hsent : Sent m (lines as) s := (sent_new m).run h
  obtain ⟨received, hframed, hlines⟩ := hsent.framed
  obtain ⟨read, parts, stale, rest, hread, hsplit, hmsgs, hpending, -⟩ := hframed.splits
  rw [hread, List.append_assoc] at hlines
  obtain ⟨done, todo, hdone, rfl, hne, htodo, hbegun⟩ :=
    splits_requests hsplit hsent.short hlines
  have hshort : ∀ line ∈ done, line.length ≤ 1020 := fun line hline =>
    hsent.short line (hdone ▸ List.mem_append_left _ hline)
  obtain ⟨packs, hmap, hall⟩ := packs_of_delivers connId junk hshort hmsgs
  exact ⟨done, todo, packs, rest, hdone, hne, hmap, hall, hpending,
    by rw [htodo, List.append_assoc], hbegun⟩

/-- Two lines, of which the first arrives with a byte of the second. -/
def sampleActs : List Act := [.input [104, 105], .input [7], .arrive [6, 0, 100, 0, 104, 105, 5]]

theorem sample_session :
    ∃ s, (session fun _ => 0).Run ⟨[], ⟨TcpStickyWrap.new (some 0) fun _ => 0, 0⟩⟩ sampleActs s ∧
      s.wire = [0, 100, 0, 7] ∧ s.server.wrap.recvBuf = [] ∧
      (s.server.receive [0, 100, 0, 7]).wrap.recvBuf = [[0, 100, 0, 7]] := by
  obtain ⟨server, hstep, hbuf, hregion⟩ : ∃ server, (linkSys fun _ => 0).step
      ⟨TcpStickyWrap.new (some 0) fun _ => 0, 0⟩ [6, 0, 100, 0, 104, 105, 5] server ∧
      server.wrap.recvBuf = [] ∧
      (server.receive [0, 100, 0, 7]).wrap.recvBuf = [[0, 100, 0, 7]] :=
    ⟨⟨_, _⟩, ⟨3, 7, rfl, by decide, rfl⟩, rfl, rfl⟩
  have hread : ∀ line : List UInt8, line.length ≤ 1020 →
      readTerminal (some line) = some (request line) := fun line hline =>
    readTerminal_eq_some.2 ⟨line, rfl, hline, rfl⟩
  refine ⟨⟨[0, 100, 0, 7], server⟩, .cons (.input (hread _ (by decide)))
    (.cons (.input (hread _ (by decide))) (.cons (.arrive (by decide) rfl hstep) (.nil _))),
    rfl, hbuf, hregion⟩

theorem session_framed_sample :
    ∃ done todo packs rest, [[104, 105], [7]] = done ++ todo ∧
      List.Forall₂ (PackFor 9) done packs ∧ requests todo = rest ++ [0, 100, 0, 7] := by
  obtain ⟨s, hrun, hwire, hbuf, -⟩ := sample_session
  obtain ⟨done, todo, packs, rest, hdone, -, -, hpacks, -, htodo, -⟩ :=
    session_framed (fun _ => 0) hrun 9 (fun _ => 0)
  rw [hwire, hbuf, List.flatten_nil, List.append_nil] at htodo
  exact ⟨done, todo, packs, rest, hdone, hpacks, htodo⟩

/-- A few bytes of what is on the way are taken by the server unless they end, in the bytes read, where
it is blocked; `m` is the block of the constructor. -/
theorem arrive_iff (m : ℕ → UInt8) {as : List Act} {s : Session}
    (h : (session m).Run ⟨[], ⟨TcpStickyWrap.new (some 0) m, 0⟩⟩ as s) :
    ∃ read, requests (lines as) = read ++ s.server.wrap.recvBuf.flatten ++ s.wire ∧
      ∀ bs wire, bs ≠ [] → s.wire = bs ++ wire →
        ((∃ s', (session m).step s (.arrive bs) s') ↔
          ¬ Blocked (m 1) (read.length + ((s.server.receive bs).wrap.recvBuf.headD []).length)
            (lines as)) := by
  have hsent : Sent m (lines as) s := (sent_new m).run h
  obtain ⟨received, hframed, hlines⟩ := hsent.framed
  obtain ⟨read, _, _, _, hread, -⟩ := hframed.splits
  refine ⟨read, by rw [hlines, hread], fun bs wire hne hwire => ?_⟩
  have hpre : read ++ (s.server.receive bs).wrap.recvBuf.headD [] <+: requests (lines as) := by
    have hflatten := s.server.flatten_receive bs
    rw [← headD_append_tail] at hflatten
    rw [hlines, hread, hwire, List.append_assoc, ← List.append_assoc _ bs, ← hflatten,
      List.append_assoc]
    exact (List.prefix_append_right_inj read).2 (List.prefix_append _ _)
  rw [← List.length_append, ← refused_iff_blocked hsent.short hpre]
  rcases hframed.step m bs hread with ⟨hfree, l', hiff, -⟩ | ⟨hrefused, hno⟩
  · exact iff_of_true ⟨⟨wire, l'⟩, .arrive hne hwire ((hiff l').2 rfl)⟩ hfree
  · refine iff_of_false ?_ (fun hfree => hfree hrefused)
    rintro ⟨s', hstep⟩
    cases hstep with
    | arrive _ _ hstep => exact hno _ hstep

/-- The rest of the second line is taken. -/
theorem arrive_iff_sample :
    ∃ s s', (session fun _ => 0).Run ⟨[], ⟨TcpStickyWrap.new (some 0) fun _ => 0, 0⟩⟩ sampleActs s ∧
      (session fun _ => 0).step s (.arrive [0, 100, 0, 7]) s' := by
  obtain ⟨s, hrun, hwire, hbuf, hregion⟩ := sample_session
  obtain ⟨read, hread, hiff⟩ := arrive_iff (fun _ => 0) hrun
  have hlen : read.length = 7 := by
    have hlength := congrArg List.length hread
    rw [hwire, hbuf, List.flatten_nil, List.append_nil, List.length_append] at hlength
    exact Nat.add_right_cancel (m := 4) hlength.symm
  obtain ⟨s', hstep⟩ := (hiff [0, 100, 0, 7] [] (by decide) (by rw [hwire, List.append_nil])).2 (by
    rw [hlen, hregion]
    simp [Blocked, sampleActs, lines])
  exact ⟨s, s', hrun, hstep⟩

end Terminal
end NetService
