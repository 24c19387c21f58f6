import NetService.Lib.CString
import NetService.WsConnect.Serve

/-!
# When the opening handshake survives its segmentation

The first call that finds bytes looks for the end of the request in the first node only, fails when
it is not there, and consumes the whole node when it is.  So a request has to arrive in one piece and
alone, and to leave a `'\0'` behind it in the node (`fits_of_serves`, `first_answers`); and like
everything else that is received, it counts against the 8191 bytes `FdBridge::read` can take.
`handshakes_iff` says that these conditions are also enough.
-/

namespace NetService
namespace WsConnect

open MemoryBuff (Client Progress Inv Addr)

variable {env : Env} {w : WsConnect} {m : ℕ → UInt8} {junk : Ws.WsHead}

/-! ### The first node -/

/-- The string at the start of a zeroed block in which `bs` has been stored. -/
theorem cString_stored {b : MemoryBuff} {a : ℕ} {nd : ListNode} {bs : List UInt8}
    (hnd : b.heap a = some nd) (hcap : nd.cap = 4096)
    (hdata : nd.pData = Memory.store (fun _ => 0) 0 bs) (hlt : bs.length < 4096) (h : 0 ∉ bs) :
    b.cString ⟨a, 0⟩ = some bs := by
  obtain ⟨n, hn⟩ := Nat.exists_eq_add_of_lt hlt
  have hload : Memory.load nd.pData 0 4096 = bs ++ 0 :: List.replicate n 0 := by
    rw [hdata, hn, Nat.add_assoc, Memory.load_add, Memory.load_store, ← List.replicate_succ]
    congr 1
    refine List.eq_replicate_iff.2 ⟨Memory.length_load _ _ _, fun x hx => ?_⟩
    obtain ⟨k, hk, rfl⟩ := List.mem_map.1 hx
    rw [Nat.zero_add, List.mem_range'_1] at hk
    exact Memory.store_above _ _ (by omega)
  have htake : (bs ++ 0 :: List.replicate n 0).takeWhile (· ≠ 0) = bs := by
    rw [List.takeWhile_append_of_pos]
    · simp
    · intro x hx
      simpa using fun hzero : x = 0 => h (hzero ▸ hx)
  unfold MemoryBuff.cString
  simp only [hnd, hcap, Nat.sub_zero, hload]
  rw [if_pos (by simp), htake]

/-- The first chunk, while it leaves room in the first node. -/
theorem receives_first {chunk : List UInt8} (hne : chunk ≠ []) (hlt : chunk.length < 4096) :
    ∃ b, Loop.Ends FdBridge.pass (.new 2, chunk) (.ok (true, b)) ∧
      b.getReadBuff = .ok (some (⟨0, 0⟩, chunk.length)) ∧
      (0 ∉ chunk → b.cString ⟨0, 0⟩ = some chunk) := by
  have hpos := List.length_pos_iff.2 hne
  have hb := @MemoryBuff.new_built 2 (by decide) (by decide)
  have hget := MemoryBuff.getWriteBuff_spec hb.pWrite ⟨_, hb.first, MemoryBuff.reset_holds _⟩
    (by decide)
  -- the first of the two nodes, with the chunk copied into it
  obtain ⟨nd, hstore, hcap, hsize, hread, hnext, hdata⟩ : ∃ nd : ListNode,
      (MemoryBuff.new 2).store ⟨0, 0⟩ chunk = (MemoryBuff.new 2).setNode 0 nd ∧ nd.cap = 4096 ∧
      nd.writeSize = 0 ∧ nd.readSize = 0 ∧ nd.next = some 1 ∧
      nd.pData = Memory.store (fun _ => 0) 0 chunk := by
    refine ⟨{ ListNode.reset with next := some 1, pData := Memory.store (fun _ => 0) 0 chunk },
      ?_, rfl, rfl, rfl, rfl, rfl⟩
    unfold MemoryBuff.store
    simp only [hb.first]
    rfl
  have hheap : ((MemoryBuff.new 2).setNode 0 nd).heap 0 = some nd := by simp
  have hw : ((MemoryBuff.new 2).setNode 0 nd).pWrite = some 0 := hb.pWrite
  have hadjust := MemoryBuff.adjustWriteSize_spec (k := chunk.length) hw hheap hcap (by omega)
  rw [hsize, Nat.zero_add, if_neg hlt.ne] at hadjust
  obtain ⟨b, hb'⟩ : ∃ b, b = ((MemoryBuff.new 2).setNode 0 nd).setNode 0
      { nd with writeSize := chunk.length } := ⟨_, rfl⟩
  rw [← hb'] at hadjust
  have hheap' : b.heap 0 = some { nd with writeSize := chunk.length } := by simp [hb']
  have hr : b.pRead = some 0 := by rw [hb']; exact hb.pRead
  have hholds : ListNode.Holds { nd with writeSize := chunk.length } chunk 0 (some 1) :=
    ⟨hcap, rfl, hread, hnext, by
      show Memory.load nd.pData 0 chunk.length = chunk
      rw [hdata, Memory.load_store]⟩
  refine ⟨b, .done ?_, ?_, cString_stored hheap' hcap hdata hlt⟩
  · unfold FdBridge.pass
    simp only [hget]
    rw [if_neg (by decide)]
    unfold FdBridge.recv
    rw [if_neg hne, List.take_of_length_le (show chunk.length ≤ 4096 - [].length from hlt.le)]
    simp only [List.length_nil, hstore, hadjust]
    rw [if_pos (show chunk.length < 4096 - 0 from hlt)]
  · rw [(MemoryBuff.getReadBuff_spec hr hheap' hholds).1, if_pos hpos]
    rfl

/-- The first node when the first chunk has filled it. -/
theorem first_node_full {b : MemoryBuff} {chunk : List UInt8} {p : Progress}
    (hinv : Inv 2 ⟨b, chunk, []⟩ p) (hlow : 4096 ≤ chunk.length) (hhigh : chunk.length < 8192) :
    b.getReadBuff = .ok (some (⟨0, 0⟩, 4096)) ∧
      (0 ∉ chunk.take 4096 → b.cString ⟨0, 0⟩ = none) := by
  have htake : (chunk.take 4096).length = 4096 := List.length_take_of_le hlow
  cases hinv.shape with
  | both _ _ _ _ _ _ hr _ hfirst =>
    obtain ⟨nd, hnd, hholds⟩ : b.Holds 0 (chunk.take 4096) 0 (some 1) := hfirst
    constructor
    · rw [(MemoryBuff.getReadBuff_spec hr hnd hholds).1, htake]
      rfl
    · intro hnul
      have hdata := hholds.data
      rw [htake] at hdata
      unfold MemoryBuff.cString
      simp only [hnd, hholds.cap, Nat.sub_zero, hdata]
      rw [if_neg hnul]
  | first _ hlt => exact absurd hlow (not_le.2 hlt)
  | firstFull _ hfull => exact absurd hfull hhigh.ne
  | last _ hlow' | lastFull _ hlow' => 
    exact absurd (show MemoryBuff.capacity 2 ≤ 0 + 4096 from hlow') (by decide)
  | used hfull => exact absurd hfull hhigh.ne

/-! ### A round while the handshake is not done -/

section First

variable {q : Addr} {n readlen : ℕ} {text response : List UInt8}

theorem pass_unterminated (hw : w.isHandshark = false)
    (hget : w.buff.getReadBuff = .ok (some (q, n))) (hstr : w.buff.cString q = none) :
    pass env (w, readlen) = .fault .notString := by
  unfold pass doHandshake
  simp only [hget, if_pos hw, hstr]

/-- The text in the node goes on, or is no request. -/
theorem pass_incomplete (hw : w.isHandshark = false)
    (hget : w.buff.getReadBuff = .ok (some (q, n))) (hstr : w.buff.cString q = some text)
    (hend : ¬ crlfcrlf <:+: text) : pass env (w, readlen) = .done (-1, w) := by
  unfold pass doHandshake
  simp only [hget, if_pos hw, hstr, if_neg hend]
  rw [if_pos (by decide)]

theorem pass_answers {b : MemoryBuff} (hw : w.isHandshark = false)
    (hget : w.buff.getReadBuff = .ok (some (q, n))) (hstr : w.buff.cString q = some text)
    (hend : crlfcrlf <:+: text) (hvalid : env.getHandshakeResponse text = some response)
    (hsend : 0 ≤ env.send) (hadjust : w.buff.adjustReadSize n = .ok b) :
    pass env (w, readlen) =
      .done (n, { w with buff := b, sent := w.sent ++ [response], isHandshark := true }) := by
  unfold pass doHandshake
  simp only [hget, if_pos hw, hstr, if_pos hend, hvalid, if_neg (not_lt.2 hsend)]
  rw [if_neg (by decide)]
  simp only [hadjust]

/-- `do_handshake` leaves the parser alone. -/
theorem doHandshake_cases (env : Env) (w : WsConnect) (q : Addr) :
    doHandshake env w q = .error .notString ∨
      ∃ ret w', doHandshake env w q = .ok (ret, w') ∧ w'.calls = w.calls := by
  unfold doHandshake
  cases w.buff.cString q with
  | none => exact .inl rfl
  | some text =>
    refine .inr ?_
    by_cases hend : crlfcrlf <:+: text
    · simp only [if_pos hend]
      cases env.getHandshakeResponse text with
      | none => exact ⟨_, _, rfl, rfl⟩
      | some response =>
        by_cases hsend : env.send < 0
        · simp only [if_pos hsend]
          exact ⟨_, _, rfl, rfl⟩
        · simp only [if_neg hsend]
          exact ⟨_, _, rfl, rfl⟩
    · simp only [if_neg hend]
      exact ⟨_, _, rfl, rfl⟩

/-- While the handshake is not done nothing is handed on. -/
theorem pass_calls (env : Env) (readlen : ℕ) (hw : w.isHandshark = false)
    (hget : w.buff.getReadBuff = .ok (some (q, n))) :
    ∃ out, Loop.Ends (pass env) (w, readlen) out ∧
      ((∃ r w', out = .ok (r, w') ∧ w'.calls = w.calls) ∨
        ∃ e, out = .error e ∧ ∀ u, e ≠ .lost u) := by
  rcases doHandshake_cases env w q with hhs | ⟨ret, w', hhs, hcalls⟩
  · have hpass : pass env (w, readlen) = .fault .notString := by
      unfold pass
      simp only [hget, if_pos hw, hhs]
    exact ⟨_, .fault hpass, .inr ⟨_, rfl, nofun⟩⟩
  · by_cases hret : ret < 0
    · have hpass : pass env (w, readlen) = .done (ret, w') := by
        unfold pass
        simp only [hget, if_pos hw, hhs, if_pos hret]
      exact ⟨_, .done hpass, .inl ⟨ret, w', rfl, hcalls⟩⟩
    · cases hadjust : w'.buff.adjustReadSize n with
      | error e =>
        have hpass : pass env (w, readlen) = .fault (.buff e) := by
          unfold pass
          simp only [hget, if_pos hw, hhs, if_neg hret, hadjust]
        exact ⟨_, .fault hpass, .inr ⟨_, rfl, nofun⟩⟩
      | ok b =>
        have hpass : pass env (w, readlen) =
            .done (n, { w' with buff := b, isHandshark := true }) := by
          unfold pass
          simp only [hget, if_pos hw, hhs, if_neg hret, hadjust]
        exact ⟨_, .done hpass, .inl ⟨_, _, rfl, hcalls⟩⟩

end First

/-! ### The first bytes -/

/-- When a call can do what it should: the first bytes are the whole request and nothing else, with
room behind it in the node, and the buffer keeps room. -/
structure Fits (text got chunk : List UInt8) : Prop where
  whole : got = [] → chunk = [] ∨ chunk = text ∧ text.length < 4096
  room : got.length + chunk.length < 8192

theorem Request.text_pos {f : List UInt8 → Option (List UInt8)} (req : Request f) :
    0 < req.text.length :=
  lt_of_lt_of_le (by decide) req.ends.length_le

/-- What the first bytes leave in the buffer. -/
theorem first_node {chunk : List UInt8} (hne : chunk ≠ []) (hroom : chunk.length < 8192) :
    ∃ b p n, Loop.Ends FdBridge.pass (.new 2, chunk) (.ok (true, b)) ∧ Inv 2 ⟨b, chunk, []⟩ p ∧
      b.getReadBuff = .ok (some (⟨0, 0⟩, n)) ∧
      (0 ∉ chunk → b.cString ⟨0, 0⟩ = if chunk.length < 4096 then some chunk else none) ∧
      (chunk.length < 4096 → n = chunk.length) := by
  have hroom' : (Client.new 2).stored.length + chunk.length < MemoryBuff.capacity 2 :=
    lt_of_eq_of_lt (Nat.zero_add _) hroom
  obtain ⟨b, p, hends, hinv⟩ := FdBridge.receives (MemoryBuff.new_inv (by decide) (by decide))
    (by decide) (by decide) hroom'
  by_cases hlt : chunk.length < 4096
  · obtain ⟨b', hends', hget, hstr⟩ := receives_first hne hlt
    cases hends'.unique hends
    refine ⟨b, p, _, hends, hinv, hget, fun hnul => ?_, fun _ => rfl⟩
    rw [if_pos hlt, hstr hnul]
  · obtain ⟨hget, hstr⟩ := first_node_full hinv (not_lt.1 hlt) hroom
    refine ⟨b, p, _, hends, hinv, hget, fun hnul => ?_, fun h => absurd h hlt⟩
    rw [if_neg hlt, hstr fun h => hnul (List.mem_of_mem_take h)]

/-- The first bytes are more than the buffer takes. -/
theorem first_overflows {chunk : List UInt8} (hroom : 8192 ≤ chunk.length) :
    Leads env (new m junk) chunk (.error (.buff .nullDeref)) :=
  .of_fault (FdBridge.overflows (MemoryBuff.new_inv (by decide) (by decide)) (by decide) (by decide)
    (Nat.zero_le _) (le_trans hroom (Nat.le_add_left _ _)))

/-- The call that finds the first bytes hands nothing on. -/
theorem first_outcome {chunk : List UInt8} {out : Except Fault (ℤ × WsConnect)} (hne : chunk ≠ [])
    (hout : Leads env (new m junk) chunk out) :
    (∃ r w, out = .ok (r, w) ∧ w.calls = []) ∨ ∃ e, out = .error e ∧ ∀ u, e ≠ .lost u := by
  by_cases hroom : chunk.length < 8192
  · obtain ⟨b, p, n, hends, -, hget, -⟩ := first_node hne hroom
    obtain ⟨out', hends', houtcome⟩ :=
      pass_calls (w := { new m junk with buff := b }) env 0 rfl hget
    rw [hout.unique (.of_received hends hends')]
    exact houtcome
  · exact .inr ⟨_, hout.unique (first_overflows (not_lt.1 hroom)), nofun⟩

/-- The call that finds the first bytes fails when they go on, or leave no `'\0'` in their node. -/
theorem first_fails {chunk : List UInt8} (hne : chunk ≠ []) (hnul : 0 ∉ chunk)
    (hbad : 4096 ≤ chunk.length ∨ ¬ crlfcrlf <:+: chunk) {r : ℤ} {w : WsConnect}
    (hout : Leads env (new m junk) chunk (.ok (r, w))) : r = -1 := by
  by_cases hroom : chunk.length < 8192
  · obtain ⟨b, p, n, hends, -, hget, hstr, -⟩ := first_node hne hroom
    by_cases hlt : chunk.length < 4096
    · have hpass : pass env ({ new m junk with buff := b }, 0) = .done (-1, _) :=
        pass_incomplete rfl hget ((hstr hnul).trans (if_pos hlt)) (hbad.resolve_left (by omega))
      cases hout.unique (.of_received hends (.done hpass))
      rfl
    · have hpass : pass env ({ new m junk with buff := b }, 0) = .fault .notString :=
        pass_unterminated rfl hget ((hstr hnul).trans (if_neg hlt))
      cases hout.unique (.of_received hends (.fault hpass))
  · cases hout.unique (first_overflows (not_lt.1 hroom))

/-- A first chunk that is dealt with as it should be is the request. -/
theorem fits_of_serves (req : Request env.getHandshakeResponse) {chunk rest : List UInt8}
    (hne : chunk ≠ []) (hcut : req.text <+: chunk ++ rest)
    (h : Serves env req.text req.response [] (new m junk) chunk) : Fits req.text [] chunk := by
  obtain ⟨out, hout, hserved⟩ := h
  rw [List.nil_append] at hserved
  rcases first_outcome hne hout with ⟨r, w, rfl, hcalls⟩ | ⟨e, rfl, hlost⟩
  · cases hserved with
    | waits hr hlt =>
      -- the request is cut
      have hpre : chunk <+: req.text :=
        List.prefix_of_prefix_length_le (List.prefix_append _ _) hcut hlt.le
      have hnul : 0 ∉ chunk := fun h => req.noNul (hpre.subset h)
      have hend : ¬ crlfcrlf <:+: chunk := by
        rw [List.prefix_iff_eq_take.1 hpre]
        exact req.first _ hlt
      have hneg := first_fails hne hnul (.inr hend) hout
      omega
    | serves hr hle _ hgiven =>
      -- nothing is behind the request
      unfold given at hgiven
      rw [hcalls] at hgiven
      have hwhole : chunk.length ≤ req.text.length := List.drop_eq_nil_iff.1 hgiven.symm
      have hpre : req.text <+: chunk :=
        List.prefix_of_prefix_length_le hcut (List.prefix_append _ _) hle
      obtain rfl : req.text = chunk := hpre.eq_of_length (le_antisymm hle hwhole)
      have hshort : req.text.length < 4096 := by
        by_contra hlong
        have hneg := first_fails hne req.noNul (.inl (not_lt.1 hlong)) hout
        omega
      refine ⟨fun _ => .inr ⟨rfl, hshort⟩, ?_⟩
      rw [List.length_nil]
      omega
    | refused _ _ _ _ hlast =>
      rw [hcalls] at hlast
      cases hlast
  · cases hserved with
    | lost => exact absurd rfl (hlost _)

/-- The request alone, with room behind it in the node, is answered. -/
theorem first_answers (req : Request env.getHandshakeResponse) (hsend : 0 ≤ env.send)
    (hshort : req.text.length < 4096) :
    ∃ r w c p, Leads env (new m junk) req.text (.ok (r, w)) ∧ 0 ≤ r ∧
      Open req.text req.response w c p ∧ c.stored = req.text ∧ c.consumed = req.text := by
  have hpos := req.text_pos
  have hne : req.text ≠ [] := List.length_pos_iff.1 hpos
  obtain ⟨b, p, n, hends, hinv, hget, hstr, hn⟩ := first_node hne (by omega)
  obtain rfl := hn hshort
  have hlow : ([] : List UInt8).length < MemoryBuff.capacity 2 := by decide
  have hload : b.load ⟨0, 0⟩ req.text.length = req.text := by
    rcases hinv.next hlow with ⟨hnone, -⟩ | ⟨q, n, hsome, -, -, -, hload⟩
    · rw [hnone] at hget
      cases hget
    · rw [hsome] at hget
      cases hget
      rw [hload]
      exact List.take_length
  obtain ⟨b', p', hadjust, hinv'⟩ := hinv.consume (by decide) (by decide) hlow hget
  have hpass : pass env ({ new m junk with buff := b }, 0) = .done (_, _) :=
    pass_answers rfl hget ((hstr req.noNul).trans (if_pos hshort)) req.ends.isInfix req.valid hsend
      hadjust
  refine ⟨_, _, _, p', .of_received hends (.done hpass), Int.natCast_nonneg _,
    ⟨hinv', rfl, rfl, rfl, ?_, ?_⟩, rfl, ?_⟩
  · exact (hload.trans (List.append_nil _).symm)
  · exact lt_trans hshort (by decide)
  · exact hload

/-- A call that finds nothing at the socket changes nothing. -/
theorem idle_leads (env : Env) (m : ℕ → UInt8) (junk : Ws.WsHead) :
    Leads env (new m junk) [] (.ok (0, new m junk)) :=
  .of_received (.done rfl) (.done rfl)

/-! ### Whole runs -/

/-- What a connection that has not failed is like after `got` has been received. -/
inductive Phase (text response : List UInt8) (m : ℕ → UInt8) (junk : Ws.WsHead)
    (got : List UInt8) (w : WsConnect) : Prop
  | fresh (hgot : got = []) (hw : w = new m junk)
  | opened {c : Client} {p : Progress} (hopen : Open text response w c p) (hstored : c.stored = got)
      (hconsumed : c.consumed = got)

section Runs

variable {got chunk rest : List UInt8} {req : Request env.getHandshakeResponse}

/-- A call that fits does what it should, and leaves the connection as it should be. -/
theorem Phase.advances (h : Phase req.text req.response m junk got w) (hsend : 0 ≤ env.send)
    (htakes : env.Takes) (hfits : Fits req.text got chunk) :
    ∃ out, Leads env w chunk out ∧ Served req.text req.response (got ++ chunk) out ∧
      ∀ r w', out = .ok (r, w') → 0 ≤ r →
        Phase req.text req.response m junk (got ++ chunk) w' := by
  cases h with
  | fresh hgot hw =>
    subst hgot hw
    rw [List.nil_append]
    rcases hfits.whole rfl with rfl | ⟨rfl, hshort⟩
    · refine ⟨_, idle_leads env m junk, .waits le_rfl req.text_pos rfl rfl, ?_⟩
      rintro r w' hok -
      cases hok
      exact .fresh rfl rfl
    · obtain ⟨r, w, c, p, hleads, hr, hopen, hstored, hconsumed⟩ :=
        @first_answers env m junk req hsend hshort
      have hgiven : w.given = req.text.drop req.text.length := by
        have hall := hopen.consumed
        rw [hconsumed, List.self_eq_append_right] at hall
        rw [hall, List.drop_length]
      refine ⟨_, hleads, .serves hr le_rfl hopen.sent hgiven, ?_⟩
      rintro r' w' hok -
      cases hok
      exact .opened hopen hstored hconsumed
  | opened hopen hstored hconsumed =>
    subst hstored
    obtain ⟨out, hleads, hserved, hnext⟩ := hopen.serves htakes hfits.room
    refine ⟨out, hleads, hserved, fun r w' hok hr => ?_⟩
    obtain ⟨c', p', hopen', hstored', hconsumed'⟩ := hnext r w' hok hr
    exact .opened hopen' hstored' hconsumed'

/-- A call that does what it should fits. -/
theorem Phase.fits (h : Phase req.text req.response m junk got w)
    (hcut : req.text <+: got ++ (chunk ++ rest))
    (hserves : Serves env req.text req.response got w chunk) : Fits req.text got chunk := by
  cases h with
  | fresh hgot hw =>
    subst hgot hw
    by_cases hne : chunk = []
    · subst hne
      exact ⟨fun _ => .inl rfl, by decide⟩
    · exact fits_of_serves req hne hcut hserves
  | @opened c p hopen hstored hconsumed =>
    have hpos := req.text_pos
    have htext := hopen.text_le
    rw [hstored] at htext
    refine ⟨fun hgot => ?_, ?_⟩
    · rw [hgot, List.length_nil] at htext
      omega
    · by_contra hfull
      rw [← hstored] at hfull
      have hserved := hserves.served (hopen.overflows (not_lt.1 hfull))
      cases hserved

/-- From a connection that has not failed: the calls to come do what they should exactly if they
fit. -/
theorem serves_from (hsend : 0 ≤ env.send) (htakes : env.Takes) (chunks : List (List UInt8))
    (h : Phase req.text req.response m junk got w)
    (hcut : req.text <+: got ++ chunks.flatten) :
    (∀ pre chunk post, chunks = pre ++ chunk :: post → ∀ u, (system env m junk).Run w pre u →
      Serves env req.text req.response (got ++ pre.flatten) u chunk) ↔
    ∀ pre chunk post, chunks = pre ++ chunk :: post → (∃ u, (system env m junk).Run w pre u) →
      Fits req.text (got ++ pre.flatten) chunk := by
  -- on the chunks; `Phase` holds of the state each call finds
  induction chunks generalizing got w with
  | nil => simp
  | cons chunk chunks ih =>
    rw [List.flatten_cons] at hcut
    rw [Stream.forall_split_cons
        (P := fun pre chunk => ∀ u, (system env m junk).Run w pre u →
          Serves env req.text req.response (got ++ pre.flatten) u chunk),
      Stream.forall_split_cons
        (P := fun pre chunk => (∃ u, (system env m junk).Run w pre u) →
          Fits req.text (got ++ pre.flatten) chunk)]
    simp only [List.flatten_nil, List.append_nil, List.flatten_cons]
    by_cases hfits : Fits req.text got chunk
    · obtain ⟨out, hleads, hserved, hnext⟩ := h.advances hsend htakes hfits
      have hhead : ∀ u, (system env m junk).Run w [] u →
          Serves env req.text req.response got u chunk := by
        intro u hrun
        cases hrun
        exact ⟨out, hleads, hserved⟩
      refine and_congr (iff_of_true hhead fun _ => hfits) ?_
      -- after a call that fails there is no run, and nothing more to show
      by_cases hok : ∃ r w', out = .ok (r, w') ∧ 0 ≤ r
      · obtain ⟨r, w', rfl, hr⟩ := hok
        have hcons : ∀ pre u, (system env m junk).Run w (chunk :: pre) u ↔
            (system env m junk).Run w' pre u := by
          refine fun pre u => LTS.Run.cons_iff fun v => ⟨?_, ?_⟩
          · rintro ⟨r', -, hv⟩
            cases hleads.unique hv
            rfl
          · rintro rfl
            exact ⟨r, hr, hleads⟩
        have htail := ih (hnext r w' rfl hr) (by rwa [List.append_assoc])
        simpa only [hcons, List.append_assoc] using htail
      · have hstuck : ∀ pre u, ¬ (system env m junk).Run w (chunk :: pre) u := by
          intro pre u hrun
          cases hrun with
          | cons hstep _ =>
            obtain ⟨r, hr, hv⟩ := hstep
            exact hok ⟨r, _, hleads.unique hv, hr⟩
        refine iff_of_true (fun pre chunk post _ u hrun => absurd hrun (hstuck pre u)) ?_
        rintro pre chunk post - ⟨u, hrun⟩
        exact absurd hrun (hstuck pre u)
    · refine iff_of_false (fun hall => hfits ?_) fun hall => hfits (hall.1 ⟨w, .nil w⟩)
      exact h.fits hcut (hall.1 w (.nil w))

end Runs

/-- The environment of a connection of the program: `send` is what `send` of the response returns,
and `reply` what it returns for the frames of `WsStickyWrap`. -/
noncomputable def Env.ws (getHandshakeResponse : List UInt8 → Option (List UInt8)) (send : ℤ)
    (reply : ℕ → ℤ) : Env :=
  ⟨getHandshakeResponse, send, Ws.WsStickyWrap.returned reply⟩

theorem Env.ws_takes (getHandshakeResponse : List UInt8 → Option (List UInt8)) (send : ℤ)
    (reply : ℕ → ℤ) : (ws getHandshakeResponse send reply).Takes :=
  fun _ _ _ _ h hr => Ws.WsStickyWrap.returned_length h (by omega)

/-- The handshake does not depend on how `chunks` cut the stream: every call that is made does what
it should. -/
def Handshakes (env : Env) (m : ℕ → UInt8) (junk : Ws.WsHead)
    (req : Request env.getHandshakeResponse) (chunks : List (List UInt8)) : Prop :=
  ∀ pre chunk post, chunks = pre ++ chunk :: post →
    ∀ w, (system env m junk).Run (new m junk) pre w →
      Serves env req.text req.response pre.flatten w chunk

/-- For every request, every bytes behind it and every way of cutting them: the handshake is as it
should be if and only if every call that is made fits, that is, the first bytes received are the
request alone, of less than 4096 bytes, and less than 8192 bytes are received in all. -/
theorem handshakes_iff (getHandshakeResponse : List UInt8 → Option (List UInt8)) {send : ℤ}
    (hsend : 0 ≤ send) (reply : ℕ → ℤ) (m : ℕ → UInt8) (junk : Ws.WsHead)
    (req : Request getHandshakeResponse) (chunks : List (List UInt8))
    (hcut : req.text <+: chunks.flatten) :
    Handshakes (.ws getHandshakeResponse send reply) m junk req chunks ↔
      ∀ pre chunk post, chunks = pre ++ chunk :: post →
        (∃ w, (system (.ws getHandshakeResponse send reply) m junk).Run (new m junk) pre w) →
          Fits req.text pre.flatten chunk :=
  @serves_from (.ws getHandshakeResponse send reply) _ m junk _ req hsend
    (Env.ws_takes getHandshakeResponse send reply) chunks (.fresh rfl rfl) hcut

/-! ### A sample -/

/-- An upgrade request. -/
def sampleText : List UInt8 :=
  [71, 69, 84, 32, 47, 32, 72, 84, 84, 80, 47, 49, 46, 49, 13, 10, 72, 111, 115, 116, 58, 32,
    97, 13, 10, 85, 112, 103, 114, 97, 100, 101, 58, 32, 119, 101, 98, 115, 111, 99, 107, 101,
    116, 13, 10, 67, 111, 110, 110, 101, 99, 116, 105, 111, 110, 58, 32, 85, 112, 103, 114, 97,
    100, 101, 13, 10, 83, 101, 99, 45, 87, 101, 98, 83, 111, 99, 107, 101, 116, 45, 75, 101,
    121, 58, 32, 100, 71, 104, 108, 73, 72, 78, 104, 98, 88, 66, 115, 90, 83, 66, 117, 98, 50,
    53, 106, 90, 81, 61, 61, 13, 10, 83, 101, 99, 45, 87, 101, 98, 83, 111, 99, 107, 101, 116,
    45, 86, 101, 114, 115, 105, 111, 110, 58, 32, 49, 51, 13, 10, 13, 10]

example : sampleText =
    CString.ascii "GET / HTTP/1.1\r\nHost: a\r\nUpgrade: websocket\r\nConnection: Upgrade\r\n" ++
      CString.ascii "Sec-WebSocket-Key: dGhlIHNhbXBsZSBub25jZQ==\r\nSec-WebSocket-Version: 13\r\n\r\n" := by
  decide +kernel

/-- `WS_HS_ACCEPT`, the value for the key of `sampleText` and the empty line. -/
def sampleAccept : List UInt8 :=
  CString.ascii "HTTP/1.1 101 Switching Protocols\r\nUpgrade: websocket\r\nConnection: Upgrade\r\n" ++
    CString.ascii "Sec-WebSocket-Accept: s3pPLMBiTxaQ9kYGzzhZRbK+xOo=\r\n\r\n"

/-- The response to `sampleText`. -/
def sampleResponse (text : List UInt8) : Option (List UInt8) :=
  if text = sampleText then some sampleAccept else none

/-- The end is the first one if it is not in the text without its last byte. -/
theorem first_of_dropLast {text : List UInt8} (h : ¬ crlfcrlf <:+: text.dropLast) :
    ∀ n < text.length, ¬ crlfcrlf <:+: text.take n := by
  intro n hn hin
  apply h
  rw [List.dropLast_eq_take]
  exact hin.trans (List.take_prefix_take_left (by omega)).isInfix

def sampleRequest : Request sampleResponse where
  text := sampleText
  response := sampleAccept
  noNul := by decide +kernel
  ends := by decide +kernel
  first := first_of_dropLast (by decide +kernel)
  valid := if_pos rfl

theorem text_sampleRequest : sampleRequest.text = sampleText := by
  simp only [sampleRequest]

/-- A text frame. -/
def sampleFrame : List UInt8 := [129, 129, 0, 0, 0, 0, 65]

/-- The request, and then a frame. -/
theorem handshakes_iff_sample :
    Handshakes (.ws sampleResponse 1 fun _ => 1) (fun _ => 0) ⟨none, 0, fun _ => 0⟩ sampleRequest
      [sampleText, sampleFrame] := by
  refine (handshakes_iff sampleResponse (by decide) _ _ _ sampleRequest _ (by decide +kernel)).2 ?_
  rw [Stream.forall_split_cons, Stream.forall_split_cons]
  refine ⟨fun _ => ⟨fun _ => .inr ⟨text_sampleRequest.symm, ?_⟩, ?_⟩, fun _ => ⟨fun hnil => ?_, ?_⟩, ?_⟩
  · decide +kernel
  · decide +kernel
  · exact absurd hnil (by decide +kernel)
  · decide +kernel
  · intro pre chunk post heq
    simp at heq

/-- A request cut in two, and a request with a frame in the same chunk. -/
theorem segmented_request_fails :
    (∀ chunks ∈ [[sampleText.take 20, sampleText.drop 20], [sampleText ++ sampleFrame]],
      sampleRequest.text <+: chunks.flatten) ∧
    ∀ chunks ∈ [[sampleText.take 20, sampleText.drop 20], [sampleText ++ sampleFrame]],
      ¬ Handshakes (.ws sampleResponse 1 fun _ => 1) (fun _ => 0) ⟨none, 0, fun _ => 0⟩
        sampleRequest chunks := by
  have hcut : ∀ chunks ∈ [[sampleText.take 20, sampleText.drop 20], [sampleText ++ sampleFrame]],
      sampleRequest.text <+: chunks.flatten := by decide +kernel
  have hfirst : ∀ chunks ∈ [[sampleText.take 20, sampleText.drop 20], [sampleText ++ sampleFrame]],
      ∃ chunk post, chunks = chunk :: post ∧ chunk ≠ [] ∧ chunk ≠ sampleText := by
    rw [List.forall_mem_cons, List.forall_mem_singleton]
    exact ⟨⟨_, _, rfl, by decide +kernel, by decide +kernel⟩,
      ⟨_, _, rfl, by decide +kernel, by decide +kernel⟩⟩
  refine ⟨hcut, fun chunks hmem hall => ?_⟩
  obtain ⟨chunk, post, rfl, hne, htext⟩ := hfirst chunks hmem
  have hserves := hall [] chunk post rfl _ (.nil _)
  have hpre := hcut _ hmem
  rw [List.flatten_cons] at hpre
  have hfits := @fits_of_serves (.ws sampleResponse 1 fun _ => 1) _ _ sampleRequest _ _ hne hpre
    hserves
  rcases hfits.whole rfl with hnil | ⟨hwhole, -⟩
  · exact hne hnil
  · exact htext (hwhole.trans text_sampleRequest)

end WsConnect
end NetService
