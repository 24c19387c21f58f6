import NetService.Ws.Header
import NetService.Ws.Unmask

/-!
# The older parser and the calls of `parseWsHead`

`StickyWrap::parseWsHead` goes over a frame that is all there in one call; `WsStickyWrap::parseWsHead`
is called again and again with the bytes it has left over, and takes one part of the frame each time.
`frameBody` is one of these calls.  `frame_calls` follows them through the header; then both parsers
run the same loop over the payload (`StickyWrap.unmask_spec`, `unmask_spec`), and `parsers_agree` puts
the parts together.
-/

namespace NetService
namespace Ws

open Memory

/-! ### The loop of the older parser -/

/-- The loop over `n` bytes none of which is `-1` as a `char`. -/
theorem StickyWrap.unmask_spec (masks : Fin 4 → UInt8) (q n i : ℕ) (m : ℕ → UInt8)
    (hclean : ∀ b ∈ load m (q + i) n, b ≠ 0xFF) :
    unmask masks q n i m =
      (store m (q + i) (Keystream.crypt (maskAt masks) i (load m (q + i) n)), some ()) := by
  induction n generalizing i m with
  | zero =>
    rw [load_zero, Keystream.crypt_nil, store_nil]
    rfl
  | succ n ih =>
    have hsplit : load m (q + i) (n + 1) = m (q + i) :: load m (q + (i + 1)) n :=
      load_succ m (q + i) n
    rw [hsplit, List.forall_mem_cons] at hclean
    have hkeep : ∀ b, load (Function.update m (q + i) b) (q + (i + 1)) n =
        load m (q + (i + 1)) n := fun b => load_update_above m n b (Nat.lt_succ_self (q + i))
    unfold unmask
    simp only [hclean.1, if_false]
    rw [ih (i + 1) _ (by rw [hkeep]; exact hclean.2), hkeep, hsplit, Keystream.crypt_cons]
    exact congrArg (·, some ()) (store_update _ _ _ _)

/-- The loop ends at a byte that is `-1`. -/
theorem StickyWrap.unmask_fails (masks : Fin 4 → UInt8) (q n i : ℕ) (m : ℕ → UInt8)
    (hbad : 0xFF ∈ load m (q + i) n) : (unmask masks q n i m).2 = none := by
  induction n generalizing i m with
  | zero => exact absurd hbad List.not_mem_nil
  | succ n ih =>
    unfold unmask
    by_cases hbyte : m (q + i) = 0xFF
    · simp only [hbyte, if_true]
    · simp only [hbyte, if_false]
      apply ih
      rw [← Nat.add_assoc, load_update_above _ _ _ (Nat.lt_succ_self _)]
      rw [load_succ] at hbad
      exact (List.mem_cons.1 hbad).resolve_left (Ne.symm hbyte)

variable {h : StickyHead} {d : WsDealWith} {p n : ℕ}

/-- The bytes of a frame at `p`, as the code decodes its length: the base header, the length, the
mask and the payload. -/
def headSizeAt (m : ℕ → UInt8) (p : ℕ) : ℕ := 2 + (StickyWrap.headLen fun i => m (p + i)).2 + 4

def payloadSizeAt (m : ℕ → UInt8) (p : ℕ) : ℕ := (StickyWrap.headLen fun i => m (p + i)).1.toNat

/-- The mask of the frame at `p`. -/
def masksAt (m : ℕ → UInt8) (p : ℕ) : Fin 4 → UInt8 :=
  fun i => m (p + 2 + (StickyWrap.headLen fun i => m (p + i)).2 + i)

/-- The payload of the frame at `p`, as it came. -/
def payloadAt (m : ℕ → UInt8) (p : ℕ) : List UInt8 := load m (p + headSizeAt m p) (payloadSizeAt m p)

/-- The memory after the payload of the frame at `p` has been unmasked. -/
def unmaskedAt (m : ℕ → UInt8) (p : ℕ) : ℕ → UInt8 :=
  store m (p + headSizeAt m p) (Keystream.crypt (maskAt (masksAt m p)) 0 (payloadAt m p))

/-! ### The older parser on a whole frame -/

theorem old_parse (h : StickyHead) {m : ℕ → UInt8} (hwhole : headSizeAt m p + payloadSizeAt m p ≤ n)
    (hn : n < 8192) :
    StickyWrap.parseWsHead h m p n =
      let r := StickyWrap.unmask (masksAt m p) (p + headSizeAt m p) (payloadSizeAt m p) 0 m
      (⟨(m p, m (p + 1)), (StickyWrap.headLen fun i => m (p + i)).1, masksAt m p⟩, r.1,
        r.2.map fun _ => headSizeAt m p) := by
  have hlen : ¬ 65536 < (StickyWrap.headLen fun i => m (p + i)).1 := by
    rw [UInt64.lt_iff_toNat_lt]
    show ¬ 65536 < payloadSizeAt m p
    omega
  have hbase : 6 ≤ headSizeAt m p := by
    unfold headSizeAt
    omega
  unfold StickyWrap.parseWsHead
  rw [if_pos ⟨by omega, by omega⟩]
  simp only
  rw [if_neg hlen]
  simp only [headSizeAt, payloadSizeAt, ← Nat.add_assoc]
  rfl

theorem old_clean (h : StickyHead) {m : ℕ → UInt8} (hwhole : headSizeAt m p + payloadSizeAt m p ≤ n)
    (hn : n < 8192) (hclean : ∀ b ∈ payloadAt m p, b ≠ 0xFF) :
    StickyWrap.parseWsHead h m p n =
      (⟨(m p, m (p + 1)), (StickyWrap.headLen fun i => m (p + i)).1, masksAt m p⟩, unmaskedAt m p,
        some (headSizeAt m p)) := by
  have hloop := StickyWrap.unmask_spec (masksAt m p) (p + headSizeAt m p) (payloadSizeAt m p) 0 m
    hclean
  rw [old_parse h hwhole hn, hloop]
  rfl

theorem old_fails (h : StickyHead) {m : ℕ → UInt8} (hwhole : headSizeAt m p + payloadSizeAt m p ≤ n)
    (hn : n < 8192) (hbad : 0xFF ∈ payloadAt m p) : (StickyWrap.parseWsHead h m p n).2.2 = none := by
  have hloop := StickyWrap.unmask_fails (masksAt m p) (p + headSizeAt m p) (payloadSizeAt m p) 0 m
    hbad
  rw [old_parse h hwhole hn]
  simp only [hloop, Option.map_none]

/-! ### The calls of the other -/

/-- A call with what is left of the `n` bytes at `p`, `s.2` of them having been taken.  The calls are
over when one fails, when the frame is over, or when nothing is left; what they have taken is returned,
`none` for a `-1`. -/
def frameBody (p n : ℕ) (s : WsDealWith × ℕ) :
    Loop.Pass (WsDealWith × ℕ) (WsDealWith × Option ℕ) WsFault :=
  match s.1.parseWsHead (p + s.2) ((n : ℤ) - s.2) with
  | .error e => .fault e
  | .ok (d, none) => .done (d, none)
  | .ok (d, some l) =>
      if d.op = .initHead ∨ n ≤ s.2 + l then .done (d, some (s.2 + l)) else .next (d, s.2 + l)

/-- The parser behind the header of the frame at `p`. -/
def headRead (d : WsDealWith) (p : ℕ) : WsDealWith :=
  { opened d p with
    head := ⟨some p, (StickyWrap.headLen fun i => d.pData (p + i)).1, masksAt d.pData p⟩
    op := .readData }

theorem frameBody_next {c l : ℕ} {d' : WsDealWith}
    (hcall : d.parseWsHead (p + c) ((n : ℤ) - c) = .ok (d', some l)) (hop : d'.op ≠ .initHead)
    (hmore : c + l < n) : frameBody p n (d, c) = .next (d', c + l) := by
  unfold frameBody
  simp only [hcall]
  rw [if_neg (by rintro (hidle | hle); exacts [hop hidle, by omega])]

theorem frameBody_done {c l : ℕ} {d' : WsDealWith}
    (hcall : d.parseWsHead (p + c) ((n : ℤ) - c) = .ok (d', some l))
    (hend : d'.op = .initHead ∨ n ≤ c + l) : frameBody p n (d, c) = .done (d', some (c + l)) := by
  unfold frameBody
  simp only [hcall]
  rw [if_pos hend]

theorem frameBody_fails {c : ℕ} {d' : WsDealWith}
    (hcall : d.parseWsHead (p + c) ((n : ℤ) - c) = .ok (d', none)) :
    frameBody p n (d, c) = .done (d', none) := by
  unfold frameBody
  simp only [hcall]

/-- Three calls take the header; if nothing is behind it they were the last. -/
theorem frame_calls {out : Except WsFault (WsDealWith × Option ℕ)} (hop : d.op = .initHead)
    (hsize : d.headSize = 2) (hn : headSizeAt d.pData p ≤ n)
    (hrest : if n = headSizeAt d.pData p then out = .ok (headRead d p, some n)
      else Loop.Ends (frameBody p n) (headRead d p, headSizeAt d.pData p) out) :
    Loop.Ends (frameBody p n) (d, 0) out := by
  obtain ⟨ext, hext⟩ : ∃ ext, ext = (StickyWrap.headLen fun i => d.pData (p + i)).2 := ⟨_, rfl⟩
  have hhead : headSizeAt d.pData p = 2 + ext + 4 := by rw [hext]; rfl
  -- the three calls in front of the payload: base header, length, key
  have hbase : d.parseWsHead (p + 0) ((n : ℤ) - (0 : ℕ)) = .ok (opened d p, some 2) := by
    rw [Nat.cast_zero, sub_zero]
    exact base_read hop hsize (by omega)
  have hlength := length_read (d := d) (n := (n : ℤ) - (2 : ℕ)) (by omega)
    (show ((StickyWrap.headLen fun i => d.pData (p + i)).2 : ℤ) ≤ (n : ℤ) - (2 : ℕ) by
      rw [← hext]
      omega)
  rw [← hext] at hlength
  have hkey : ({ opened d p with
      head := { (opened d p).head with len := (StickyWrap.headLen fun i => d.pData (p + i)).1 }
      op := .readMaskKey } : WsDealWith).parseWsHead (p + (2 + ext)) ((n : ℤ) - (2 + ext : ℕ)) =
        .ok (headRead d p, some 4) := by
    rw [parse_readMaskKey rfl (by omega), hext, ← Nat.add_assoc]
    rfl
  refine .next (frameBody_next hbase nofun (by omega)) ?_
  refine .next (frameBody_next hlength nofun (by omega)) ?_
  by_cases hnone : n = headSizeAt d.pData p
  · rw [if_pos hnone] at hrest
    have hdone := frameBody_done hkey (.inr (by omega))
    rw [← hhead, ← hnone] at hdone
    rw [hrest]
    exact .done hdone
  · rw [if_neg hnone] at hrest
    rw [hhead] at hrest
    exact .next (frameBody_next hkey nofun (by omega)) hrest

/-- The call behind the header takes the payload, if no byte of it is an error. -/
theorem payload_clean (hwhole : headSizeAt d.pData p + payloadSizeAt d.pData p ≤ n) (hn : n < 8192)
    (hmore : headSizeAt d.pData p < n) (hclean : ∀ b ∈ payloadAt d.pData p, b ≠ 0xFF) :
    ∃ d', frameBody p n (headRead d p, headSizeAt d.pData p) =
        .done (d', some (headSizeAt d.pData p + payloadSizeAt d.pData p)) ∧
      d'.head = (headRead d p).head ∧ d'.pData = unmaskedAt d.pData p := by
  have hloop := unmask_spec (payloadSizeAt d.pData p) (n - headSizeAt d.pData p)
    (p + headSizeAt d.pData p) 0 (headRead d p) (Nat.zero_add _).le
    (by show 0 + payloadSizeAt d.pData p < 65536; omega)
    (.inr ⟨by omega, Nat.zero_add _⟩) hclean
  have hnat : ((n : ℤ) - headSizeAt d.pData p).toNat = n - headSizeAt d.pData p := by omega
  rw [← hnat] at hloop
  have hend : (headRead d p).head.len.toNat ≤
      (headRead d p).parseIndex + payloadSizeAt d.pData p := (Nat.zero_add _).ge
  have hcall := parse_data_some (d := headRead d p) rfl (by omega) hloop
  rw [if_pos hend, Nat.zero_add] at hcall
  exact ⟨_, frameBody_done hcall (.inl rfl), rfl, rfl⟩

/-- And fails otherwise. -/
theorem payload_fails (hwhole : headSizeAt d.pData p + payloadSizeAt d.pData p ≤ n) (hn : n < 8192)
    (hmore : headSizeAt d.pData p < n) (hbad : 0xFF ∈ payloadAt d.pData p) :
    ∃ d', frameBody p n (headRead d p, headSizeAt d.pData p) = .done (d', none) := by
  have hloop := unmask_fails (payloadSizeAt d.pData p) (n - headSizeAt d.pData p)
    (p + headSizeAt d.pData p) 0 (headRead d p) (Nat.zero_add _).le
    (by show 0 + payloadSizeAt d.pData p < 65536; omega) (by omega) hbad
  have hnat : ((n : ℤ) - headSizeAt d.pData p).toNat = n - headSizeAt d.pData p := by omega
  rw [← hnat] at hloop
  exact ⟨_, frameBody_fails (parse_data_none rfl (by omega) (Prod.ext rfl hloop))⟩

/-! ### Both parsers -/

/-- What the older parser returns and leaves, `old`, against what the calls of the other come to: the
state `d'`, and the bytes taken or `none` for a `-1`. -/
structure SameFrame (old : StickyHead × (ℕ → UInt8) × Option ℕ) (d' : WsDealWith)
    (taken : Option ℕ) : Prop where
  fails : old.2.2 = none ↔ taken = none
  len : taken ≠ none → old.1.len = d'.head.len
  masks : taken ≠ none → old.1.masks = d'.head.masks
  pData : taken ≠ none → old.2.1 = d'.pData
  /-- the result of the older parser and the length of the payload -/
  total : ∀ k total, old.2.2 = some k → taken = some total → k + old.1.len.toNat = total

/-- When neither fails and the calls leave the head and the memory the older parser leaves. -/
theorem sameFrame_clean (h : StickyHead) {d' : WsDealWith}
    (hwhole : headSizeAt d.pData p + payloadSizeAt d.pData p ≤ n) (hn : n < 8192)
    (hclean : ∀ b ∈ payloadAt d.pData p, b ≠ 0xFF) (hhead : d'.head = (headRead d p).head)
    (hdata : d'.pData = unmaskedAt d.pData p) :
    SameFrame (StickyWrap.parseWsHead h d.pData p n) d'
      (some (headSizeAt d.pData p + payloadSizeAt d.pData p)) := by
  rw [old_clean h hwhole hn hclean]
  refine ⟨by simp, fun _ => ?_, fun _ => ?_, fun _ => hdata.symm, ?_⟩
  · rw [hhead]
    rfl
  · rw [hhead]
    rfl
  · intro k total hk htotal
    cases hk
    cases htotal
    rfl

/-- When both fail. -/
theorem sameFrame_fails (h : StickyHead) {d' : WsDealWith}
    (hwhole : headSizeAt d.pData p + payloadSizeAt d.pData p ≤ n) (hn : n < 8192)
    (hbad : 0xFF ∈ payloadAt d.pData p) :
    SameFrame (StickyWrap.parseWsHead h d.pData p n) d' none := by
  refine ⟨iff_of_true (old_fails h hwhole hn hbad) rfl, absurd rfl, absurd rfl, absurd rfl, ?_⟩
  intro k total _ hsome
  cases hsome

/-- A frame without payload is over with its header. -/
theorem unmaskedAt_empty {m : ℕ → UInt8} (hzero : payloadSizeAt m p = 0) : unmaskedAt m p = m := by
  unfold unmaskedAt payloadAt
  rw [hzero, load_zero, Keystream.crypt_nil, store_nil]

/-- On fewer than 8192 bytes that start with a whole frame, the length being the one the code decodes,
the calls of the incremental parser from `INIT_HEAD` on come to an end, and the older parser fails
exactly if one of them does; otherwise both leave the same length, masks and memory, and the calls
have taken the header, which is what the older parser returns, and the payload.  `_headSize` is what
the constructor sets it to. -/
theorem parsers_agree (h : StickyHead) (d : WsDealWith) (p n : ℕ) (hop : d.op = .initHead)
    (hsize : d.headSize = 2) (hwhole : headSizeAt d.pData p + payloadSizeAt d.pData p ≤ n)
    (hn : n < 8192) :
    ∃ d' taken, Loop.Ends (frameBody p n) (d, 0) (.ok (d', taken)) ∧
      SameFrame (StickyWrap.parseWsHead h d.pData p n) d' taken := by
  -- both fail at the first `0xFF` of the payload, if there is one
  by_cases hbad : 0xFF ∈ payloadAt d.pData p
  · have hpos : payloadSizeAt d.pData p ≠ 0 := by
      intro hzero
      unfold payloadAt at hbad
      rw [hzero] at hbad
      exact absurd hbad List.not_mem_nil
    obtain ⟨d', hlast⟩ := payload_fails hwhole hn (by omega) hbad
    refine ⟨d', none, frame_calls hop hsize (by omega) ?_, sameFrame_fails h hwhole hn hbad⟩
    rw [if_neg (by omega)]
    exact .done hlast
  · have hclean : ∀ b ∈ payloadAt d.pData p, b ≠ 0xFF := by
      rintro b hb rfl
      exact hbad hb
    by_cases hnone : n = headSizeAt d.pData p
    · -- no payload, and nothing behind the frame: there is no fourth call
      have hzero : payloadSizeAt d.pData p = 0 := by omega
      refine ⟨headRead d p, _, frame_calls hop hsize (by omega) ?_,
        sameFrame_clean h hwhole hn hclean rfl (unmaskedAt_empty hzero).symm⟩
      rw [if_pos hnone, hzero, Nat.add_zero, ← hnone]
    · obtain ⟨d', hlast, hhead, hdata⟩ := payload_clean hwhole hn (by omega) hclean
      refine ⟨d', _, frame_calls hop hsize (by omega) ?_,
        sameFrame_clean h hwhole hn hclean hhead hdata⟩
      rw [if_neg hnone]
      exact .done hlast

/-- A fresh parser whose block starts with a frame of one byte and one byte of the next. -/
def atFrame : WsDealWith :=
  .new (store (fun _ => 0) 0 [0x81, 0x81, 7, 7, 7, 7, 2, 0x81]) ⟨none, 0, fun _ => 0⟩

theorem parsers_agree_sample :
    ∃ d' taken, Loop.Ends (frameBody 0 8) (atFrame, 0) (.ok (d', taken)) ∧
      SameFrame (StickyWrap.parseWsHead ⟨(0, 0), 0, fun _ => 0⟩ atFrame.pData 0 8) d' taken :=
  parsers_agree ⟨(0, 0), 0, fun _ => 0⟩ atFrame 0 8 rfl rfl (by decide) (by decide)

end Ws
end NetService
