import NetService.Ws.Parse

/-!
# A payload unmasked over several calls

The payload arrives in pieces, each put behind the one before it and parsed at once.  `feed_clean`
says what a call does when no byte that it takes is `-1` as a `char`, and `feed_fails` that it fails
otherwise; `unmasks_iff` joins the calls.
-/

namespace NetService
namespace Ws

open Memory

/-- A payload of fewer than 8192 bytes in non-empty pieces; behind the last there may be more. -/
structure Pieces where
  before : List (List UInt8)
  last : List UInt8
  extra : List UInt8
  before_ne : ∀ p ∈ before, p ≠ []
  last_ne : last ≠ []
  short : (before.flatten ++ last).length < 8192

/-- The payload. -/
def Pieces.payload (ps : Pieces) : List UInt8 := ps.before.flatten ++ ps.last

/-- What is there for each call. -/
def Pieces.given (ps : Pieces) : List (List UInt8) := ps.before ++ [ps.last ++ ps.extra]

/-- `piece` is copied to `pos` and parsed. -/
def feed (d : WsDealWith) (pos : ℕ) (piece : List UInt8) : Except WsFault (WsDealWith × Option ℕ) :=
  { d with pData := store d.pData pos piece }.parseWsHead pos piece.length

/-- Calls that do not fail, from byte `i` of a payload of `n` bytes on: each takes what there is of
the payload, and leaves for `INIT_HEAD` exactly if that is the rest of it. -/
inductive Fed (n : ℕ) : ℕ → WsDealWith → ℕ → List (List UInt8) → WsDealWith → Prop
  | nil (i : ℕ) (d : WsDealWith) (pos : ℕ) : Fed n i d pos [] d
  | cons {i l pos : ℕ} {d d' d'' : WsDealWith} {piece : List UInt8} {pieces : List (List UInt8)}
      (call : feed d pos piece = .ok (d', some l)) (takes : l = min piece.length (n - i))
      (done : d'.op = .initHead ↔ n ≤ i + l) (rest : Fed n (i + l) d' (pos + l) pieces d'') :
      Fed n i d pos (piece :: pieces) d''

/-- The calls take the payload at `pos`, and leave it unmasked there. -/
def Unmasks (d : WsDealWith) (pos : ℕ) (ps : Pieces) : Prop :=
  ∃ d', Fed ps.payload.length 0 d pos ps.given d' ∧
    ∀ i (h : i < ps.payload.length), d'.pData (pos + i) = ps.payload[i] ^^^ maskAt d.head.masks i

/-! ### One call -/

/-- The loop fails at a byte that is `-1`. -/
theorem unmask_fails (n avail pbuff readlen : ℕ) (d : WsDealWith)
    (hle : d.parseIndex + n ≤ d.head.len.toNat) (hlt : d.parseIndex + n < 65536)
    (havail : n ≤ avail) (hbad : 0xFF ∈ load d.pData pbuff n) :
    (d.unmask avail pbuff readlen).2 = none := by
  induction n generalizing avail pbuff readlen d with
  | zero => exact absurd hbad List.not_mem_nil
  | succ n ih =>
    obtain ⟨avail, rfl⟩ : ∃ a, avail = a + 1 := ⟨avail - 1, by omega⟩
    have hu16 : u16 (d.parseIndex + 1) = d.parseIndex + 1 := by
      exact_mod_cast u16_natCast (n := d.parseIndex + 1) (by omega)
    unfold WsDealWith.unmask
    rw [if_pos (by omega)]
    by_cases hbyte : d.pData pbuff = 0xFF
    · simp only [hbyte, if_true]
    · simp only [hbyte, if_false, hu16]
      refine ih avail (pbuff + 1) (readlen + 1) _ ?_ ?_ (by omega) ?_
      · show d.parseIndex + 1 + n ≤ d.head.len.toNat
        omega
      · show d.parseIndex + 1 + n < 65536
        omega
      · have hkeep : load (Function.update d.pData pbuff (d.pData pbuff ^^^
            maskAt d.head.masks d.parseIndex)) (pbuff + 1) n = load d.pData (pbuff + 1) n :=
          load_update_above _ _ _ (Nat.lt_succ_self pbuff)
        rw [load_succ] at hbad
        show 0xFF ∈ load (Function.update d.pData pbuff _) (pbuff + 1) n
        rw [hkeep]
        exact (List.mem_cons.1 hbad).resolve_left (Ne.symm hbyte)

/-- The parser is in a payload of `n` bytes, under `masks`, and `i` of them have been parsed. -/
structure InPayload (d : WsDealWith) (masks : Fin 4 → UInt8) (n i : ℕ) : Prop where
  op : d.op = .readData
  index : d.parseIndex = i
  len : d.head.len.toNat = n
  masks : d.head.masks = masks

variable {d : WsDealWith} {masks : Fin 4 → UInt8} {n i pos : ℕ} {piece : List UInt8}

/-- A call that meets no byte that is `-1`. -/
theorem feed_clean (h : InPayload d masks n i) (hi : i < n) (hn : n < 8192) (hne : piece ≠ [])
    (hclean : ∀ b ∈ piece.take (n - i), b ≠ 0xFF) :
    ∃ d', feed d pos piece = .ok (d', some (min piece.length (n - i))) ∧
      (d'.op = .initHead ↔ n ≤ i + min piece.length (n - i)) ∧
      (i + min piece.length (n - i) < n →
        InPayload d' masks n (i + min piece.length (n - i))) ∧
      load d'.pData pos (min piece.length (n - i)) =
        Keystream.crypt (maskAt masks) i (piece.take (n - i)) ∧
      ∀ j < pos, d'.pData j = d.pData j := by
  obtain ⟨hop, rfl, hlen, rfl⟩ := h
  have hpos := List.length_pos_iff.2 hne
  obtain ⟨l, hl⟩ : ∃ l, l = min piece.length (n - d.parseIndex) := ⟨_, rfl⟩
  rw [← hl]
  have htake : load (store d.pData pos piece) pos l = piece.take (n - d.parseIndex) := by
    rw [← take_load _ _ _ _ (show l ≤ piece.length by omega), load_store, List.take_eq_take_iff]
    omega
  have hlength : (piece.take (n - d.parseIndex)).length = l := by
    rw [List.length_take]
    omega
  -- the loop takes the piece, or as much of it as the payload still needs
  have hunmask := unmask_spec l piece.length pos 0 { d with pData := store d.pData pos piece }
    (by show d.parseIndex + l ≤ d.head.len.toNat; omega)
    (by show d.parseIndex + l < 65536; omega)
    (by show l = piece.length ∨ l ≤ piece.length ∧ d.parseIndex + l = d.head.len.toNat; omega)
    (by rw [htake]; exact hclean)
  simp only [Nat.zero_add, htake] at hunmask
  have hload : load (store (store d.pData pos piece) pos
      (Keystream.crypt (maskAt d.head.masks) d.parseIndex (piece.take (n - d.parseIndex)))) pos l =
      Keystream.crypt (maskAt d.head.masks) d.parseIndex (piece.take (n - d.parseIndex)) := by
    have hcrypt : (Keystream.crypt (maskAt d.head.masks) d.parseIndex
        (piece.take (n - d.parseIndex))).length = l := by
      rw [Keystream.length_crypt, hlength]
    conv_lhs => rw [← hcrypt]
    exact load_store _ _ _
  have hbelow : ∀ j < pos, store (store d.pData pos piece) pos
      (Keystream.crypt (maskAt d.head.masks) d.parseIndex (piece.take (n - d.parseIndex))) j =
        d.pData j := fun j hj => by
    rw [store_below _ _ hj, store_below _ _ hj]
  have hcall := parse_data_some (d := { d with pData := store d.pData pos piece }) hop
    (Int.natCast_pos.2 hpos) hunmask
  simp only [hlen] at hcall
  by_cases hend : n ≤ d.parseIndex + l
  · rw [if_pos hend] at hcall
    exact ⟨_, hcall, iff_of_true rfl hend, fun hlt => absurd hend (by omega), hload, hbelow⟩
  · rw [if_neg hend] at hcall
    refine ⟨_, hcall, iff_of_false (fun hidle => ?_) hend, fun _ => ⟨hop, rfl, hlen, rfl⟩, hload,
      hbelow⟩
    cases hop.symm.trans hidle

/-- A call that meets a byte that is `-1`. -/
theorem feed_fails (h : InPayload d masks n i) (hi : i < n) (hn : n < 8192)
    (hbad : 0xFF ∈ piece.take (n - i)) : ∃ d', feed d pos piece = .ok (d', none) := by
  obtain ⟨hop, hindex, hlen, hmasks⟩ := h
  have hpos : 0 < piece.length := by
    rw [List.length_pos_iff]
    rintro rfl
    rw [List.take_nil] at hbad
    exact absurd hbad List.not_mem_nil
  have htake : load (store d.pData pos piece) pos (min piece.length (n - i)) =
      piece.take (n - i) := by
    rw [← take_load _ _ _ _ (Nat.min_le_left ..), load_store, List.take_eq_take_iff]
    omega
  have hnone := unmask_fails (min piece.length (n - i)) piece.length pos 0
    { d with pData := store d.pData pos piece }
    (by show d.parseIndex + _ ≤ d.head.len.toNat; omega)
    (by show d.parseIndex + _ < 65536; omega) (Nat.min_le_left ..) (by rw [htake]; exact hbad)
  refine ⟨_, parse_data_none hop (by omega) (Prod.ext rfl hnone)⟩

/-! ### The calls -/

/-- Calls that do not fail have met no byte that is `-1`. -/
theorem clean_of_fed {d' : WsDealWith} {before : List (List UInt8)} {last extra : List UInt8}
    (h : InPayload d masks n i) (hn : n < 8192) (hbefore : ∀ p ∈ before, p ≠ []) (hne : last ≠ [])
    (hsum : i + (before.flatten ++ last).length = n)
    (hfed : Fed n i d pos (before ++ [last ++ extra]) d') :
    ∀ b ∈ before.flatten ++ last, b ≠ 0xFF := by
  have hlast := List.length_pos_iff.2 hne
  rw [List.length_append] at hsum
  induction before generalizing i pos d with
  | nil =>
    have hnil : ([] : List (List UInt8)).flatten.length = 0 := rfl
    have htake : (last ++ extra).take (n - i) = last := List.take_left' (by omega)
    rintro b hb rfl
    obtain ⟨d₁, hfails⟩ := feed_fails h (by omega) hn (by rwa [htake])
    cases hfed with
    | cons call => cases hfails.symm.trans call
  | cons p before ih =>
    have hp := hbefore p (by simp)
    have hppos := List.length_pos_iff.2 hp
    rw [List.flatten_cons, List.length_append] at hsum
    have htake : p.take (n - i) = p := List.take_of_length_le (by omega)
    have hmin : min p.length (n - i) = p.length := by omega
    have hclean : ∀ b ∈ p, b ≠ 0xFF := by
      rintro b hb rfl
      obtain ⟨d₁, hfails⟩ := feed_fails h (by omega) hn (by rwa [htake])
      cases hfed with
      | cons call => cases hfails.symm.trans call
    obtain ⟨d₁, hcall, -, hin, -⟩ := feed_clean h (by omega) hn hp (by rwa [htake])
    rw [hmin] at hcall hin
    cases hfed with
    | cons call _ _ rest =>
      cases hcall.symm.trans call
      intro b hb
      rw [List.flatten_cons, List.append_assoc] at hb
      rcases List.mem_append.1 hb with hb | hb
      · exact hclean b hb
      · exact ih (hin (by omega)) (fun q hq => hbefore q (by simp [hq])) (by omega) rest b hb

/-- Calls that meet no byte that is `-1` take the payload and unmask it. -/
theorem fed_of_clean {before : List (List UInt8)} {last extra : List UInt8}
    (h : InPayload d masks n i) (hn : n < 8192) (hbefore : ∀ p ∈ before, p ≠ []) (hne : last ≠ [])
    (hsum : i + (before.flatten ++ last).length = n)
    (hclean : ∀ b ∈ before.flatten ++ last, b ≠ 0xFF) :
    ∃ d', Fed n i d pos (before ++ [last ++ extra]) d' ∧ (∀ j < pos, d'.pData j = d.pData j) ∧
      load d'.pData pos (before.flatten ++ last).length =
        Keystream.crypt (maskAt masks) i (before.flatten ++ last) := by
  have hlast := List.length_pos_iff.2 hne
  rw [List.length_append] at hsum
  -- on the pieces; those before the last do not complete the payload
  induction before generalizing i pos d with
  | nil =>
    have hnil : ([] : List (List UInt8)).flatten.length = 0 := rfl
    have htake : (last ++ extra).take (n - i) = last := List.take_left' (by omega)
    have hmin : min (last ++ extra).length (n - i) = last.length := by
      rw [List.length_append]
      omega
    have hwhole : last ++ extra ≠ [] := by simp [hne]
    obtain ⟨d', hcall, hdone, -, hload, hbelow⟩ := feed_clean h (by omega) hn hwhole (by rwa [htake])
    rw [htake, hmin] at hload
    exact ⟨d', .cons hcall rfl hdone (.nil _ _ _), hbelow, hload⟩
  | cons p before ih =>
    have hp := hbefore p (by simp)
    have hppos := List.length_pos_iff.2 hp
    rw [List.flatten_cons, List.length_append] at hsum
    rw [List.flatten_cons, List.append_assoc] at hclean ⊢
    have htake : p.take (n - i) = p := List.take_of_length_le (by omega)
    have hmin : min p.length (n - i) = p.length := by omega
    obtain ⟨d₁, hcall, hdone, hin, hload, hbelow⟩ := feed_clean h (by omega) hn hp
      (by rw [htake]; exact fun b hb => hclean b (List.mem_append_left _ hb))
    rw [htake] at hload
    rw [hmin] at hcall hdone hin hload
    obtain ⟨d', hfed, hbelow', hload'⟩ := ih (hin (by omega))
      (fun q hq => hbefore q (by simp [hq])) (by omega)
      (fun b hb => hclean b (List.mem_append_right _ hb))
    refine ⟨d', .cons hcall hmin.symm hdone hfed, fun j hj => ?_, ?_⟩
    · rw [hbelow' j (by omega), hbelow j hj]
    · have hkeep : load d'.pData pos p.length = load d₁.pData pos p.length :=
        load_congr fun j _ hj => hbelow' j hj
      rw [List.length_append, load_add, hkeep, hload, hload',
        Keystream.crypt_append _ _ p (before.flatten ++ last)]

/-- For every mask, payload and splitting, the payload is unmasked as it arrives exactly if none of
its bytes in the buffer is `-1` as a `char`. -/
theorem unmasks_iff (d : WsDealWith) (pos : ℕ) (ps : Pieces) (hop : d.op = .readData)
    (hindex : d.parseIndex = 0) (hlen : d.head.len.toNat = ps.payload.length) :
    Unmasks d pos ps ↔ ∀ b ∈ ps.payload, b ≠ 0xFF := by
  have hin : InPayload d d.head.masks ps.payload.length 0 := ⟨hop, hindex, hlen, rfl⟩
  have hsum : 0 + (ps.before.flatten ++ ps.last).length = ps.payload.length := Nat.zero_add _
  constructor
  · rintro ⟨d', hfed, -⟩
    exact clean_of_fed hin ps.short ps.before_ne ps.last_ne hsum hfed
  · intro hclean
    obtain ⟨d', hfed, -, hload⟩ := fed_of_clean hin ps.short ps.before_ne ps.last_ne hsum hclean
    refine ⟨d', hfed, fun i hi => ?_⟩
    have hcells : load d'.pData pos ps.payload.length =
        Keystream.crypt (maskAt d.head.masks) 0 ps.payload := hload
    have hcell := congrArg (fun l => l[i]?) hcells
    simp only [getElem?_load, if_pos hi] at hcell
    rw [List.getElem?_eq_getElem (by rwa [Keystream.length_crypt]), Keystream.getElem_crypt _ _ hi,
      Nat.zero_add] at hcell
    exact Option.some.inj hcell

/-- Two bytes in two calls, the second with a byte more. -/
def samplePieces : Pieces := ⟨[[1]], [2], [3], by decide, by decide, by decide⟩

/-- The parser in a payload of two bytes. -/
def inSample : WsDealWith :=
  { WsDealWith.new (fun _ => 0) ⟨none, 2, fun _ => 7⟩ with op := .readData }

theorem unmasks_iff_sample : Unmasks inSample 6 samplePieces := by
  refine (unmasks_iff inSample 6 samplePieces rfl rfl rfl).2 ?_
  show ∀ b ∈ ([1, 2] : List UInt8), b ≠ 0xFF
  rw [List.forall_mem_cons, List.forall_mem_singleton]
  exact ⟨by decide, by decide⟩

/-- A payload of one byte, which is `-1` as a `char`. -/
def minusOne : Pieces := ⟨[], [0xFF], [], by decide, by decide, by decide⟩

theorem minus_one_fails :
    ¬ Unmasks { inSample with head := { inSample.head with len := 1 } } 6 minusOne := by
  rintro ⟨d', hfed, -⟩
  have hfails : ∃ d₁, feed { inSample with head := { inSample.head with len := 1 } } 6
      ([0xFF] ++ []) = .ok (d₁, none) := ⟨_, rfl⟩
  obtain ⟨d₁, hfails⟩ := hfails
  cases hfed with
  | cons call => cases hfails.symm.trans call

end Ws
end NetService
