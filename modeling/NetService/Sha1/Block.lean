import NetService.Lib.Loop
import NetService.Sha1.Model

/-!
# `SHA1ProcessMessageBlock` computes the value after the block

The words: the first loop reads them from the block, and before every pass of the second one the
entries of `W` below the counter are those of the schedule.  The buffers: every pass of the four loops
is the round of the standard.
-/

namespace NetService
namespace Sha1

/-! ### Words -/

/-- The shift macro, for every shift that is not the whole word. -/
theorem sha1CircularShift_eq (n : ℕ) (hn : n < 32) (hpos : 0 < n) (x : UInt32) :
    sha1CircularShift (UInt32.ofNat n) x = rotl n x := by
  have hleft : (UInt32.ofNat n).toBitVec % 32 = BitVec.ofNat 32 n := by
    apply BitVec.eq_of_toNat_eq
    simp
    omega
  have hright : (32 - UInt32.ofNat n).toBitVec % 32 = BitVec.ofNat 32 (32 - n) := by
    apply BitVec.eq_of_toNat_eq
    simp
    omega
  have hn' : n % 2 ^ 32 = n := Nat.mod_eq_of_lt (by omega)
  have hn'' : (32 - n) % 2 ^ 32 = 32 - n := Nat.mod_eq_of_lt (by omega)
  apply UInt32.eq_of_toBitVec_eq
  rw [sha1CircularShift, rotl, UInt32.toBitVec_or, UInt32.toBitVec_shiftLeft,
    UInt32.toBitVec_shiftRight, hleft, hright, BitVec.rotateLeft_def, Nat.mod_eq_of_lt hn,
    BitVec.shiftLeft_eq', BitVec.ushiftRight_eq', BitVec.toNat_ofNat, BitVec.toNat_ofNat, hn', hn'']

theorem sha1CircularShift_one (x : UInt32) : sha1CircularShift 1 x = rotl 1 x :=
  sha1CircularShift_eq 1 (by decide) (by decide) x

theorem sha1CircularShift_five (x : UInt32) : sha1CircularShift 5 x = rotl 5 x :=
  sha1CircularShift_eq 5 (by decide) (by decide) x

theorem sha1CircularShift_thirty (x : UInt32) : sha1CircularShift 30 x = rotl 30 x :=
  sha1CircularShift_eq 30 (by decide) (by decide) x

/-- A byte moved to its place in a word. -/
theorem toNat_shiftLeft {n : ℕ} (hn : n ≤ 24) (x : UInt8) :
    (x.toUInt32 <<< UInt32.ofNat n).toNat = x.toNat * 2 ^ n := by
  have hx := x.toNat_lt
  have hpow : x.toNat * 2 ^ n < 2 ^ 32 := by
    calc x.toNat * 2 ^ n < 2 ^ 8 * 2 ^ n := Nat.mul_lt_mul_of_pos_right hx (by positivity)
      _ = 2 ^ (8 + n) := (pow_add 2 8 n).symm
      _ ≤ 2 ^ 32 := Nat.pow_le_pow_right (by decide) (by omega)
  have hmod : n % 2 ^ 32 % 32 = n := by omega
  rw [UInt32.toNat_shiftLeft, UInt8.toNat_toUInt32, UInt32.toNat_ofNat', hmod, Nat.shiftLeft_eq,
    Nat.mod_eq_of_lt hpow]

/-- Four bytes put into a word, the highest first. -/
theorem or_shifts (a b c d : UInt8) :
    a.toUInt32 <<< 24 ||| b.toUInt32 <<< 16 ||| c.toUInt32 <<< 8 ||| d.toUInt32 =
      UInt32.ofNat (Word.joined [a, b, c, d]) := by
  have ha := a.toNat_lt
  have hb := b.toNat_lt
  have hc := c.toNat_lt
  have hd := d.toNat_lt
  have h₁ : a.toNat * 2 ^ 24 ||| b.toNat * 2 ^ 16 = a.toNat * 2 ^ 24 + b.toNat * 2 ^ 16 :=
    Word.or_eq_add (Dvd.intro_left _ rfl) (by omega)
  have h₂ : (a.toNat * 2 ^ 24 + b.toNat * 2 ^ 16) ||| c.toNat * 2 ^ 8 =
      a.toNat * 2 ^ 24 + b.toNat * 2 ^ 16 + c.toNat * 2 ^ 8 :=
    Word.or_eq_add (k := 16) (by omega) (by omega)
  have h₃ : (a.toNat * 2 ^ 24 + b.toNat * 2 ^ 16 + c.toNat * 2 ^ 8) ||| d.toNat =
      a.toNat * 2 ^ 24 + b.toNat * 2 ^ 16 + c.toNat * 2 ^ 8 + d.toNat :=
    Word.or_eq_add (k := 8) (by omega) hd
  have h24 : (a.toUInt32 <<< 24).toNat = a.toNat * 2 ^ 24 := toNat_shiftLeft (n := 24) (by decide) a
  have h16 : (b.toUInt32 <<< 16).toNat = b.toNat * 2 ^ 16 := toNat_shiftLeft (n := 16) (by decide) b
  have h8 : (c.toUInt32 <<< 8).toNat = c.toNat * 2 ^ 8 := toNat_shiftLeft (n := 8) (by decide) c
  have hjoined : Word.joined [a, b, c, d] =
      a.toNat * 2 ^ 24 + b.toNat * 2 ^ 16 + c.toNat * 2 ^ 8 + d.toNat := by
    simp only [Word.joined, List.foldl_cons, List.foldl_nil]
    omega
  apply UInt32.toNat_inj.1
  rw [UInt32.toNat_or, UInt32.toNat_or, UInt32.toNat_or, h24, h16, h8, UInt8.toNat_toUInt32, h₁, h₂,
    h₃, hjoined, UInt32.toNat_ofNat']
  omega

/-- The bytes of the `t`-th word of a block. -/
theorem block_four {bs : List UInt8} {t : ℕ} (h : 4 * t + 3 < bs.length) :
    BlockHash.block 4 bs t = [bs[4 * t], bs[4 * t + 1], bs[4 * t + 2], bs[4 * t + 3]] := by
  rw [BlockHash.block, List.drop_eq_getElem_cons (by omega), List.drop_eq_getElem_cons (by omega),
    List.drop_eq_getElem_cons (by omega), List.drop_eq_getElem_cons (by omega)]
  rfl

/-! ### The array `W` -/

theorem getElem_loadWords (block : Vector UInt8 64) (W : Vector UInt32 80) {t : ℕ} (hlen : t < 80)
    (ht : t < 16) :
    (loadWords block W)[t] = word block.toList t := by
  have hloop : ∀ s (hs : s < 80), s < 16 → (loadWords block W)[s] = word block.toList s := by
    apply Loop.fold_invariant
      (fun i (V : Vector UInt32 80) => ∀ s (hs : s < 80), s < i → V[s] = word block.toList s)
    · intro s _ hlt
      omega
    · intro i hi V hV s hs hlt
      by_cases hsi : i = s
      · subst hsi
        have hlen : 4 * i + 3 < block.toList.length := by
          rw [Vector.length_toList]
          omega
        rw [Vector.getElem_set_self, or_shifts, word, block_four hlen]
        simp only [Vector.getElem_toList, Nat.mul_comm]
      · rw [Vector.getElem_set_ne _ _ hsi]
        exact hV s hs (by omega)
  exact hloop t hlen ht

theorem schedule_of_lt {m : ℕ → UInt32} {t : ℕ} (h : t < 16) : schedule m t = m t := by
  rw [schedule, if_pos h]

theorem schedule_of_le {m : ℕ → UInt32} {t : ℕ} (h : 16 ≤ t) :
    schedule m t = rotl 1 (schedule m (t - 3) ^^^ schedule m (t - 8) ^^^ schedule m (t - 14) ^^^
      schedule m (t - 16)) := by
  rw [schedule, if_neg (by omega)]

/-- The second loop fills the array with the schedule of the words that stand in it. -/
theorem getElem_extendWords (W : Vector UInt32 80) {m : ℕ → UInt32}
    (hW : ∀ t (ht : t < 80), t < 16 → W[t] = m t) {t : ℕ} (ht : t < 80) :
    (extendWords W)[t] = schedule m t := by
  have hloop : ∀ s (hs : s < 80), s < 16 + 64 → (extendWords W)[s] = schedule m s := by
    apply Loop.fold_invariant
      (fun i (V : Vector UInt32 80) => ∀ s (hs : s < 80), s < 16 + i → V[s] = schedule m s)
    · intro s hs hlt
      rw [hW s hs hlt, schedule_of_lt hlt]
    · intro i hi V hV s hs hlt
      by_cases hsi : 16 + i = s
      · subst hsi
        rw [Vector.getElem_set_self, sha1CircularShift_one, schedule_of_le (by omega),
          hV _ _ (by omega), hV _ _ (by omega), hV _ _ (by omega), hV _ _ (by omega)]
      · rw [Vector.getElem_set_ne _ _ hsi]
        exact hV s hs (by omega)
  exact hloop t ht (by omega)

/-! ### Rounds -/

/-- A loop of 20 rounds, from round `j` on. -/
theorem fold_rounds {m : ℕ → UInt32} {v v' : Buffers} {j : ℕ}
    {body : (i : ℕ) → i < 20 → Buffers → Buffers} (hv : v' = rounds m v j)
    (hbody : ∀ i (h : i < 20) u, body i h u = round (schedule m (j + i)) (j + i) u) :
    Nat.fold 20 body v' = rounds m v (j + 20) := by
  apply Loop.fold_invariant (fun i u => u = rounds m v (j + i))
  · exact hv
  · rintro i h u rfl
    rw [hbody i h, ← Nat.add_assoc, rounds]

/-- A pass with the function and the constant of round `t`. -/
theorem shiftIn_eq {t : ℕ} {g K w : UInt32} {v : Buffers} (hf : g = f t v.b v.c v.d) (hk : K = k t) :
    v.shiftIn (sha1CircularShift 5 v.a + g + v.e + w + K) = round w t v := by
  rw [Buffers.shiftIn, round, sha1CircularShift_five, sha1CircularShift_thirty, hf, hk]

section
variable {W : Vector UInt32 80} {m : ℕ → UInt32} (hW : ∀ t (ht : t < 80), W[t] = schedule m t)
  (v : Buffers)
include hW

theorem mix₀_eq : mix₀ W v = rounds m v 20 := by
  apply fold_rounds (j := 0) rfl
  intro i h u
  rw [hW, Nat.zero_add]
  apply shiftIn_eq
  · rw [f, if_pos h]
  · rw [k, if_pos h]

theorem mix₁_eq : mix₁ W (rounds m v 20) = rounds m v 40 := by
  apply fold_rounds rfl
  intro i h u
  rw [hW]
  apply shiftIn_eq
  · rw [f, if_neg (by omega), if_pos (by omega)]
  · rw [k, if_neg (by omega), if_pos (by omega)]

theorem mix₂_eq : mix₂ W (rounds m v 40) = rounds m v 60 := by
  apply fold_rounds rfl
  intro i h u
  rw [hW]
  apply shiftIn_eq
  · rw [f, if_neg (by omega), if_neg (by omega), if_pos (by omega)]
  · rw [k, if_neg (by omega), if_neg (by omega), if_pos (by omega)]

theorem mix₃_eq : mix₃ W (rounds m v 60) = rounds m v 80 := by
  apply fold_rounds rfl
  intro i h u
  rw [hW]
  apply shiftIn_eq
  · rw [f, if_neg (by omega), if_neg (by omega), if_neg (by omega)]
  · rw [k, if_neg (by omega), if_neg (by omega), if_neg (by omega)]

end

/-! ### The block -/

@[simp] theorem sha1ProcessMessageBlock_index (c : SHA1Context) :
    (sha1ProcessMessageBlock c).messageBlockIndex = 0 := rfl

@[simp] theorem sha1ProcessMessageBlock_low (c : SHA1Context) :
    (sha1ProcessMessageBlock c).lengthLow = c.lengthLow := rfl

@[simp] theorem sha1ProcessMessageBlock_high (c : SHA1Context) :
    (sha1ProcessMessageBlock c).lengthHigh = c.lengthHigh := rfl

@[simp] theorem sha1ProcessMessageBlock_computed (c : SHA1Context) :
    (sha1ProcessMessageBlock c).computed = c.computed := rfl

@[simp] theorem sha1ProcessMessageBlock_corrupted (c : SHA1Context) :
    (sha1ProcessMessageBlock c).corrupted = c.corrupted := rfl

/-- The new value is the one the standard prescribes. -/
@[simp] theorem sha1ProcessMessageBlock_hash (c : SHA1Context) :
    (sha1ProcessMessageBlock c).intermediateHash = compress c.intermediateHash c.messageBlock.toList := by
  have hW : ∀ t (ht : t < 80),
      (extendWords (loadWords c.messageBlock (Vector.replicate 80 0)))[t] =
        schedule (word c.messageBlock.toList) t := by
    intro t ht
    apply getElem_extendWords
    intro s hs hlt
    exact getElem_loadWords _ _ hs hlt
  rw [compress, ← mix₃_eq hW, ← mix₂_eq hW, ← mix₁_eq hW, ← mix₀_eq hW]
  rfl

end Sha1
end NetService
