import NetService.Lib.Word

/-!
# Bytes or-ed into a word

`orBytes ext bs` puts the bytes `bs` together, the highest first, by shifts and bitwise ors, each
byte widened by `ext` before it is shifted.  With zero extension this is the number the bytes stand
for (`toNat_orBytes_zero`).  With sign extension a byte whose highest bit is set covers every byte
above it, and `orBytes_sign_eq_iff` says for which bytes that does not show.
-/

namespace Word

variable {w : ℕ}

/-- The bytes, each widened by `ext` and shifted to its place. -/
def orBytes (ext : BitVec 8 → BitVec w) : List UInt8 → BitVec w
  | [] => 0
  | b :: bs => ext b.toBitVec <<< (8 * bs.length) ||| orBytes ext bs

/-- The highest bit of a byte. -/
def high (b : UInt8) : Bool := b.toBitVec.msb

/-- A byte below which no byte has its highest bit set, or which is all ones. -/
def Covered (a b : UInt8) : Prop := high b = true → a = 0xFF

instance (a b : UInt8) : Decidable (Covered a b) := inferInstanceAs (Decidable (_ → _))

theorem high_iff (b : UInt8) : high b = true ↔ 128 ≤ b.toNat := by
  have hb : b.toBitVec.toNat = b.toNat := rfl
  rw [high, BitVec.msb_eq_decide, decide_eq_true_eq, hb]

/-- Behind a zero byte no byte may have its highest bit set. -/
theorem pairwise_zero_cons {bs : List UInt8} :
    (0 :: bs).Pairwise Covered ↔ ∀ b ∈ bs, high b = false := by
  have hne : (0 : UInt8) ≠ 0xFF := by decide
  rw [List.pairwise_cons]
  constructor
  · rintro ⟨hzero, -⟩ b hb
    exact Bool.eq_false_iff.2 fun hhigh => hne (hzero b hb hhigh)
  · intro hnone
    refine ⟨fun b hb hhigh => ?_, List.pairwise_of_forall_mem_list fun a _ b hb hhigh => ?_⟩
    · exact absurd hhigh (Bool.eq_false_iff.1 (hnone b hb))
    · exact absurd hhigh (Bool.eq_false_iff.1 (hnone b hb))

theorem eq_ones_iff (b : UInt8) : b = 0xFF ↔ ∀ i < 8, b.toBitVec.getLsbD i = true := by
  constructor
  · rintro rfl i hi
    interval_cases i <;> rfl
  · intro h
    refine UInt8.eq_of_toBitVec_eq (BitVec.eq_of_getLsbD_eq fun i hi => ?_)
    rw [h i hi]
    interval_cases i <;> rfl

/-! ### Zero extension -/

theorem joined_cons (b : UInt8) (bs : List UInt8) :
    joined (b :: bs) = b.toNat * 256 ^ bs.length + joined bs := by
  induction bs using List.reverseRecOn with
  | nil => simp [joined]
  | append_singleton bs c ih =>
    rw [← List.cons_append, joined_append_singleton, ih, joined_append_singleton,
      List.length_append, List.length_singleton, pow_succ]
    ring

/-- Zero-extended bytes are the number they stand for. -/
theorem toNat_orBytes_zero {bs : List UInt8} (h : 8 * bs.length ≤ w) :
    (orBytes (BitVec.setWidth w) bs).toNat = joined bs := by
  induction bs with
  | nil => simp [orBytes, joined]
  | cons b bs ih =>
    rw [List.length_cons] at h
    have hb := b.toNat_lt
    have hpow : (256 : ℕ) ^ bs.length = 2 ^ (8 * bs.length) := by
      rw [pow_mul]
      rfl
    have hshift : (BitVec.setWidth w b.toBitVec <<< (8 * bs.length)).toNat =
        b.toNat * 2 ^ (8 * bs.length) := by
      have hle : 2 ^ (8 * bs.length + 8) ≤ 2 ^ w := Nat.pow_le_pow_right (by decide) (by omega)
      have hlt : b.toNat * 2 ^ (8 * bs.length) < 2 ^ (8 * bs.length + 8) := by
        rw [pow_add, Nat.mul_comm]
        exact Nat.mul_lt_mul_of_pos_left (by omega) (by positivity)
      have hfit : b.toNat < 2 ^ w := by
        have h8 : 2 ^ 8 ≤ 2 ^ w := Nat.pow_le_pow_right (by decide) (by omega)
        omega
      rw [BitVec.toNat_shiftLeft, BitVec.toNat_setWidth, Nat.shiftLeft_eq]
      show b.toNat % 2 ^ w * 2 ^ (8 * bs.length) % 2 ^ w = _
      rw [Nat.mod_eq_of_lt hfit, Nat.mod_eq_of_lt (hlt.trans_le hle)]
    have hrest := ih (by omega)
    have hlow : joined bs < 2 ^ (8 * bs.length) := hpow ▸ joined_lt bs
    rw [orBytes, BitVec.toNat_or, hshift, hrest, or_eq_add ⟨_, Nat.mul_comm _ _⟩ hlow, joined_cons,
      hpow]

theorem getLsbD_orBytes_zero_above {bs : List UInt8} {i : ℕ} (hi : 8 * bs.length ≤ i) :
    (orBytes (BitVec.setWidth w) bs).getLsbD i = false := by
  induction bs with
  | nil => simp [orBytes]
  | cons b bs ih =>
    rw [List.length_cons] at hi
    rw [orBytes, BitVec.getLsbD_or, ih (by omega), BitVec.getLsbD_shiftLeft, BitVec.getLsbD_setWidth,
      BitVec.getLsbD_of_ge _ _ (by omega)]
    simp

/-! ### Sign extension -/

/-- Above the bytes, sign extension leaves ones where some byte has its highest bit set. -/
theorem getLsbD_orBytes_sign_above (bs : List UInt8) {i : ℕ} (hi : 8 * bs.length ≤ i) (hw : i < w) :
    (orBytes (BitVec.signExtend w) bs).getLsbD i = bs.any high := by
  induction bs with
  | nil => simp [orBytes]
  | cons b bs ih =>
    rw [List.length_cons] at hi
    rw [orBytes, BitVec.getLsbD_or, ih (by omega), BitVec.getLsbD_shiftLeft,
      BitVec.getLsbD_signExtend, if_neg (by omega), List.any_cons]
    simp only [hw, decide_true, Bool.true_and, show ¬ i < 8 * bs.length by omega, decide_false,
      Bool.not_false, show i - 8 * bs.length < w by omega]
    rfl

/-- At the place of its first byte, a word of sign-extended bytes has that byte, covered. -/
theorem getLsbD_orBytes_sign_first {b : UInt8} {bs : List UInt8} {j : ℕ} (hj : j < 8)
    (hw : 8 * bs.length + 8 ≤ w) :
    (orBytes (BitVec.signExtend w) (b :: bs)).getLsbD (8 * bs.length + j) =
      (b.toBitVec.getLsbD j || bs.any high) := by
  rw [orBytes, BitVec.getLsbD_or, getLsbD_orBytes_sign_above _ (by omega) (by omega),
    BitVec.getLsbD_shiftLeft, BitVec.getLsbD_signExtend, Nat.add_sub_cancel_left, if_pos hj]
  simp only [show 8 * bs.length + j < w by omega, decide_true, Bool.true_and,
    show ¬ 8 * bs.length + j < 8 * bs.length by omega, decide_false, Bool.not_false,
    show j < w by omega]

theorem getLsbD_orBytes_zero_first {b : UInt8} {bs : List UInt8} {j : ℕ} (hj : j < 8)
    (hw : 8 * bs.length + 8 ≤ w) :
    (orBytes (BitVec.setWidth w) (b :: bs)).getLsbD (8 * bs.length + j) = b.toBitVec.getLsbD j := by
  rw [orBytes, BitVec.getLsbD_or, getLsbD_orBytes_zero_above (by omega), BitVec.getLsbD_shiftLeft,
    BitVec.getLsbD_setWidth, Nat.add_sub_cancel_left]
  simp only [show 8 * bs.length + j < w by omega, decide_true, Bool.true_and,
    show ¬ 8 * bs.length + j < 8 * bs.length by omega, decide_false, Bool.not_false,
    show j < w by omega, Bool.or_false]

/-- Below its first byte, a word is the word of the other bytes. -/
theorem getLsbD_orBytes_below (ext : BitVec 8 → BitVec w) {b : UInt8} {bs : List UInt8} {i : ℕ}
    (hi : i < 8 * bs.length) :
    (orBytes ext (b :: bs)).getLsbD i = (orBytes ext bs).getLsbD i := by
  rw [orBytes, BitVec.getLsbD_or, BitVec.getLsbD_shiftLeft]
  simp [hi]

/-- The bytes read the same, whichever extension is used, when each is covered by those below. -/
theorem orBytes_sign_low_iff {bs : List UInt8} (h : 8 * bs.length ≤ w) :
    (∀ i < 8 * bs.length, (orBytes (BitVec.signExtend w) bs).getLsbD i =
      (orBytes (BitVec.setWidth w) bs).getLsbD i) ↔ bs.Pairwise Covered := by
  induction bs with
  | nil => simp
  | cons b bs ih =>
    rw [List.length_cons] at h
    rw [List.pairwise_cons, ← ih (by omega)]
    have hfirst : (∀ j < 8, (b.toBitVec.getLsbD j || bs.any high) = b.toBitVec.getLsbD j) ↔
        ∀ c ∈ bs, Covered b c := by
      cases hany : bs.any high with
      | true =>
        obtain ⟨c, hc, hhigh⟩ := List.any_eq_true.1 hany
        simp only [Bool.or_true]
        constructor
        · intro hones c' _ _
          exact (eq_ones_iff b).2 fun j hj => (hones j hj).symm
        · intro hcov j hj
          exact ((eq_ones_iff b).1 (hcov c hc hhigh) j hj).symm
      | false =>
        simp only [Bool.or_false, implies_true, true_iff]
        intro c hc hhigh
        have hnot := List.any_eq_false.1 hany c hc
        exact absurd hhigh hnot
    constructor
    · intro hall
      refine ⟨hfirst.1 fun j hj => ?_, fun i hi => ?_⟩
      · have hbit := hall (8 * bs.length + j) (by rw [List.length_cons]; omega)
        rwa [getLsbD_orBytes_sign_first hj (by omega), getLsbD_orBytes_zero_first hj (by omega)]
          at hbit
      · have hbit := hall i (by rw [List.length_cons]; omega)
        rwa [getLsbD_orBytes_below _ hi, getLsbD_orBytes_below _ hi] at hbit
    · rintro ⟨hcov, hrest⟩ i hi
      rw [List.length_cons] at hi
      rcases Nat.lt_or_ge i (8 * bs.length) with hlt | hge
      · rw [getLsbD_orBytes_below _ hlt, getLsbD_orBytes_below _ hlt]
        exact hrest i hlt
      · obtain ⟨j, rfl⟩ := Nat.exists_eq_add_of_le hge
        have hj : j < 8 := by omega
        rw [getLsbD_orBytes_sign_first hj (by omega), getLsbD_orBytes_zero_first hj (by omega)]
        exact hfirst.2 hcov j hj

/-- Sign extension does not show: each byte is covered by those below it, and if the word has room
above the bytes, none has its highest bit set. -/
theorem orBytes_sign_eq_iff {bs : List UInt8} (h : 8 * bs.length ≤ w) :
    orBytes (BitVec.signExtend w) bs = orBytes (BitVec.setWidth w) bs ↔
      bs.Pairwise Covered ∧ (8 * bs.length < w → ∀ b ∈ bs, high b = false) := by
  rw [← orBytes_sign_low_iff h]
  constructor
  · intro heq
    refine ⟨fun i _ => by rw [heq], fun hlt b hb => ?_⟩
    have hbit := getLsbD_orBytes_sign_above bs le_rfl hlt
    rw [heq, getLsbD_orBytes_zero_above le_rfl] at hbit
    have hnot := List.any_eq_false.1 hbit.symm b hb
    exact Bool.eq_false_iff.2 hnot
  · rintro ⟨hlow, habove⟩
    refine BitVec.eq_of_getLsbD_eq fun i hi => ?_
    rcases Nat.lt_or_ge i (8 * bs.length) with hlt | hge
    · exact hlow i hlt
    · rw [getLsbD_orBytes_sign_above _ hge hi, getLsbD_orBytes_zero_above hge, List.any_eq_false]
      intro b hb
      rw [habove (by omega) b hb]
      decide

end Word
