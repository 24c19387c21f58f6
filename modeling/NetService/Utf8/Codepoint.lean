import NetService.Utf8.Valid

/-!
# The code points that `decode` finds

Whenever `*state` is `UTF8_ACCEPT` behind some bytes, the bytes end in the encoding of a character, and
`*codep` is the character: the first byte puts its low bits there, and every other byte moves
them up by six bits and adds its own.
-/

namespace NetService
namespace Utf8

/-- The number that continuation bytes make of another one. -/
def tailValue (v : ℕ) (w : List UInt8) : ℕ := w.foldl (fun v b => v * 64 + (b.toNat - 0x80)) v

theorem leadCodep_spec (b : UInt8) :
    (leadCodep b).toNat ≤ 0xff ∧
    (b.toNat < 0x80 → (leadCodep b).toNat = b.toNat) ∧
    (0xc2 ≤ b.toNat ∧ b.toNat < 0xe0 → (leadCodep b).toNat = b.toNat - 0xc0) ∧
    (0xe0 ≤ b.toNat ∧ b.toNat < 0xf0 → (leadCodep b).toNat = b.toNat - 0xe0) ∧
    (0xf0 ≤ b.toNat ∧ b.toNat < 0xf5 → (leadCodep b).toNat = b.toNat - 0xf0) := by
  have hall : ∀ n < 256,
      (leadCodep (UInt8.ofNat n)).toNat ≤ 0xff ∧
      (n < 0x80 → (leadCodep (UInt8.ofNat n)).toNat = n) ∧
      (0xc2 ≤ n ∧ n < 0xe0 → (leadCodep (UInt8.ofNat n)).toNat = n - 0xc0) ∧
      (0xe0 ≤ n ∧ n < 0xf0 → (leadCodep (UInt8.ofNat n)).toNat = n - 0xe0) ∧
      (0xf0 ≤ n ∧ n < 0xf5 → (leadCodep (UInt8.ofNat n)).toNat = n - 0xf0) := by
    decide +kernel
  have hb := hall b.toNat b.toNat_lt
  rwa [UInt8.ofNat_toNat] at hb

/-- A continuation byte moves the bits up and adds six of its own. -/
theorem toNat_nextCodep {s : Stage} (hs : s ≠ .accept) {b : UInt8} (hb : Tail b) {codep : UInt32}
    (hsize : codep.toNat * 64 + 64 ≤ 2 ^ 32) :
    (nextCodep s codep b).toNat = codep.toNat * 64 + (b.toNat - 0x80) := by
  obtain ⟨hb₁, hb₂⟩ := hb
  unfold nextCodep
  rw [if_neg hs, UInt32.toNat_or, UInt32.toNat_and, UInt8.toNat_toUInt32, UInt32.toNat_shiftLeft]
  show (b.toNat &&& 2 ^ 6 - 1) ||| codep.toNat <<< 6 % 2 ^ 32 = _
  have hmoved : codep.toNat <<< 6 % 2 ^ 32 = codep.toNat <<< 6 := by
    rw [Nat.shiftLeft_eq]
    exact Nat.mod_eq_of_lt (by omega)
  rw [hmoved, Nat.and_two_pow_sub_one_eq_mod, Nat.or_comm,
    ← Nat.shiftLeft_add_eq_or_of_lt (Nat.mod_lt _ (by norm_num)), Nat.shiftLeft_eq]
  omega

theorem toNat_codepFrom {s : Stage} {w : List UInt8} (h : dfa.FirstReturn s w) (hs : s ≠ .accept)
    (htail : ∀ b ∈ w, Tail b) {codep : UInt32}
    (hsize : (codep.toNat + 1) * 64 ^ w.length ≤ 2 ^ 32) :
    (codepFrom s codep w).toNat = tailValue codep.toNat w := by
  induction h generalizing codep with
  | @last s b hb =>
    rw [List.length_singleton, pow_one] at hsize
    exact toNat_nextCodep hs (htail b (List.mem_singleton_self b)) (by omega)
  | @more s b w hb hw ih =>
    obtain ⟨hhead, hrest⟩ := List.forall_mem_cons.1 htail
    rw [List.length_cons, pow_succ', ← mul_assoc] at hsize
    have hpos : 0 < 64 ^ w.length := Nat.pow_pos (by norm_num)
    have hfits : codep.toNat * 64 + 64 ≤ 2 ^ 32 := by nlinarith
    have hnext := toNat_nextCodep hs hhead hfits
    have hfits' : ((nextCodep s codep b).toNat + 1) * 64 ^ w.length ≤ 2 ^ 32 := by
      refine le_trans (Nat.mul_le_mul_right _ ?_) hsize
      obtain ⟨hhead₁, hhead₂⟩ := hhead
      omega
    have hrec := ih hb hrest hfits'
    rw [hnext] at hrec
    refine hrec.trans ?_
    rw [tailValue, tailValue, List.foldl_cons]

theorem WellFormed.tail {b : UInt8} {w : List UInt8} (h : WellFormed (b :: w)) :
    (∀ d ∈ w, Tail d) ∧ w.length ≤ 3 := by
  cases h <;> simp [*]

/-- `*codep` behind a character. -/
theorem codepFrom_wellFormed {b : UInt8} {w : List UInt8} (h : WellFormed (b :: w))
    (codep : UInt32) :
    (codepFrom .accept codep (b :: w)).toNat = tailValue (leadCodep b).toNat w := by
  obtain ⟨htail, hlength⟩ := h.tail
  cases h.firstReturn with
  | last hb => rfl
  | more hb hw =>
    refine toNat_codepFrom hw hb htail ?_
    have hlead := (leadCodep_spec b).1
    calc ((leadCodep b).toNat + 1) * 64 ^ w.length
        ≤ 256 * 64 ^ 3 := Nat.mul_le_mul (by omega) (Nat.pow_le_pow_right (by norm_num) hlength)
      _ ≤ 2 ^ 32 := by norm_num

theorem codepFrom_encode (c : Char) (codep : UInt32) :
    codepFrom .accept codep (String.utf8EncodeChar c) = c.val := by
  have hvalid := valid c
  have hform := wellFormed_encode c
  apply UInt32.toNat_inj.1
  show _ = c.toNat
  by_cases h1 : c.toNat < 0x80
  · obtain ⟨b, henc, hb⟩ := encode_one h1
    have hlead := leadCodep_spec b
    rw [henc] at hform ⊢
    rw [codepFrom_wellFormed hform, tailValue, List.foldl_nil]
    omega
  by_cases h2 : c.toNat < 0x800
  · obtain ⟨b, d, henc, hb, hd⟩ := encode_two (by omega) h2
    have hlead := leadCodep_spec b
    rw [henc] at hform ⊢
    rw [codepFrom_wellFormed hform, tailValue, List.foldl_cons, List.foldl_nil]
    omega
  by_cases h3 : c.toNat < 0x10000
  · obtain ⟨b, d, e, henc, hb, hd, he⟩ := encode_three (by omega) h3
    have hlead := leadCodep_spec b
    rw [henc] at hform ⊢
    rw [codepFrom_wellFormed hform, tailValue, List.foldl_cons, List.foldl_cons, List.foldl_nil]
    omega
  · obtain ⟨b, d, e, f, henc, hb, hd, he, hf⟩ := encode_four (by omega : 0x10000 ≤ c.toNat)
    have hlead := leadCodep_spec b
    rw [henc] at hform ⊢
    rw [codepFrom_wellFormed hform, tailValue, List.foldl_cons, List.foldl_cons, List.foldl_cons,
      List.foldl_nil]
    omega

theorem codepFrom_append (s : Stage) (codep : UInt32) (xs ys : List UInt8) :
    codepFrom s codep (xs ++ ys) = codepFrom (dfa.evalFrom s xs) (codepFrom s codep xs) ys := by
  induction xs generalizing s codep with
  | nil => rfl
  | cons b xs ih => exact ih _ _

/-- Where `decode` returns `UTF8_ACCEPT`, the bytes up to there are the encoding of some characters,
and `*codep` is the last of them; and it returns it behind each of them. -/
theorem codepoint_decoded (bs : List UInt8) (codep v : UInt32) :
    (bs ≠ [] ∧ lenLoop bs.length bs utf8Accept codep = some (utf8Accept, v)) ↔
      ∃ (cs : List Char) (c : Char),
        bs = (cs ++ [c]).flatMap String.utf8EncodeChar ∧ v = c.val := by
  have hloop := lenLoop_eq bs [] .accept codep
  rw [List.append_nil] at hloop
  have hlast : ∀ (cs : List Char) (c : Char),
      codepFrom .accept codep ((cs ++ [c]).flatMap String.utf8EncodeChar) = c.val := by
    intro cs c
    have hcs : dfa.evalFrom .accept (cs.flatMap String.utf8EncodeChar) = .accept :=
      (eval_eq_accept_iff _).2 ⟨cs, rfl⟩
    rw [List.flatMap_append, codepFrom_append, hcs, List.flatMap_singleton, codepFrom_encode]
  constructor
  · rintro ⟨hne, hread⟩
    have hpair := Option.some_inj.1 (hloop.symm.trans hread)
    rw [Prod.mk.injEq, ofNat_code_eq_accept_iff] at hpair
    obtain ⟨cs, hcs⟩ := (eval_eq_accept_iff bs).1 hpair.1
    rcases List.eq_nil_or_concat cs with rfl | ⟨cs, c, rfl⟩
    · exact absurd hcs hne
    · rw [List.concat_eq_append] at hcs
      refine ⟨cs, c, hcs, ?_⟩
      rw [← hpair.2, hcs, hlast]
  · rintro ⟨cs, c, hbs, rfl⟩
    constructor
    · rintro rfl
      have hempty : String.utf8EncodeChar c = [] := by
        rw [List.flatMap_append, List.flatMap_singleton] at hbs
        exact (List.append_eq_nil_iff.1 hbs.symm).2
      exact absurd (wellFormed_encode c) (by rw [hempty]; exact nofun)
    · refine hloop.trans ?_
      have hstate : dfa.evalFrom .accept bs = .accept := (eval_eq_accept_iff bs).2 ⟨_, hbs⟩
      rw [hstate, hbs, hlast]
      rfl

end Utf8
end NetService
