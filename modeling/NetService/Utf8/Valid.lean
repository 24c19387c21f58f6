import NetService.Utf8.Automaton

/-!
# What `utf8.c` accepts

The words that lead the automaton from between two characters to behind the next one are the encodings
of the Unicode scalar values (`firstReturn_iff`), so that it accepts exactly the texts put together
from encodings.  `text_accepted` says this of `is_utf8` and `is_utf8_len`, and `parts_checked` of a text
that is given to `is_utf8_len_state` in parts.
-/

namespace NetService
namespace Utf8

open Stage

/-! ### Encodings -/

theorem valid (c : Char) : c.toNat < 0xd800 ∨ 0xdfff < c.toNat ∧ c.toNat < 0x110000 := c.valid

theorem exists_char {v : ℕ} (h : v < 0xd800 ∨ 0xdfff < v ∧ v < 0x110000) :
    ∃ c : Char, c.toNat = v :=
  ⟨Char.ofNatAux v h, rfl⟩

theorem toNat_ofNat {n : ℕ} (h : n < 256) : (UInt8.ofNat n).toNat = n := by
  rw [UInt8.toNat_ofNat']
  exact Nat.mod_eq_of_lt h

theorem encode_one {c : Char} (h : c.toNat < 0x80) :
    ∃ b, String.utf8EncodeChar c = [b] ∧ b.toNat = c.toNat := by
  have hv : c.val.toNat = c.toNat := rfl
  refine ⟨_, ?_, toNat_ofNat (by omega)⟩
  rw [String.utf8EncodeChar, hv, if_pos (by omega)]

theorem encode_two {c : Char} (h₁ : 0x80 ≤ c.toNat) (h₂ : c.toNat < 0x800) :
    ∃ b d, String.utf8EncodeChar c = [b, d] ∧ b.toNat = c.toNat / 64 + 0xc0 ∧
      d.toNat = c.toNat % 64 + 0x80 := by
  have hv : c.val.toNat = c.toNat := rfl
  refine ⟨_, _, ?_, toNat_ofNat (by omega), toNat_ofNat (by omega)⟩
  rw [String.utf8EncodeChar, hv, if_neg (by omega), if_pos (by omega), Nat.mod_eq_of_lt (by omega)]

theorem encode_three {c : Char} (h₁ : 0x800 ≤ c.toNat) (h₂ : c.toNat < 0x10000) :
    ∃ b d e, String.utf8EncodeChar c = [b, d, e] ∧ b.toNat = c.toNat / 4096 + 0xe0 ∧
      d.toNat = c.toNat / 64 % 64 + 0x80 ∧ e.toNat = c.toNat % 64 + 0x80 := by
  have hv : c.val.toNat = c.toNat := rfl
  refine ⟨_, _, _, ?_, toNat_ofNat (by omega), toNat_ofNat (by omega), toNat_ofNat (by omega)⟩
  rw [String.utf8EncodeChar, hv, if_neg (by omega), if_neg (by omega), if_pos (by omega),
    Nat.mod_eq_of_lt (by omega)]

theorem encode_four {c : Char} (h : 0x10000 ≤ c.toNat) :
    ∃ b d e f, String.utf8EncodeChar c = [b, d, e, f] ∧ b.toNat = c.toNat / 262144 + 0xf0 ∧
      d.toNat = c.toNat / 4096 % 64 + 0x80 ∧ e.toNat = c.toNat / 64 % 64 + 0x80 ∧
      f.toNat = c.toNat % 64 + 0x80 := by
  have hv : c.val.toNat = c.toNat := rfl
  have hvalid := valid c
  refine ⟨_, _, _, _, ?_, toNat_ofNat (by omega), toNat_ofNat (by omega), toNat_ofNat (by omega),
    toNat_ofNat (by omega)⟩
  rw [String.utf8EncodeChar, hv, if_neg (by omega), if_neg (by omega), if_neg (by omega),
    Nat.mod_eq_of_lt (by omega)]

/-! ### The first return -/

/-- A continuation byte. -/
def Tail (b : UInt8) : Prop := 0x80 ≤ b.toNat ∧ b.toNat ≤ 0xbf

theorem step_of_follow {s next : Stage} {lo hi : ℕ} (hs : s.follow = some (lo, hi, next))
    (b : UInt8) : dfa.step s b = if lo ≤ b.toNat ∧ b.toNat ≤ hi then next else .reject := by
  show s.step b = _
  unfold Stage.step
  rw [hs]

theorem not_firstReturn_reject (w : List UInt8) : ¬ dfa.FirstReturn .reject w := by
  intro h
  have hstart : (Stage.reject : Stage) = .accept := by
    rw [← DFA.evalFrom_trap (M := dfa) (r := .reject) (fun _ => rfl) w]
    exact h.evalFrom
  exact absurd hstart (by decide)

theorem firstReturn_last {w : List UInt8} : dfa.FirstReturn .last w ↔ ∃ b, w = [b] ∧ Tail b := by
  have hstep := step_of_follow (s := .last) rfl
  constructor
  · intro h
    cases h with
    | @last _ b hb =>
      refine ⟨b, rfl, ?_⟩
      by_contra hout
      rw [hstep, if_neg (show ¬ (0x80 ≤ b.toNat ∧ b.toNat ≤ 0xbf) from hout)] at hb
      exact absurd hb (by decide)
    | @more _ b w hb hw =>
      by_cases hin : 0x80 ≤ b.toNat ∧ b.toNat ≤ 0xbf
      · rw [hstep, if_pos hin] at hb
        exact absurd rfl hb
      · rw [hstep, if_neg hin] at hw
        exact absurd hw (not_firstReturn_reject w)
  · rintro ⟨b, rfl, hb⟩
    exact .last ((hstep b).trans (if_pos hb))

/-- In a stage with bytes that go on, one of them comes first. -/
theorem firstReturn_follow {s next : Stage} {lo hi : ℕ} (hs : s.follow = some (lo, hi, next))
    (hnext : next ≠ .accept) {w : List UInt8} :
    dfa.FirstReturn s w ↔
      ∃ b w', w = b :: w' ∧ (lo ≤ b.toNat ∧ b.toNat ≤ hi) ∧ dfa.FirstReturn next w' := by
  have hstep := step_of_follow hs
  constructor
  · intro h
    cases h with
    | @last _ b hb =>
      rw [hstep] at hb
      split_ifs at hb
      · exact absurd hb hnext
      · exact absurd hb (by decide)
    | @more _ b w _ hw =>
      rw [hstep] at hw
      split_ifs at hw with hin
      · exact ⟨b, w, rfl, hin, hw⟩
      · exact absurd hw (not_firstReturn_reject w)
  · rintro ⟨b, w', rfl, hin, hw⟩
    have hb : dfa.step s b = next := (hstep b).trans (if_pos hin)
    exact .more (by rw [hb]; exact hnext) (by rwa [hb])

/-- Two bytes behind one in a range. -/
theorem firstReturn_follow_last {s : Stage} {lo hi : ℕ} (hs : s.follow = some (lo, hi, .last))
    {w : List UInt8} :
    dfa.FirstReturn s w ↔ ∃ b d, w = [b, d] ∧ (lo ≤ b.toNat ∧ b.toNat ≤ hi) ∧ Tail d := by
  rw [firstReturn_follow hs (by decide)]
  constructor
  · rintro ⟨b, w', rfl, hb, hw⟩
    obtain ⟨d, rfl, hd⟩ := firstReturn_last.1 hw
    exact ⟨b, d, rfl, hb, hd⟩
  · rintro ⟨b, d, rfl, hb, hd⟩
    exact ⟨b, [d], rfl, hb, firstReturn_last.2 ⟨d, rfl, hd⟩⟩

theorem firstReturn_follow_two {s : Stage} {lo hi : ℕ} (hs : s.follow = some (lo, hi, .two))
    {w : List UInt8} :
    dfa.FirstReturn s w ↔
      ∃ b d e, w = [b, d, e] ∧ (lo ≤ b.toNat ∧ b.toNat ≤ hi) ∧ Tail d ∧ Tail e := by
  rw [firstReturn_follow hs (by decide)]
  constructor
  · rintro ⟨b, w', rfl, hb, hw⟩
    obtain ⟨d, e, rfl, hd, he⟩ := (firstReturn_follow_last rfl).1 hw
    exact ⟨b, d, e, rfl, hb, hd, he⟩
  · rintro ⟨b, d, e, rfl, hb, hd, he⟩
    exact ⟨b, [d, e], rfl, hb, (firstReturn_follow_last rfl).2 ⟨d, e, rfl, hd, he⟩⟩

/-- The forms of a character: its first byte and the bytes behind it. -/
inductive WellFormed : List UInt8 → Prop
  | one {b : UInt8} (hb : b.toNat < 0x80) : WellFormed [b]
  | two {b d : UInt8} (hb : 0xc2 ≤ b.toNat ∧ b.toNat < 0xe0) (hd : Tail d) : WellFormed [b, d]
  | three {b d e : UInt8} (hb : 0xe0 ≤ b.toNat ∧ b.toNat < 0xf0) (hd : Tail d) (he : Tail e)
      (hshort : b.toNat = 0xe0 → 0xa0 ≤ d.toNat) (hsurrogate : b.toNat = 0xed → d.toNat ≤ 0x9f) :
      WellFormed [b, d, e]
  | four {b d e f : UInt8} (hb : 0xf0 ≤ b.toNat ∧ b.toNat < 0xf5) (hd : Tail d) (he : Tail e)
      (hf : Tail f) (hshort : b.toNat = 0xf0 → 0x90 ≤ d.toNat)
      (hlarge : b.toNat = 0xf4 → d.toNat ≤ 0x8f) : WellFormed [b, d, e, f]

theorem step_accept (b : UInt8) : dfa.step .accept b = Stage.lead b.toNat := rfl

/-- A character with more than one byte starts with a byte that leads to a stage in it. -/
theorem firstReturn_of_lead {b : UInt8} {w : List UInt8} {s : Stage}
    (hlead : Stage.lead b.toNat = s) (hs : s ≠ .accept) (hw : dfa.FirstReturn s w) :
    dfa.FirstReturn .accept (b :: w) := by
  have hb : dfa.step .accept b = s := hlead
  exact .more (by rw [hb]; exact hs) (by rwa [hb])

theorem wellFormed_of_firstReturn {w : List UInt8} (h : dfa.FirstReturn .accept w) :
    WellFormed w := by
  cases h with
  | @last _ b hb =>
    rw [step_accept, Stage.lead] at hb
    refine .one ?_
    by_contra hout
    rw [if_neg hout] at hb
    split_ifs at hb <;> exact absurd hb (by decide)
  | @more _ b w hb hw =>
    rw [step_accept] at hb hw
    unfold Stage.lead at hb hw
    split_ifs at hb hw with h80 hc2 he0 heqE0 heqEd hf0 heqF0 hf4 heqF4
    · exact absurd rfl hb
    · exact absurd hw (not_firstReturn_reject w)
    · obtain ⟨d, rfl, hd⟩ := firstReturn_last.1 hw
      exact .two ⟨by omega, he0⟩ hd
    · obtain ⟨d, e, rfl, hd, he⟩ := (firstReturn_follow_last rfl).1 hw
      exact .three (by omega) ⟨by omega, hd.2⟩ he (fun _ => hd.1) (by omega)
    · obtain ⟨d, e, rfl, hd, he⟩ := (firstReturn_follow_last rfl).1 hw
      exact .three (by omega) ⟨hd.1, by omega⟩ he (by omega) (fun _ => hd.2)
    · obtain ⟨d, e, rfl, hd, he⟩ := (firstReturn_follow_last rfl).1 hw
      exact .three (by omega) hd he (by omega) (by omega)
    · obtain ⟨d, e, f, rfl, hd, he, hf⟩ := (firstReturn_follow_two rfl).1 hw
      exact .four (by omega) ⟨by omega, hd.2⟩ he hf (fun _ => hd.1) (by omega)
    · obtain ⟨d, e, f, rfl, hd, he, hf⟩ := (firstReturn_follow_two rfl).1 hw
      exact .four (by omega) hd he hf (by omega) (by omega)
    · obtain ⟨d, e, f, rfl, hd, he, hf⟩ := (firstReturn_follow_two rfl).1 hw
      exact .four (by omega) ⟨hd.1, by omega⟩ he hf (by omega) (fun _ => hd.2)
    · exact absurd hw (not_firstReturn_reject w)

theorem WellFormed.firstReturn {w : List UInt8} (h : WellFormed w) :
    dfa.FirstReturn .accept w := by
  cases h with
  | one hb => exact .last (by rw [step_accept]; exact if_pos hb)
  | @two b d hb hd =>
    refine firstReturn_of_lead (s := .last) ?_ (by decide) (firstReturn_last.2 ⟨d, rfl, hd⟩)
    rw [Stage.lead, if_neg (by omega), if_neg (by omega), if_pos hb.2]
  | @three b d e hb hd he hshort hsurrogate =>
    by_cases hE0 : b.toNat = 0xe0
    · refine firstReturn_of_lead (s := .afterE0) ?_ (by decide)
        ((firstReturn_follow_last rfl).2 ⟨d, e, rfl, ⟨hshort hE0, hd.2⟩, he⟩)
      rw [hE0]
      rfl
    by_cases hEd : b.toNat = 0xed
    · refine firstReturn_of_lead (s := .afterEd) ?_ (by decide)
        ((firstReturn_follow_last rfl).2 ⟨d, e, rfl, ⟨hd.1, hsurrogate hEd⟩, he⟩)
      rw [hEd]
      rfl
    refine firstReturn_of_lead (s := .two) ?_ (by decide)
      ((firstReturn_follow_last rfl).2 ⟨d, e, rfl, hd, he⟩)
    rw [Stage.lead, if_neg (by omega), if_neg (by omega), if_neg (by omega), if_neg hE0,
      if_neg hEd, if_pos hb.2]
  | @four b d e f hb hd he hf hshort hlarge =>
    by_cases hF0 : b.toNat = 0xf0
    · refine firstReturn_of_lead (s := .afterF0) ?_ (by decide)
        ((firstReturn_follow_two rfl).2 ⟨d, e, f, rfl, ⟨hshort hF0, hd.2⟩, he, hf⟩)
      rw [hF0]
      rfl
    by_cases hF4 : b.toNat = 0xf4
    · refine firstReturn_of_lead (s := .afterF4) ?_ (by decide)
        ((firstReturn_follow_two rfl).2 ⟨d, e, f, rfl, ⟨hd.1, hlarge hF4⟩, he, hf⟩)
      rw [hF4]
      rfl
    refine firstReturn_of_lead (s := .three) ?_ (by decide)
      ((firstReturn_follow_two rfl).2 ⟨d, e, f, rfl, hd, he, hf⟩)
    rw [Stage.lead, if_neg (by omega), if_neg (by omega), if_neg (by omega), if_neg (by omega),
      if_neg (by omega), if_neg (by omega), if_neg hF0, if_pos (by omega)]

/-! ### Characters -/

theorem WellFormed.exists_encode {w : List UInt8} (h : WellFormed w) :
    ∃ c : Char, w = String.utf8EncodeChar c := by
  cases h with
  | @one b hb =>
    obtain ⟨c, hc⟩ := exists_char (v := b.toNat) (by omega)
    obtain ⟨b', henc, hb'⟩ := encode_one (c := c) (by omega)
    refine ⟨c, ?_⟩
    rw [henc, UInt8.toNat_inj.1 (hb'.trans hc)]
  | @two b d hb hd =>
    obtain ⟨hd₁, hd₂⟩ := hd
    obtain ⟨c, hc⟩ := exists_char (v := (b.toNat - 0xc0) * 64 + (d.toNat - 0x80)) (by omega)
    obtain ⟨b', d', henc, hb', hd'⟩ := encode_two (c := c) (by omega) (by omega)
    have hbb : b' = b := UInt8.toNat_inj.1 (by omega)
    have hdd : d' = d := UInt8.toNat_inj.1 (by omega)
    exact ⟨c, by rw [henc, hbb, hdd]⟩
  | @three b d e hb hd he hshort hsurrogate =>
    obtain ⟨hd₁, hd₂⟩ := hd
    obtain ⟨he₁, he₂⟩ := he
    obtain ⟨c, hc⟩ := exists_char
      (v := (b.toNat - 0xe0) * 4096 + (d.toNat - 0x80) * 64 + (e.toNat - 0x80)) (by omega)
    obtain ⟨b', d', e', henc, hb', hd', he'⟩ := encode_three (c := c) (by omega) (by omega)
    have hbb : b' = b := UInt8.toNat_inj.1 (by omega)
    have hdd : d' = d := UInt8.toNat_inj.1 (by omega)
    have hee : e' = e := UInt8.toNat_inj.1 (by omega)
    exact ⟨c, by rw [henc, hbb, hdd, hee]⟩
  | @four b d e f hb hd he hf hshort hlarge =>
    obtain ⟨hd₁, hd₂⟩ := hd
    obtain ⟨he₁, he₂⟩ := he
    obtain ⟨hf₁, hf₂⟩ := hf
    obtain ⟨c, hc⟩ := exists_char (v := (b.toNat - 0xf0) * 262144 + (d.toNat - 0x80) * 4096 +
      (e.toNat - 0x80) * 64 + (f.toNat - 0x80)) (by omega)
    obtain ⟨b', d', e', f', henc, hb', hd', he', hf'⟩ := encode_four (c := c) (by omega)
    have hbb : b' = b := UInt8.toNat_inj.1 (by omega)
    have hdd : d' = d := UInt8.toNat_inj.1 (by omega)
    have hee : e' = e := UInt8.toNat_inj.1 (by omega)
    have hff : f' = f := UInt8.toNat_inj.1 (by omega)
    exact ⟨c, by rw [henc, hbb, hdd, hee, hff]⟩

theorem wellFormed_encode (c : Char) : WellFormed (String.utf8EncodeChar c) := by
  have hvalid := valid c
  by_cases h1 : c.toNat < 0x80
  · obtain ⟨b, henc, hb⟩ := encode_one h1
    rw [henc]
    exact .one (by omega)
  by_cases h2 : c.toNat < 0x800
  · obtain ⟨b, d, henc, hb, hd⟩ := encode_two (by omega) h2
    rw [henc]
    exact .two (by omega) ⟨by omega, by omega⟩
  by_cases h3 : c.toNat < 0x10000
  · obtain ⟨b, d, e, henc, hb, hd, he⟩ := encode_three (by omega) h3
    rw [henc]
    exact .three (by omega) ⟨by omega, by omega⟩ ⟨by omega, by omega⟩ (by omega) (by omega)
  · obtain ⟨b, d, e, f, henc, hb, hd, he, hf⟩ := encode_four (by omega : 0x10000 ≤ c.toNat)
    rw [henc]
    exact .four (by omega) ⟨by omega, by omega⟩ ⟨by omega, by omega⟩ ⟨by omega, by omega⟩
      (by omega) (by omega)

/-- The words between two characters are the encodings. -/
theorem firstReturn_iff (w : List UInt8) :
    dfa.FirstReturn .accept w ↔ ∃ c : Char, w = String.utf8EncodeChar c := by
  constructor
  · intro h
    exact (wellFormed_of_firstReturn h).exists_encode
  · rintro ⟨c, rfl⟩
    exact (wellFormed_encode c).firstReturn

/-! ### Texts -/

/-- The bytes are the encoding of some characters. -/
def IsText (bs : List UInt8) : Prop := ∃ cs : List Char, bs = cs.flatMap String.utf8EncodeChar

theorem mem_accepts_iff (bs : List UInt8) : bs ∈ dfa.accepts ↔ IsText bs := by
  have hstart : dfa.accept = {dfa.start} := rfl
  rw [DFA.accepts_eq_kstar hstart, Language.mem_kstar]
  constructor
  · rintro ⟨ws, rfl, hws⟩
    induction ws with
    | nil => exact ⟨[], rfl⟩
    | cons w ws ih =>
      obtain ⟨hw, htail⟩ := List.forall_mem_cons.1 hws
      obtain ⟨c, rfl⟩ := (firstReturn_iff w).1 hw
      obtain ⟨cs, hcs⟩ := ih htail
      exact ⟨c :: cs, by rw [List.flatten_cons, hcs, List.flatMap_cons]⟩
  · rintro ⟨cs, rfl⟩
    refine ⟨cs.map String.utf8EncodeChar, List.flatMap_def, ?_⟩
    intro w hw
    obtain ⟨c, -, rfl⟩ := List.mem_map.1 hw
    exact (firstReturn_iff _).2 ⟨c, rfl⟩

theorem eval_eq_accept_iff (bs : List UInt8) : dfa.eval bs = .accept ↔ IsText bs :=
  mem_accepts_iff bs

/-- From every stage but the trap some bytes complete the character. -/
theorem exists_completion {s : Stage} (hs : s ≠ .reject) :
    ∃ w, dfa.evalFrom s w ∈ dfa.accept := by
  cases s with
  | accept => exact ⟨[], rfl⟩
  | reject => exact absurd rfl hs
  | last => exact ⟨[0x80], rfl⟩
  | two => exact ⟨[0x80, 0x80], rfl⟩
  | afterE0 => exact ⟨[0xa0, 0x80], rfl⟩
  | afterEd => exact ⟨[0x80, 0x80], rfl⟩
  | afterF0 => exact ⟨[0x90, 0x80, 0x80], rfl⟩
  | three => exact ⟨[0x80, 0x80, 0x80], rfl⟩
  | afterF4 => exact ⟨[0x80, 0x80, 0x80], rfl⟩

theorem eval_eq_reject_iff (bs : List UInt8) :
    dfa.eval bs = .reject ↔ ∀ rest, ¬ IsText (bs ++ rest) := by
  have hreject : Stage.reject ∉ dfa.accept := by
    intro h
    exact absurd (Set.mem_singleton_iff.1 h) (by decide)
  rw [DFA.eval_eq_trap_iff (fun _ => rfl) hreject (fun s hs => exists_completion hs)]
  exact forall_congr' fun rest => not_congr (mem_accepts_iff _)

/-! ### The functions -/

theorem ofNat_code_eq_reject_iff (s : Stage) : UInt32.ofNat s.code = utf8Reject ↔ s = .reject := by
  cases s <;> decide

/-- The loop over `len` bytes that may be read. -/
theorem lenLoop_take {len : ℕ} {bs : List UInt8} (h : len ≤ bs.length) (s : Stage)
    (codep : UInt32) :
    lenLoop len bs (UInt32.ofNat s.code) codep =
      some (UInt32.ofNat (dfa.evalFrom s (bs.take len)).code, codepFrom s codep (bs.take len)) := by
  have hloop := lenLoop_eq (bs.take len) (bs.drop len) s codep
  rwa [List.take_append_drop, List.length_take, Nat.min_eq_left h] at hloop

theorem isUtf8Len_eq {len : ℕ} {bs : List UInt8} (h : len ≤ bs.length) (codepoint : UInt32) :
    isUtf8Len codepoint bs len =
      some (UInt32.ofNat (dfa.eval (bs.take len)).code == utf8Accept) := by
  have hloop := lenLoop_take h .accept codepoint
  unfold isUtf8Len
  exact congrArg (Option.map fun x : UInt32 × UInt32 => x.1 == utf8Accept) hloop

theorem isUtf8_eq {bs : List UInt8} (h : 0 ∈ bs) (codepoint : UInt32) :
    isUtf8 codepoint bs =
      some (UInt32.ofNat (dfa.eval (bs.takeWhile (· ≠ 0))).code == utf8Accept) := by
  obtain ⟨text, rest, rfl, hzero⟩ := List.eq_append_cons_of_mem h
  have htake : (text ++ 0 :: rest).takeWhile (· ≠ 0) = text := by
    rw [List.takeWhile_append_of_pos]
    · simp
    · intro b hb
      simpa using ne_of_mem_of_not_mem hb hzero
  have hloop := isUtf8Loop_eq hzero rest .accept codepoint
  rw [htake]
  unfold isUtf8
  exact congrArg (Option.map (· == utf8Accept)) hloop

theorem code_beq_accept_iff (bs : List UInt8) :
    (UInt32.ofNat (dfa.eval bs).code == utf8Accept) = true ↔ IsText bs := by
  rw [beq_iff_eq, ofNat_code_eq_accept_iff, eval_eq_accept_iff]

/-- `is_utf8_len` and `is_utf8` run over the end of a string only if it is too short or has no zero
byte, and they accept exactly the encodings of characters. -/
theorem text_accepted (codepoint : UInt32) (s : List UInt8) :
    (∀ len, (isUtf8Len codepoint s len = none ↔ s.length < len) ∧
      (isUtf8Len codepoint s len = some true ↔ len ≤ s.length ∧ IsText (s.take len))) ∧
    (isUtf8 codepoint s = none ↔ 0 ∉ s) ∧
      (isUtf8 codepoint s = some true ↔ 0 ∈ s ∧ IsText (s.takeWhile (· ≠ 0))) := by
  refine ⟨fun len => ?_, ?_⟩
  · rcases Nat.lt_or_ge s.length len with hshort | hlen
    · have hnone : isUtf8Len codepoint s len = none :=
        congrArg (Option.map fun x : UInt32 × UInt32 => x.1 == utf8Accept)
          (lenLoop_short hshort .accept codepoint)
      rw [hnone]
      simp [hshort]
    · rw [isUtf8Len_eq hlen, Option.some_inj, code_beq_accept_iff]
      simp [hlen]
  · by_cases hzero : 0 ∈ s
    · rw [isUtf8_eq hzero, Option.some_inj, code_beq_accept_iff]
      simp [hzero]
    · have hnone : isUtf8 codepoint s = none :=
        congrArg (Option.map (· == utf8Accept)) (isUtf8Loop_unterminated hzero .accept codepoint)
      rw [hnone]
      simp [hzero]

/-! ### A text in parts -/

/-- The state behind calls of `is_utf8_len_state`, each of which is given the state that the one
before it returned. -/
def stateBehind (calls : List (List UInt8 × ℕ)) : Option UInt32 :=
  calls.foldlM (fun state call => isUtf8LenState call.1 call.2 state) utf8Accept

/-- The bytes that the calls read. -/
def textOf (calls : List (List UInt8 × ℕ)) : List UInt8 :=
  calls.flatMap fun call => call.1.take call.2

theorem foldlM_isUtf8LenState {calls : List (List UInt8 × ℕ)}
    (h : ∀ call ∈ calls, call.2 ≤ call.1.length) (s : Stage) :
    calls.foldlM (fun state call => isUtf8LenState call.1 call.2 state) (UInt32.ofNat s.code) =
      some (UInt32.ofNat (dfa.evalFrom s (textOf calls)).code) := by
  induction calls generalizing s with
  | nil => rfl
  | cons call calls ih =>
    obtain ⟨hcall, hcalls⟩ := List.forall_mem_cons.1 h
    have hstate : isUtf8LenState call.1 call.2 (UInt32.ofNat s.code) =
        some (UInt32.ofNat (dfa.evalFrom s (call.1.take call.2)).code) := by
      unfold isUtf8LenState
      rw [lenLoop_take hcall]
      rfl
    rw [List.foldlM_cons, hstate, textOf, List.flatMap_cons, DFA.evalFrom_of_append]
    exact ih hcalls _

/-- A text may be checked in parts, cut anywhere: the state is `UTF8_ACCEPT` exactly if the parts are
a text together, and `UTF8_REJECT` as soon as nothing behind them can make them one. -/
theorem parts_checked (calls : List (List UInt8 × ℕ))
    (h : ∀ call ∈ calls, call.2 ≤ call.1.length) :
    ∃ state, stateBehind calls = some state ∧ state.toNat ≤ 8 ∧
      (state = utf8Accept ↔ IsText (textOf calls)) ∧
      (state = utf8Reject ↔ ∀ rest, ¬ IsText (textOf calls ++ rest)) := by
  refine ⟨_, foldlM_isUtf8LenState h .accept, ?_, ?_, ?_⟩
  · rw [UInt32.toNat_ofNat', Nat.mod_eq_of_lt]
    · exact Stage.code_le _
    · exact lt_of_le_of_lt (Stage.code_le _) (by norm_num)
  · rw [ofNat_code_eq_accept_iff]
    exact eval_eq_accept_iff _
  · rw [ofNat_code_eq_reject_iff]
    exact eval_eq_reject_iff _

theorem parts_checked_sample :
    ∃ state, stateBehind [([0x61, 0xe2], 2), ([0x82, 0xac], 1)] = some state ∧ state.toNat ≤ 8 ∧
      (state = utf8Accept ↔ IsText (textOf [([0x61, 0xe2], 2), ([0x82, 0xac], 1)])) ∧
      (state = utf8Reject ↔
        ∀ rest, ¬ IsText (textOf [([0x61, 0xe2], 2), ([0x82, 0xac], 1)] ++ rest)) :=
  parts_checked _ (by decide)

end Utf8
end NetService
