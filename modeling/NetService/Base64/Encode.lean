import NetService.Base64.Model
import NetService.Lib.Word

/-!
# What `base64_encode` returns

`chars` is the encoding without line breaks, three bytes as four digits of the number they stand for,
and `wrap` puts a line break behind every line.  `base64_encode` returns the wrapped text, and the
block it has allocated for it is never too small.
-/

namespace NetService
namespace Base64

/-! ### The encoding -/

/-- The character of a digit. -/
def symbol (d : ℕ) : UInt8 := base64Table[d]!

/-- Four digits, the highest first. -/
def quad (n : ℕ) : List UInt8 :=
  [symbol (n / 64 ^ 3), symbol (n / 64 ^ 2 % 64), symbol (n / 64 % 64), symbol (n % 64)]

/-- The encoding without line breaks. -/
def chars : List UInt8 → List UInt8
  | [] => []
  | [a] => (quad (Word.joined [a, 0, 0])).take 2 ++ [equals, equals]
  | [a, b] => (quad (Word.joined [a, b, 0])).take 3 ++ [equals]
  | a :: b :: c :: rest => quad (Word.joined [a, b, c]) ++ chars rest

/-- A line break behind every line of `n` characters and behind what is left; `col` characters stand
on the line already. -/
def wrap (n : ℕ) : ℕ → List UInt8 → List UInt8
  | col, [] => if col = 0 then [] else [newline]
  | col, c :: cs => if col + 1 = n then c :: newline :: wrap n 0 cs else c :: wrap n (col + 1) cs

/-! ### Lines -/

/-- Characters that fit on the line. -/
theorem wrap_append {n col : ℕ} {q text : List UInt8} (hpos : q ≠ []) (h : col + q.length ≤ n) :
    wrap n col (q ++ text) =
      if col + q.length = n then q ++ newline :: wrap n 0 text
      else q ++ wrap n (col + q.length) text := by
  induction q generalizing col with
  | nil => exact absurd rfl hpos
  | cons c q ih =>
    rw [List.length_cons] at h ⊢
    rw [List.cons_append, wrap]
    by_cases hq : q = []
    · subst hq
      simp
    · have hlen := List.length_pos_iff.2 hq
      have harith : col + 1 + q.length = col + (q.length + 1) := by omega
      rw [if_neg (by omega), ih hq (by omega), harith]
      split_ifs <;> rfl

/-- One line break for every line, the last one may be short. -/
theorem length_wrap {n col : ℕ} (hcol : col < n) (text : List UInt8) :
    (wrap n col text).length = text.length + (col + text.length + n - 1) / n := by
  induction text generalizing col with
  | nil =>
    rw [wrap, List.length_nil]
    split_ifs with hzero
    · rw [hzero, Nat.div_eq_of_lt (by omega)]
      rfl
    · rw [List.length_singleton, Nat.zero_add]
      symm
      apply Nat.div_eq_of_lt_le <;> omega
  | cons c cs ih =>
    rw [wrap]
    split_ifs with hfull
    · have hdiv : (col + (c :: cs).length + n - 1) / n = (0 + cs.length + n - 1) / n + 1 := by
        rw [← Nat.add_div_right _ (by omega)]
        congr 1
        rw [List.length_cons]
        omega
      rw [List.length_cons, List.length_cons, ih (by omega), hdiv, List.length_cons]
      omega
    · rw [List.length_cons, ih (by omega), List.length_cons]
      have harith : col + 1 + cs.length + n - 1 = col + (cs.length + 1) + n - 1 := by omega
      rw [harith]
      omega

/-- Without the line breaks there are the characters. -/
theorem filter_wrap {n col : ℕ} {text : List UInt8} (h : newline ∉ text) :
    (wrap n col text).filter (· ≠ newline) = text := by
  induction text generalizing col with
  | nil =>
    rw [wrap]
    split_ifs <;> rfl
  | cons c cs ih =>
    rw [List.mem_cons, not_or] at h
    rw [wrap]
    split_ifs
    · rw [List.filter_cons_of_pos (by simpa using Ne.symm h.1), List.filter_cons_of_neg (by simp), ih h.2]
    · rw [List.filter_cons_of_pos (by simpa using Ne.symm h.1), ih h.2]

/-! ### Digits -/

theorem length_chars (src : List UInt8) : (chars src).length = 4 * ((src.length + 2) / 3) := by
  induction src using chars.induct with
  | case1 => rfl
  | case2 a => simp [chars, quad]
  | case3 a b => simp [chars, quad]
  | case4 a b c rest ih =>
    rw [chars, List.length_append, ih]
    simp only [quad, List.length_cons, List.length_nil]
    omega

theorem joined_three (a b c : UInt8) :
    Word.joined [a, b, c] = a.toNat * 65536 + b.toNat * 256 + c.toNat := by
  simp only [Word.joined, List.foldl_cons, List.foldl_nil]
  omega

theorem tableAt_eq {i : UInt8} {d : ℕ} (h : i.toNat = d) : tableAt i = symbol d := by
  rw [tableAt, symbol, h]

theorem toNat_shiftRight {n : ℕ} (hn : n < 8) (a : UInt8) :
    (a >>> UInt8.ofNat n).toNat = a.toNat / 2 ^ n := by
  have hmod : n % 2 ^ 8 % 8 = n := by omega
  rw [UInt8.toNat_shiftRight, UInt8.toNat_ofNat', hmod, Nat.shiftRight_eq_div_pow]

/-- The low `k` bits of a byte moved up by `n`. -/
theorem toNat_and_shiftLeft {k n : ℕ} (h : k + n ≤ 8) (hn : n < 8) (a : UInt8) :
    ((a &&& UInt8.ofNat (2 ^ k - 1)) <<< UInt8.ofNat n).toNat = a.toNat % 2 ^ k * 2 ^ n := by
  have hmod : n % 2 ^ 8 % 8 = n := by omega
  have hk : 2 ^ k - 1 < 2 ^ 8 := by
    have hle : 2 ^ k ≤ 2 ^ 8 := Nat.pow_le_pow_right (by decide) (by omega)
    omega
  have hlt : a.toNat % 2 ^ k * 2 ^ n < 2 ^ 8 := by
    calc a.toNat % 2 ^ k * 2 ^ n < 2 ^ k * 2 ^ n :=
          Nat.mul_lt_mul_of_pos_right (Nat.mod_lt _ (by positivity)) (by positivity)
      _ = 2 ^ (k + n) := (pow_add 2 k n).symm
      _ ≤ 2 ^ 8 := Nat.pow_le_pow_right (by decide) h
  rw [UInt8.toNat_shiftLeft, UInt8.toNat_ofNat', hmod, UInt8.toNat_and, UInt8.toNat_ofNat',
    Nat.mod_eq_of_lt hk, Nat.and_two_pow_sub_one_eq_mod, Nat.shiftLeft_eq, Nat.mod_eq_of_lt hlt]

/-- The low bits of one byte above the high bits of the next. -/
theorem toNat_or_shift {k n : ℕ} (h : k + n ≤ 8) (hn : n < 8) (hn0 : 0 < n) (a b : UInt8) :
    ((a &&& UInt8.ofNat (2 ^ k - 1)) <<< UInt8.ofNat n ||| b >>> UInt8.ofNat (8 - n)).toNat =
      a.toNat % 2 ^ k * 2 ^ n + b.toNat / 2 ^ (8 - n) := by
  have hb : b.toNat / 2 ^ (8 - n) < 2 ^ n := by
    rw [Nat.div_lt_iff_lt_mul (by positivity), ← pow_add]
    have hexp : n + (8 - n) = 8 := by omega
    rw [hexp]
    exact b.toNat_lt
  rw [UInt8.toNat_or, toNat_and_shiftLeft h hn, toNat_shiftRight (by omega),
    Word.or_eq_add (Dvd.intro_left _ rfl) hb]

section
variable (a b c : UInt8)

theorem tableAt_first : tableAt (a >>> 2) = symbol (Word.joined [a, b, c] / 64 ^ 3) := by
  have ha : (a >>> 2).toNat = a.toNat / 2 ^ 2 := toNat_shiftRight (n := 2) (by decide) a
  have hb := b.toNat_lt
  have hc := c.toNat_lt
  apply tableAt_eq
  rw [ha, joined_three]
  omega

theorem tableAt_second : tableAt ((a &&& 0x03) <<< 4 ||| b >>> 4) =
    symbol (Word.joined [a, b, c] / 64 ^ 2 % 64) := by
  have hor : ((a &&& 0x03) <<< 4 ||| b >>> 4).toNat = a.toNat % 2 ^ 2 * 2 ^ 4 + b.toNat / 2 ^ 4 :=
    toNat_or_shift (k := 2) (n := 4) (by decide) (by decide) (by decide) a b
  have hb := b.toNat_lt
  have hc := c.toNat_lt
  apply tableAt_eq
  rw [hor, joined_three]
  omega

theorem tableAt_third : tableAt ((b &&& 0x0f) <<< 2 ||| c >>> 6) =
    symbol (Word.joined [a, b, c] / 64 % 64) := by
  have hor : ((b &&& 0x0f) <<< 2 ||| c >>> 6).toNat = b.toNat % 2 ^ 4 * 2 ^ 2 + c.toNat / 2 ^ 6 :=
    toNat_or_shift (k := 4) (n := 2) (by decide) (by decide) (by decide) b c
  have hc := c.toNat_lt
  apply tableAt_eq
  rw [hor, joined_three]
  omega

theorem tableAt_fourth : tableAt (c &&& 0x3f) = symbol (Word.joined [a, b, c] % 64) := by
  have hand : (c &&& 0x3f).toNat = c.toNat % 2 ^ 6 := by
    rw [UInt8.toNat_and]
    exact Nat.and_two_pow_sub_one_eq_mod c.toNat 6
  apply tableAt_eq
  rw [hand, joined_three]
  omega

/-- What the code writes for a group of three bytes. -/
theorem quad_eq : [tableAt (a >>> 2), tableAt ((a &&& 0x03) <<< 4 ||| b >>> 4),
    tableAt ((b &&& 0x0f) <<< 2 ||| c >>> 6), tableAt (c &&& 0x3f)] = quad (Word.joined [a, b, c]) := by
  rw [tableAt_first a b c, tableAt_second a b c, tableAt_third a b c, tableAt_fourth a b c, quad]

/-- What it writes for a byte at the end: the byte below is read as zero. -/
theorem chars_one : [tableAt (a >>> 2), tableAt ((a &&& 0x03) <<< 4), equals, equals] = chars [a] := by
  have hzero : (a &&& 0x03) <<< 4 = (a &&& 0x03) <<< 4 ||| (0 : UInt8) >>> 4 := by
    rw [UInt8.zero_shiftRight, UInt8.or_zero]
  rw [hzero, tableAt_first a 0 0, tableAt_second a 0 0]
  rfl

theorem chars_two : [tableAt (a >>> 2), tableAt ((a &&& 0x03) <<< 4 ||| b >>> 4),
    tableAt ((b &&& 0x0f) <<< 2), equals] = chars [a, b] := by
  have hzero : (b &&& 0x0f) <<< 2 = (b &&& 0x0f) <<< 2 ||| (0 : UInt8) >>> 6 := by
    rw [UInt8.zero_shiftRight, UInt8.or_zero]
  rw [hzero, tableAt_first a b 0, tableAt_second a b 0, tableAt_third a b 0]
  rfl

end

/-! ### The loop and the end -/

theorem wrap_quad {col : ℕ} {q : List UInt8} (hq : q.length = 4) (hcol : col < 72) (h4 : col % 4 = 0)
    (text : List UInt8) : wrap 72 col (q ++ text) =
      if col + 4 ≥ 72 then q ++ newline :: wrap 72 0 text else q ++ wrap 72 (col + 4) text := by
  have hne : q ≠ [] := by
    rintro rfl
    cases hq
  rw [wrap_append hne (by omega), hq]
  by_cases hfull : col + 4 = 72
  · rw [if_pos hfull, if_pos (by omega)]
  · rw [if_neg hfull, if_neg (by omega)]

/-- The loop writes the groups of three; what is left is still to be written. -/
theorem encodeLoop_spec (src : List UInt8) {line_len : ℕ} {pos : BlockWriter UInt8} (hline : line_len < 72)
    (h4 : line_len % 4 = 0)
    (hroom : pos.written.length + (wrap 72 line_len (chars src)).length ≤ pos.cap) :
    ∃ rest line_len' pos', encodeLoop src line_len pos = some (rest, line_len', pos') ∧
      rest.length < 3 ∧ line_len' < 72 ∧ line_len' % 4 = 0 ∧ pos'.cap = pos.cap ∧
      pos'.written ++ wrap 72 line_len' (chars rest) =
        pos.written ++ wrap 72 line_len (chars src) := by
  induction src using chars.induct generalizing line_len pos with
  | case1 => exact ⟨[], line_len, pos, rfl, by decide, hline, h4, rfl, rfl⟩
  | case2 a => exact ⟨[a], line_len, pos, rfl, by simp, hline, h4, rfl, rfl⟩
  | case3 a b => exact ⟨[a, b], line_len, pos, rfl, by simp, hline, h4, rfl, rfl⟩
  | case4 a b c rest ih =>
    have hq : (quad (Word.joined [a, b, c])).length = 4 := rfl
    rw [chars, wrap_quad hq hline h4] at hroom ⊢
    rw [encodeLoop, quad_eq]
    by_cases hfull : line_len + 4 ≥ 72
    · rw [if_pos hfull, List.length_append, List.length_cons] at hroom
      obtain ⟨p, hputs, hcap, hwritten⟩ :=
        @BlockWriter.puts_spec _ pos (quad (Word.joined [a, b, c])) (by omega)
      have hlen := congrArg List.length hwritten
      rw [List.length_append] at hlen
      obtain ⟨p', hput, hcap', hwritten'⟩ := @BlockWriter.put_spec _ p newline (by omega)
      have hlen' := congrArg List.length hwritten'
      rw [List.length_append, List.length_singleton] at hlen'
      obtain ⟨rest', l, p'', hloop, h3, hl, hl4, hcap'', hend⟩ :=
        @ih 0 p' (by decide) (by decide) (by omega)
      refine ⟨rest', l, p'', ?_, h3, hl, hl4, by omega, ?_⟩
      · simp only [hputs, hput, hloop, if_pos hfull, Option.bind_eq_bind, Option.bind_some]
      · rw [hend, hwritten', hwritten, if_pos hfull]
        simp only [List.append_assoc, List.cons_append, List.nil_append]
    · rw [if_neg hfull, List.length_append] at hroom
      obtain ⟨p, hputs, hcap, hwritten⟩ :=
        @BlockWriter.puts_spec _ pos (quad (Word.joined [a, b, c])) (by omega)
      have hlen := congrArg List.length hwritten
      rw [List.length_append] at hlen
      obtain ⟨rest', l, p', hloop, h3, hl, hl4, hcap', hend⟩ :=
        @ih (line_len + 4) p (by omega) (by omega) (by omega)
      refine ⟨rest', l, p', ?_, h3, hl, hl4, by omega, ?_⟩
      · simp only [hputs, hloop, if_neg hfull, Option.bind_eq_bind, Option.bind_some]
      · rw [hend, hwritten, if_neg hfull, List.append_assoc]

/-- A group at the end, with the line break behind it. -/
theorem puts_group {pos : BlockWriter UInt8} {q : List UInt8} {line_len : ℕ} (hq : q.length = 4)
    (hline : line_len < 72) (h4 : line_len % 4 = 0)
    (hroom : pos.written.length + (wrap 72 line_len q).length ≤ pos.cap) :
    ∃ pos', pos.puts q = some pos' ∧ pos'.cap = pos.cap ∧
      pos'.written ++ [newline] = pos.written ++ wrap 72 line_len q := by
  have hwrap : wrap 72 line_len q = q ++ [newline] := by
    have hcons := wrap_quad hq hline h4 []
    rw [List.append_nil] at hcons
    rw [hcons]
    split_ifs
    · rfl
    · rw [wrap, if_neg (by omega)]
  rw [hwrap, List.length_append] at hroom
  obtain ⟨p, hputs, hcap, hwritten⟩ := @BlockWriter.puts_spec _ pos q (by omega)
  exact ⟨p, hputs, hcap, by rw [hwritten, hwrap, List.append_assoc]⟩

theorem encodeTail_spec {rest : List UInt8} {line_len : ℕ} {pos : BlockWriter UInt8} (h3 : rest.length < 3)
    (hline : line_len < 72) (h4 : line_len % 4 = 0)
    (hroom : pos.written.length + (wrap 72 line_len (chars rest)).length ≤ pos.cap) :
    ∃ line_len' pos', encodeTail rest line_len pos = some (line_len', pos') ∧ pos'.cap = pos.cap ∧
      pos'.written ++ (if line_len' ≠ 0 then [newline] else []) =
        pos.written ++ wrap 72 line_len (chars rest) := by
  match rest, h3 with
  | [], _ =>
    refine ⟨line_len, pos, rfl, rfl, ?_⟩
    rw [chars, wrap]
    by_cases hzero : line_len = 0
    · rw [if_neg (not_not.2 hzero), if_pos hzero]
    · rw [if_pos hzero, if_neg hzero]
  | [a], _ =>
    have hq : (chars [a]).length = 4 := by simp [length_chars]
    obtain ⟨p, hputs, hcap, hend⟩ := puts_group hq hline h4 hroom
    refine ⟨line_len + 4, p, ?_, hcap, ?_⟩
    · rw [encodeTail, chars_one, hputs]
      rfl
    · rw [if_pos (by omega), hend]
  | [a, b], _ =>
    have hq : (chars [a, b]).length = 4 := by simp [length_chars]
    obtain ⟨p, hputs, hcap, hend⟩ := puts_group hq hline h4 hroom
    refine ⟨line_len + 4, p, ?_, hcap, ?_⟩
    · rw [encodeTail, chars_two, hputs]
      rfl
    · rw [if_pos (by omega), hend]

theorem encodeEnd_spec {line_len : ℕ} {pos : BlockWriter UInt8} {text : List UInt8}
    (htext : pos.written ++ (if line_len ≠ 0 then [newline] else []) = text)
    (hroom : text.length < pos.cap) : encodeEnd line_len pos = some text := by
  subst htext
  by_cases hzero : line_len = 0
  · rw [if_neg (not_not.2 hzero), List.append_nil] at hroom
    obtain ⟨p, hput, -, -⟩ := BlockWriter.put_spec (w := pos) (b := 0) hroom
    simp [encodeEnd, hzero, hput]
  · rw [if_pos hzero, List.length_append, List.length_singleton] at hroom
    obtain ⟨p, hput, hcap, hp⟩ := BlockWriter.put_spec (w := pos) (b := newline) (by omega)
    have hroom' : p.written.length < p.cap := by
      rw [hp, hcap, List.length_append, List.length_singleton]
      exact hroom
    obtain ⟨p', hput', -, -⟩ := BlockWriter.put_spec (w := p) (b := 0) hroom'
    simp [encodeEnd, hzero, hput, hput', hp]

/-! ### The block -/

/-- Only the first product of the size can overflow. -/
theorem toNat_encodedSize (len : UInt64) {m : ℕ} (hm : len.toNat * 4 % 2 ^ 64 = m) :
    (encodedSize len).toNat = m / 3 + 4 + (m / 3 + 4) / 72 + 1 := by
  have hlt : m < 2 ^ 64 := hm ▸ Nat.mod_lt _ (by decide)
  have h₁ : (m / 3 + 4) % 2 ^ 64 = m / 3 + 4 := Nat.mod_eq_of_lt (by omega)
  have h₂ : (m / 3 + 4 + (m / 3 + 4) / 72) % 2 ^ 64 = m / 3 + 4 + (m / 3 + 4) / 72 :=
    Nat.mod_eq_of_lt (by omega)
  unfold encodedSize
  simp only [UInt64.toNat_add, UInt64.toNat_div, UInt64.toNat_mul, UInt64.reduceToNat, hm, h₁, h₂]
  exact Nat.mod_eq_of_lt (by omega)

/-- When it does, the size comes out too small, and the test of the overflow sees it. -/
theorem encodedSize_lt {len : UInt64} (h : 2 ^ 62 ≤ len.toNat) : encodedSize len < len := by
  have hlt := len.toNat_lt
  rw [UInt64.lt_iff_toNat_lt, toNat_encodedSize len rfl]
  omega

/-- The text with its line breaks and the zero behind it fit into the block. -/
theorem length_text_lt (src : List UInt8) :
    (wrap 72 0 (chars src)).length <
      src.length * 4 / 3 + 4 + (src.length * 4 / 3 + 4) / 72 + 1 := by
  rw [length_wrap (by decide), length_chars]
  omega

/-- Every input is encoded, unless the size of its text does not fit into `size_t`; no write leaves
the block. -/
theorem base64Encode_spec {src : List UInt8} (h : src.length < 2 ^ 64) :
    base64Encode src =
      some (if src.length < 2 ^ 62 then some (wrap 72 0 (chars src)) else none) := by
  have hlen : (UInt64.ofNat src.length).toNat = src.length := by
    rw [UInt64.toNat_ofNat', Nat.mod_eq_of_lt h]
  unfold base64Encode
  by_cases hfit : src.length < 2 ^ 62
  · have hsize := toNat_encodedSize (UInt64.ofNat src.length) (m := src.length * 4) (by omega)
    have htext := length_text_lt src
    have hge : ¬ encodedSize (UInt64.ofNat src.length) < UInt64.ofNat src.length := by
      rw [UInt64.lt_iff_toNat_lt, hsize, hlen]
      omega
    obtain ⟨rest, l, p, hloop, h3, hl, hl4, hcap, hp⟩ := @encodeLoop_spec src 0
      (.alloc (encodedSize (UInt64.ofNat src.length)).toNat) (by decide) rfl
      (by rw [BlockWriter.written_alloc, BlockWriter.cap_alloc, List.length_nil, hsize]; omega)
    rw [BlockWriter.written_alloc, List.nil_append] at hp
    rw [BlockWriter.cap_alloc, hsize] at hcap
    have hplen := congrArg List.length hp
    rw [List.length_append] at hplen
    obtain ⟨l', p', htail, hcap', hp'⟩ := @encodeTail_spec _ _ p h3 hl hl4 (by omega)
    have hend := encodeEnd_spec hp' (by rw [hp]; omega)
    rw [if_neg hge, if_pos hfit]
    simp only [hloop, htail, hend, hp, Option.bind_eq_bind, Option.bind_some]
    rfl
  · have hlt := @encodedSize_lt (UInt64.ofNat src.length) (by omega)
    rw [if_pos hlt, if_neg hfit]

/-- The encoding is the null pointer exactly when the size does not fit into `size_t`; otherwise it is
the characters in lines of 72, and text, line breaks and the `'\0'` fit into the block. -/
theorem base64Encode_text {src : List UInt8} (h : src.length < 2 ^ 64) :
    base64Encode src ≠ none ∧ (base64Encode src = some none ↔ 2 ^ 62 ≤ src.length) ∧
      ∀ text, base64Encode src = some (some text) →
        text = wrap 72 0 (chars src) ∧
        text.length = 4 * ((src.length + 2) / 3) + (4 * ((src.length + 2) / 3) + 71) / 72 ∧
        text.length < (encodedSize (UInt64.ofNat src.length)).toNat := by
  rw [base64Encode_spec h]
  refine ⟨Option.some_ne_none _, ?_, ?_⟩
  · rw [Option.some.injEq]
    split_ifs with hfit
    · constructor
      · intro hnone
        cases hnone
      · intro hge
        omega
    · exact ⟨fun _ => by omega, fun _ => rfl⟩
  · intro text htext
    rw [Option.some.injEq] at htext
    split_ifs at htext with hfit
    cases htext
    have hlen : (UInt64.ofNat src.length).toNat * 4 % 2 ^ 64 = src.length * 4 := by
      rw [UInt64.toNat_ofNat', Nat.mod_eq_of_lt h]
      omega
    refine ⟨rfl, ?_, ?_⟩
    · rw [length_wrap (by decide), length_chars, Nat.zero_add]
      rfl
    · rw [toNat_encodedSize _ hlen]
      exact length_text_lt src

theorem base64Encode_text_three :
    base64Encode [77, 97, 110] ≠ none ∧ (base64Encode [77, 97, 110] = some none ↔ 2 ^ 62 ≤ 3) ∧
      ∀ text, base64Encode [77, 97, 110] = some (some text) →
        text = wrap 72 0 (chars [77, 97, 110]) ∧ text.length = 4 * (5 / 3) + (4 * (5 / 3) + 71) / 72 ∧
        text.length < (encodedSize 3).toNat :=
  @base64Encode_text [77, 97, 110] (by decide)

/-- Two bytes have one `'='`. -/
example : base64Encode [77, 97] = some (some (CString.ascii "TWE=\n")) := by decide +kernel

end Base64
end NetService
