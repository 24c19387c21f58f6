import NetService.Base64.Encode

/-!
# What `base64_decode` returns

`decodeText` says which texts are decoded and what to, in terms of the characters of the alphabet
only.  The two loops over `dtable` compute it, inside the block, and it takes the text of
`base64_encode` back to the bytes.
-/

namespace NetService
namespace Base64

/-- The value of a character; `'='` counts as zero. -/
def value (c : UInt8) : Option ℕ := if c = equals then some 0 else base64Table.toList.idxOf? c

/-- The value where there is one. -/
def val (c : UInt8) : ℕ := (value c).getD 0

/-- The characters that are not skipped. -/
def significant (src : List UInt8) : List UInt8 := src.filter fun c => (value c).isSome

/-- The bytes of four digits. -/
def triple (a b c d : UInt8) : List UInt8 :=
  Word.bigEndian 3 (val a * 64 ^ 3 + val b * 64 ^ 2 + val c * 64 + val d)

/-- Groups of four characters, up to the first one with a `'='`. -/
def groups : List UInt8 → Option (List UInt8)
  | a :: b :: c :: d :: rest =>
      let pad := [a, b, c, d].count equals
      if pad = 0 then (groups rest).map fun bytes => triple a b c d ++ bytes
      else if pad ≤ 2 then some ((triple a b c d).take (3 - pad))
      else none
  | _ => some []

/-- The bytes a text stands for. -/
def decodeText (src : List UInt8) : Option (List UInt8) :=
  let text := significant src
  if text = [] ∨ text.length % 4 ≠ 0 then none else groups text

/-! ### Characters and digits -/

theorem getElem?_base64Table {d : ℕ} (h : d < 64) :
    base64Table.toList[d]? = some (symbol d) := by
  rw [Vector.getElem?_toList, Vector.getElem?_eq_getElem h, symbol, getElem!_pos base64Table d h]

theorem symbol_inj {d e : ℕ} (hd : d < 64) (he : e < 64) (h : symbol d = symbol e) : d = e := by
  have hnodup : base64Table.toList.Nodup := by decide +kernel
  have hlength : d < base64Table.toList.length := by rwa [Vector.length_toList]
  apply (List.getElem?_inj hlength hnodup).1
  rw [getElem?_base64Table hd, getElem?_base64Table he, h]

theorem symbol_ne_equals {d : ℕ} (h : d < 64) : symbol d ≠ equals := by
  have hall : ∀ d < 64, symbol d ≠ equals := by decide +kernel
  exact hall d h

/-- The value of a character of the alphabet is its place there. -/
theorem value_eq_some_iff {c : UInt8} (hc : c ≠ equals) {d : ℕ} :
    value c = some d ↔ d < 64 ∧ symbol d = c := by
  rw [value, if_neg hc, List.idxOf?_eq_some_iff]
  constructor
  · rintro ⟨hlength, hget, -⟩
    rw [Vector.length_toList] at hlength
    have hsymbol := getElem?_base64Table hlength
    rw [List.getElem?_eq_getElem (by rwa [Vector.length_toList]), hget, Option.some_inj] at hsymbol
    exact ⟨hlength, hsymbol.symm⟩
  · rintro ⟨hlt, hsymbol⟩
    have hget : ∀ e < 64, ∀ he : e < base64Table.toList.length,
        base64Table.toList[e] = symbol e := by
      intro e hlt he
      have hsome := getElem?_base64Table hlt
      rwa [List.getElem?_eq_getElem he, Option.some_inj] at hsome
    have hlength : d < base64Table.toList.length := by rwa [Vector.length_toList]
    refine ⟨hlength, (hget d hlt hlength).trans hsymbol, ?_⟩
    intro e hed heq
    rw [hget e (hed.trans hlt) (hed.trans hlength), ← hsymbol] at heq
    exact absurd (symbol_inj (hed.trans hlt) hlt heq) hed.ne

theorem value_symbol {d : ℕ} (h : d < 64) : value (symbol d) = some d :=
  (value_eq_some_iff (symbol_ne_equals h)).2 ⟨h, rfl⟩

theorem val_lt (c : UInt8) : val c < 64 := by
  unfold val
  by_cases hc : c = equals
  · rw [value, if_pos hc]
    decide
  cases hv : value c with
  | none => decide
  | some d => exact ((value_eq_some_iff hc).1 hv).1

/-! ### `dtable` -/

theorem getElem?_dtable (c : UInt8) : dtable.toList[c.toNat]? = some (dtableAt c) := by
  rw [Vector.getElem?_toList, Vector.getElem?_eq_getElem c.toNat_lt]
  rfl

theorem dtableAt_symbol {d : ℕ} (h : d < 64) : dtableAt (symbol d) = UInt8.ofNat d := by
  have hall : (base64Table.toList.map fun c => dtable.toList[c.toNat]?) =
      (List.range 64).map fun d => some (UInt8.ofNat d) := by
    decide +kernel
  have hd := congrArg (fun l => l[d]?) hall
  simp only [List.getElem?_map, getElem?_base64Table h, List.getElem?_range h, Option.map_some,
    getElem?_dtable, Option.some_inj] at hd
  exact hd

/-- What is not skipped is in the alphabet, or is `'='`. -/
theorem dtableAt_cases (c : UInt8) :
    dtableAt c = 0x80 ∨ c = equals ∨ ∃ d < 64, symbol d = c := by
  have hall : (dtable.toList.zipIdx.all fun x => x.1 = 0x80 ∨ x.2 = equals.toNat ∨
      base64Table.toList[x.1.toNat]? = some (UInt8.ofNat x.2)) = true := by
    decide +kernel
  have hc := of_decide_eq_true (List.all_eq_true.1 hall (dtableAt c, c.toNat)
    (List.mem_zipIdx_iff_getElem?.2 (getElem?_dtable c)))
  rcases hc with hskip | hequals | hsymbol
  · exact .inl hskip
  · exact .inr (.inl (UInt8.toNat_inj.1 hequals))
  · have hlt : (dtableAt c).toNat < 64 := by
      by_contra hout
      rw [List.getElem?_eq_none (by rwa [Vector.length_toList, ← Nat.not_lt])] at hsymbol
      exact absurd hsymbol nofun
    rw [getElem?_base64Table hlt, UInt8.ofNat_toNat, Option.some_inj] at hsymbol
    exact .inr (.inr ⟨_, hlt, hsymbol⟩)

theorem dtableAt_eq (c : UInt8) :
    dtableAt c = if (value c).isSome then UInt8.ofNat (val c) else 0x80 := by
  by_cases hc : c = equals
  · rw [hc]
    decide +kernel
  rcases dtableAt_cases c with hskip | hequals | ⟨d, hd, rfl⟩
  · cases hv : value c with
    | none => rw [hskip]; rfl
    | some d =>
      -- the table has the value of every character of the alphabet
      obtain ⟨hd, rfl⟩ := (value_eq_some_iff hc).1 hv
      rw [val, hv]
      exact dtableAt_symbol hd
  · exact absurd hequals hc
  · rw [val, value_symbol hd]
    exact dtableAt_symbol hd

/-- A character is skipped exactly when it is outside the alphabet. -/
theorem dtableAt_eq_skip (c : UInt8) : dtableAt c = 0x80 ↔ (value c).isSome = false := by
  rw [dtableAt_eq]
  cases hv : (value c).isSome with
  | false => simp
  | true =>
    have hlt := val_lt c
    have hne : UInt8.ofNat (val c) ≠ 0x80 := by
      have hskip : (0x80 : UInt8).toNat = 128 := rfl
      rw [Ne, ← UInt8.toNat_inj, UInt8.toNat_ofNat', hskip]
      omega
    simp [hne]

theorem toNat_dtableAt {c : UInt8} (h : (value c).isSome) : (dtableAt c).toNat = val c := by
  have hlt := val_lt c
  rw [dtableAt_eq, if_pos h, UInt8.toNat_ofNat']
  omega

/-! ### Counting -/

theorem countLoop_eq (src : List UInt8) (count : ℕ) :
    countLoop src count = count + (significant src).length := by
  induction src generalizing count with
  | nil => rfl
  | cons c src ih =>
    rw [countLoop, ih, significant, significant]
    by_cases hskip : dtableAt c = 0x80
    · rw [if_neg (not_not.2 hskip), List.filter_cons_of_neg]
      rw [(dtableAt_eq_skip c).1 hskip]
      decide
    · rw [if_pos hskip, List.filter_cons_of_pos, List.length_cons]
      · omega
      · rw [dtableAt_eq_skip, Bool.not_eq_false] at hskip
        exact hskip

/-! ### A group -/

theorem toNat_shiftLeft_or {n : ℕ} (hn : n < 8) {x y : UInt8} (hy : y.toNat < 2 ^ n) :
    (x <<< UInt8.ofNat n ||| y).toNat = x.toNat * 2 ^ n % 2 ^ 8 + y.toNat := by
  have hmod : n % 2 ^ 8 % 8 = n := by omega
  have hdvd : 2 ^ n ∣ x.toNat * 2 ^ n % 2 ^ 8 :=
    (Nat.dvd_mod_iff (Nat.pow_dvd_pow 2 hn.le)).2 (Dvd.intro_left _ rfl)
  rw [UInt8.toNat_or, UInt8.toNat_shiftLeft, UInt8.toNat_ofNat', hmod, Nat.shiftLeft_eq,
    Word.or_eq_add hdvd hy]

theorem triple_length (a b c d : UInt8) : (triple a b c d).length = 3 := Word.length_bigEndian _ _

/-- What the code writes for four characters. -/
theorem triple_eq {a b c d : UInt8} (ha : (value a).isSome) (hb : (value b).isSome)
    (hc : (value c).isSome) (hd : (value d).isSome) :
    [dtableAt a <<< 2 ||| dtableAt b >>> 4, dtableAt b <<< 4 ||| dtableAt c >>> 2,
      dtableAt c <<< 6 ||| dtableAt d] = triple a b c d := by
  have ha' := toNat_dtableAt ha
  have hb' := toNat_dtableAt hb
  have hc' := toNat_dtableAt hc
  have hd' := toNat_dtableAt hd
  have hla := val_lt a
  have hlb := val_lt b
  have hlc := val_lt c
  have hld := val_lt d
  have hb4 : (dtableAt b >>> 4).toNat = val b / 2 ^ 4 := by
    rw [← hb']
    exact toNat_shiftRight (n := 4) (by decide) _
  have hc2 : (dtableAt c >>> 2).toNat = val c / 2 ^ 2 := by
    rw [← hc']
    exact toNat_shiftRight (n := 2) (by decide) _
  have h₁ := toNat_shiftLeft_or (n := 2) (by decide) (x := dtableAt a) (y := dtableAt b >>> 4) (by omega)
  have h₂ := toNat_shiftLeft_or (n := 4) (by decide) (x := dtableAt b) (y := dtableAt c >>> 2) (by omega)
  have h₃ := toNat_shiftLeft_or (n := 6) (by decide) (x := dtableAt c) (y := dtableAt d) (by omega)
  obtain ⟨n, hn⟩ : ∃ n, n = val a * 64 ^ 3 + val b * 64 ^ 2 + val c * 64 + val d := ⟨_, rfl⟩
  have hbytes : triple a b c d = [UInt8.ofNat (n / 256 ^ 2), UInt8.ofNat (n / 256 ^ 1),
    UInt8.ofNat (n / 256 ^ 0)] := by
    rw [hn]
    rfl
  rw [hbytes]
  refine congrArg₂ List.cons ?_ (congrArg₂ List.cons ?_ (congrArg₂ List.cons ?_ rfl))
  · apply UInt8.toNat_inj.1
    refine h₁.trans ?_
    rw [UInt8.toNat_ofNat']
    omega
  · apply UInt8.toNat_inj.1
    refine h₂.trans ?_
    rw [UInt8.toNat_ofNat']
    omega
  · apply UInt8.toNat_inj.1
    refine h₃.trans ?_
    rw [UInt8.toNat_ofNat']
    omega

/-! ### The loop -/

theorem significant_cons_neg {c : UInt8} {src : List UInt8} (h : (value c).isSome = false) :
    significant (c :: src) = significant src := by
  unfold significant
  rw [List.filter_cons_of_neg]
  rw [h]
  decide

theorem significant_cons_pos {c : UInt8} {src : List UInt8} (h : (value c).isSome = true) :
    significant (c :: src) = c :: significant src := by
  unfold significant
  rw [List.filter_cons_of_pos (by exact h)]

theorem count_append_singleton (pre : List UInt8) (c : UInt8) :
    (pre ++ [c]).count equals = if c = equals then pre.count equals + 1 else pre.count equals := by
  rw [List.count_append, List.count_singleton]
  by_cases h : c = equals
  · simp [h]
  · simp [h]

/-- The characters of a group that is not complete. -/
theorem groups_short {pre : List UInt8} (h : pre.length < 4) : groups pre = some [] := by
  match pre, h with
  | [], _ => rfl
  | [a], _ => rfl
  | [a, b], _ => rfl
  | [a, b, c], _ => rfl

/-- A complete group: the bytes are written, and the loop is left if there is a `'='`. -/
theorem decodeLoop_group {src : List UInt8} {a b c d : UInt8} {pos : BlockWriter UInt8}
    (ha : (value a).isSome) (hb : (value b).isSome) (hc : (value c).isSome) (hd : (value d).isSome)
    (hroom : pos.written.length + 3 ≤ pos.cap) :
    ∃ pos', pos'.cap = pos.cap ∧ pos'.written = pos.written ++ triple a b c d ∧
      decodeLoop (d :: src) ([a, b, c].map dtableAt) ([a, b, c].count equals) pos =
        if [a, b, c, d].count equals = 0 then decodeLoop src [] 0 pos'
        else if [a, b, c, d].count equals ≤ 2 then
          some (some (pos.written ++ (triple a b c d).take (3 - [a, b, c, d].count equals)))
        else some none := by
  have hlen := triple_length a b c d
  obtain ⟨p, hputs, hcap, hwritten⟩ :=
    @BlockWriter.puts_spec _ pos (triple a b c d) (by omega)
  have hpad := count_append_singleton [a, b, c] d
  refine ⟨p, hcap, hwritten, ?_⟩
  have hne : ¬ dtableAt d = 0x80 := by
    rw [dtableAt_eq_skip, hd]
    decide
  have hback : ∀ n, n ≤ 3 → (p.back n).written = pos.written ++ (triple a b c d).take (3 - n) := by
    intro n hn
    have htake : (pos.written ++ triple a b c d).length - n = pos.written.length + (3 - n) := by
      rw [List.length_append, hlen]
      omega
    rw [BlockWriter.written_back, hwritten, htake, List.take_length_add_append]
  rw [decodeLoop]
  simp only [if_neg hne, ← hpad, List.map_cons, List.map_nil, List.cons_append, List.nil_append,
    triple_eq ha hb hc hd, hputs, Option.bind_eq_bind, Option.bind_some]
  generalize [a, b, c, d].count equals = pad
  match pad with
  | 0 => rfl
  | 1 => simp [hback]
  | 2 => simp [hback]
  | n + 3 => simp

/-- The loop, with the characters `pre` of a group in `block`. -/
theorem decodeLoop_spec (src : List UInt8) {pre : List UInt8} {pos : BlockWriter UInt8}
    (hpre : pre.length < 4) (hval : ∀ c ∈ pre, (value c).isSome)
    (hroom : pos.written.length + (pre ++ significant src).length / 4 * 3 ≤ pos.cap) :
    decodeLoop src (pre.map dtableAt) (pre.count equals) pos =
      some ((groups (pre ++ significant src)).map fun bytes => pos.written ++ bytes) := by
  induction src generalizing pre pos with
  | nil =>
    have hnil : pre ++ significant [] = pre := List.append_nil pre
    rw [hnil, groups_short hpre, decodeLoop, Option.map_some, List.append_nil]
  | cons c src ih =>
    by_cases hskip : (value c).isSome = false
    · rw [significant_cons_neg hskip] at hroom ⊢
      rw [decodeLoop, (dtableAt_eq_skip c).2 hskip]
      exact ih hpre hval hroom
    · rw [Bool.not_eq_false] at hskip
      have hne : ¬ dtableAt c = 0x80 := by
        rw [dtableAt_eq_skip, hskip]
        decide
      rw [significant_cons_pos hskip, List.append_cons] at hroom ⊢
      by_cases hfull : pre.length = 3
      · obtain ⟨x, y, z, rfl⟩ := List.length_eq_three.1 hfull
        have hx := hval x (by simp)
        have hy := hval y (by simp)
        have hz := hval z (by simp)
        rw [List.length_append, List.length_append, hfull, List.length_singleton] at hroom
        obtain ⟨p, hcap, hwritten, hgroup⟩ :=
          @decodeLoop_group src x y z c pos hx hy hz hskip (by omega)
        have hroom' : p.written.length + ([] ++ significant src).length / 4 * 3 ≤ p.cap := by
          rw [hwritten, hcap, List.length_append, triple_length, List.nil_append]
          omega
        have hrest := @ih [] p (by simp) (by simp) hroom'
        rw [hgroup]
        simp only [List.cons_append, List.nil_append, groups]
        split_ifs
        · refine hrest.trans ?_
          rw [List.nil_append, hwritten, Option.map_map]
          simp only [List.append_assoc, Function.comp_def]
        · rfl
        · rfl
      · have hstep : decodeLoop (c :: src) (pre.map dtableAt) (pre.count equals) pos =
            decodeLoop src ((pre ++ [c]).map dtableAt) ((pre ++ [c]).count equals) pos := by
          rw [decodeLoop, count_append_singleton]
          simp only [if_neg hne]
          match pre, hpre, hfull with
          | [], _, _ => rfl
          | [x], _, _ => rfl
          | [x, y], _, _ => rfl
          | [x, y, z], _, hfull => exact absurd rfl hfull
        rw [hstep]
        apply ih
        · rw [List.length_append, List.length_singleton]
          omega
        · intro d hd
          rcases List.mem_append.1 hd with hd | hd
          · exact hval d hd
          · rw [List.mem_singleton.1 hd]
            exact hskip
        · exact hroom

/-- Both loops: the text is decoded or refused as `decodeText` says, inside the block. -/
theorem base64Decode_eq (src : List UInt8) : base64Decode src = some (decodeText src) := by
  have hcount : countLoop src 0 = (significant src).length := by rw [countLoop_eq, Nat.zero_add]
  have hzero : (significant src).length = 0 ↔ significant src = [] := List.length_eq_zero_iff
  unfold base64Decode decodeText
  simp only [hcount, hzero]
  split_ifs
  · rfl
  · have hloop := @decodeLoop_spec src [] (.alloc ((significant src).length / 4 * 3))
      (by decide) (by simp) (by simp)
    refine hloop.trans ?_
    simp

/-! ### Decoding what has been encoded -/

theorem val_symbol {d : ℕ} (h : d < 64) : val (symbol d) = d := by
  rw [val, value_symbol h, Option.getD_some]

theorem val_equals : val equals = 0 := rfl

/-- The four digits of a number. -/
theorem triple_quad {n : ℕ} (h : n < 64 ^ 4) :
    triple (symbol (n / 64 ^ 3)) (symbol (n / 64 ^ 2 % 64)) (symbol (n / 64 % 64)) (symbol (n % 64)) =
      Word.bigEndian 3 n := by
  rw [triple, val_symbol (by omega), val_symbol (by omega), val_symbol (by omega), val_symbol (by omega)]
  congr 1
  omega

theorem bigEndian_three (a b c : UInt8) : Word.bigEndian 3 (Word.joined [a, b, c]) = [a, b, c] :=
  Word.bigEndian_joined [a, b, c]

theorem joined_three_lt (a b c : UInt8) : Word.joined [a, b, c] < 64 ^ 4 := by
  have hlt := Word.joined_lt [a, b, c]
  simp only [List.length_cons, List.length_nil] at hlt
  omega

theorem count_quad {n : ℕ} (h : n < 64 ^ 4) : (quad n).count equals = 0 := by
  rw [List.count_eq_zero, quad]
  intro hmem
  simp only [List.mem_cons, List.not_mem_nil, or_false] at hmem
  rcases hmem with hd | hd | hd | hd <;> exact symbol_ne_equals (by omega) hd.symm

/-- The characters of a text are all in the alphabet. -/
theorem isSome_of_mem_quad {n : ℕ} (h : n < 64 ^ 4) {c : UInt8} (hc : c ∈ quad n) :
    (value c).isSome := by
  simp only [quad, List.mem_cons, List.not_mem_nil, or_false] at hc
  rcases hc with rfl | rfl | rfl | rfl <;> rw [value_symbol (by omega)] <;> rfl

theorem isSome_of_mem_chars {src : List UInt8} {c : UInt8} (hc : c ∈ chars src) :
    (value c).isSome := by
  have heq : (value equals).isSome := by decide
  induction src using chars.induct with
  | case1 => cases hc
  | case2 a =>
    rw [chars, List.mem_append] at hc
    rcases hc with hc | hc
    · exact isSome_of_mem_quad (joined_three_lt a 0 0) (List.mem_of_mem_take hc)
    · simp only [List.mem_cons, List.not_mem_nil, or_false, or_self] at hc
      rwa [hc]
  | case3 a b =>
    rw [chars, List.mem_append] at hc
    rcases hc with hc | hc
    · exact isSome_of_mem_quad (joined_three_lt a b 0) (List.mem_of_mem_take hc)
    · rwa [List.mem_singleton.1 hc]
  | case4 a b c' rest ih =>
    rw [chars, List.mem_append] at hc
    rcases hc with hc | hc
    · exact isSome_of_mem_quad (joined_three_lt a b c') hc
    · exact ih hc

/-- The line breaks are skipped. -/
theorem significant_wrap (src : List UInt8) : significant (wrap 72 0 (chars src)) = chars src := by
  have hbreak : (value newline).isSome = false := by decide
  have hnone : newline ∉ chars src := by
    intro hmem
    rw [isSome_of_mem_chars hmem] at hbreak
    cases hbreak
  have hfilter : significant (wrap 72 0 (chars src)) =
      significant ((wrap 72 0 (chars src)).filter (· ≠ newline)) := by
    unfold significant
    rw [List.filter_filter]
    apply List.filter_congr
    intro c _
    by_cases hc : c = newline
    · simp [hc, hbreak]
    · simp [hc]
  rw [hfilter, filter_wrap hnone]
  unfold significant
  rw [List.filter_eq_self]
  intro c hc
  exact isSome_of_mem_chars hc

theorem groups_quad (n : ℕ) (h : n < 64 ^ 4) (rest : List UInt8) :
    groups (quad n ++ rest) = (groups rest).map fun bytes => Word.bigEndian 3 n ++ bytes := by
  have hcount := count_quad h
  have htriple := triple_quad h
  rw [quad] at hcount ⊢
  simp only [List.cons_append, List.nil_append, groups, hcount, if_true, htriple]

/-- Two characters and two times `'='`: the last two bytes are left out. -/
theorem groups_chars_one (a : UInt8) : groups (chars [a]) = some [a] := by
  have hlt := joined_three_lt a 0 0
  have hbytes := bigEndian_three a 0 0
  have hlow : Word.joined [a, 0, 0] % 64 ^ 2 = 0 := by
    have hzero : (0 : UInt8).toNat = 0 := rfl
    rw [joined_three, hzero]
    omega
  generalize hn : Word.joined [a, 0, 0] = n at *
  have hchars : chars [a] = [symbol (n / 64 ^ 3), symbol (n / 64 ^ 2 % 64), equals, equals] := by
    rw [chars, hn]
    rfl
  have hcount : [symbol (n / 64 ^ 3), symbol (n / 64 ^ 2 % 64), equals, equals].count equals = 2 := by
    rw [List.count_cons_of_ne (symbol_ne_equals (by omega)),
      List.count_cons_of_ne (symbol_ne_equals (by omega))]
    rfl
  have htriple : triple (symbol (n / 64 ^ 3)) (symbol (n / 64 ^ 2 % 64)) equals equals = [a, 0, 0] := by
    rw [triple, val_symbol (by omega), val_symbol (by omega), val_equals, ← hbytes]
    congr 1
    omega
  rw [hchars]
  simp only [groups, hcount, htriple]
  rfl

/-- Three characters and one `'='`: the last byte is left out. -/
theorem groups_chars_two (a b : UInt8) : groups (chars [a, b]) = some [a, b] := by
  have hlt := joined_three_lt a b 0
  have hbytes := bigEndian_three a b 0
  have hlow : Word.joined [a, b, 0] % 64 = 0 := by
    have hzero : (0 : UInt8).toNat = 0 := rfl
    rw [joined_three, hzero]
    omega
  generalize hn : Word.joined [a, b, 0] = n at *
  have hchars : chars [a, b] =
      [symbol (n / 64 ^ 3), symbol (n / 64 ^ 2 % 64), symbol (n / 64 % 64), equals] := by
    rw [chars, hn]
    rfl
  have hcount : [symbol (n / 64 ^ 3), symbol (n / 64 ^ 2 % 64), symbol (n / 64 % 64), equals].count
      equals = 1 := by
    rw [List.count_cons_of_ne (symbol_ne_equals (by omega)),
      List.count_cons_of_ne (symbol_ne_equals (by omega)),
      List.count_cons_of_ne (symbol_ne_equals (by omega))]
    rfl
  have htriple : triple (symbol (n / 64 ^ 3)) (symbol (n / 64 ^ 2 % 64)) (symbol (n / 64 % 64)) equals =
      [a, b, 0] := by
    rw [triple, val_symbol (by omega), val_symbol (by omega), val_symbol (by omega), val_equals,
      ← hbytes]
    congr 1
    omega
  rw [hchars]
  simp only [groups, hcount, htriple]
  rfl

/-- The groups of an encoding. -/
theorem groups_chars (src : List UInt8) : groups (chars src) = some src := by
  induction src using chars.induct with
  | case1 => rfl
  | case2 a => exact groups_chars_one a
  | case3 a b => exact groups_chars_two a b
  | case4 a b c rest ih =>
    rw [chars, groups_quad _ (joined_three_lt a b c), ih, bigEndian_three]
    rfl

theorem decodeText_wrap {src : List UInt8} (h : src ≠ []) :
    decodeText (wrap 72 0 (chars src)) = some src := by
  have hlen := length_chars src
  have hpos := List.length_pos_iff.2 h
  have hne : ¬ (chars src = [] ∨ (chars src).length % 4 ≠ 0) := by
    rw [← List.length_eq_zero_iff]
    omega
  rw [decodeText, significant_wrap]
  simp only [if_neg hne, groups_chars]

/-- Encoding and decoding, inside the blocks of both: what comes back is the input, or the null
pointer if that was empty. -/
theorem base64Decode_base64Encode {src : List UInt8} (h : src.length < 2 ^ 62) :
    ∃ text, base64Encode src = some (some text) ∧
      base64Decode text = some (if src = [] then none else some src) := by
  refine ⟨wrap 72 0 (chars src), ?_, ?_⟩
  · rw [base64Encode_spec (by omega), if_pos h]
  · rw [base64Decode_eq]
    split_ifs with hempty
    · subst hempty
      rfl
    · rw [decodeText_wrap hempty]

theorem base64Decode_base64Encode_four :
    ∃ text, base64Encode [1, 2, 3, 255] = some (some text) ∧
      base64Decode text = some (some [1, 2, 3, 255]) :=
  @base64Decode_base64Encode [1, 2, 3, 255] (by decide)

/-! ### What is refused -/

/-- The number of `'='` in the `k`-th group of four characters. -/
def padAt (text : List UInt8) (k : ℕ) : ℕ := ((text.drop (4 * k)).take 4).count equals

theorem padAt_cons (a b c d : UInt8) (rest : List UInt8) (k : ℕ) :
    padAt (a :: b :: c :: d :: rest) (k + 1) = padAt rest k := by
  have hdrop : (a :: b :: c :: d :: rest).drop (4 * (k + 1)) = rest.drop (4 * k) := by
    rw [Nat.mul_succ]
    rfl
  rw [padAt, hdrop, padAt]

/-- The first group that has a `'='` decides. -/
theorem refused_cons {a b c d : UInt8} {rest : List UInt8} :
    (∃ m < (a :: b :: c :: d :: rest).length / 4, 2 < padAt (a :: b :: c :: d :: rest) m ∧
      ∀ k < m, padAt (a :: b :: c :: d :: rest) k = 0) ↔
    2 < [a, b, c, d].count equals ∨ [a, b, c, d].count equals = 0 ∧
      ∃ m < rest.length / 4, 2 < padAt rest m ∧ ∀ k < m, padAt rest k = 0 := by
  have hfirst : padAt (a :: b :: c :: d :: rest) 0 = [a, b, c, d].count equals := rfl
  have hlen : (a :: b :: c :: d :: rest).length / 4 = rest.length / 4 + 1 := by
    simp only [List.length_cons]
    omega
  rw [hlen]
  constructor
  · rintro ⟨m, hm, hbad, hbefore⟩
    cases m with
    | zero => exact .inl (hfirst ▸ hbad)
    | succ m =>
      rw [padAt_cons] at hbad
      refine .inr ⟨hfirst ▸ hbefore 0 (by omega), m, by omega, hbad, fun k hk => ?_⟩
      rw [← padAt_cons a b c d]
      exact hbefore (k + 1) (by omega)
  · rintro (hbad | ⟨hzero, m, hm, hbad, hbefore⟩)
    · exact ⟨0, by omega, hfirst ▸ hbad, fun k hk => absurd hk (Nat.not_lt_zero k)⟩
    · refine ⟨m + 1, by omega, by rwa [padAt_cons], fun k hk => ?_⟩
      cases k with
      | zero => rw [hfirst, hzero]
      | succ k =>
        rw [padAt_cons]
        exact hbefore k (by omega)

/-- Groups are refused for the first one that has a `'='`, when it has more than two. -/
theorem groups_eq_none_iff (text : List UInt8) :
    groups text = none ↔
      ∃ m < text.length / 4, 2 < padAt text m ∧ ∀ k < m, padAt text k = 0 := by
  induction text using groups.induct with
  | case1 a b c d rest pad hpad ih =>
    have hzero : [a, b, c, d].count equals = 0 := hpad
    rw [refused_cons]
    simp [groups, hzero, ih]
  | case2 a b c d rest pad hpad hle =>
    have hzero : ¬ [a, b, c, d].count equals = 0 := hpad
    have hle' : [a, b, c, d].count equals ≤ 2 := hle
    rw [refused_cons]
    simp only [groups, if_neg hzero, if_pos hle']
    constructor
    · intro h
      cases h
    · rintro (h | ⟨h, -⟩)
      · omega
      · exact absurd h hzero
  | case3 a b c d rest pad hpad hgt =>
    have hzero : ¬ [a, b, c, d].count equals = 0 := hpad
    have hgt' : ¬ [a, b, c, d].count equals ≤ 2 := hgt
    rw [refused_cons]
    simp only [groups, if_neg hzero, if_neg hgt', true_iff]
    exact .inl (by omega)
  | case4 text hshort =>
    have hlt : text.length < 4 := by
      match text, hshort with
      | [], _ => decide
      | [a], _ => simp
      | [a, b], _ => simp
      | [a, b, c], _ => simp
      | a :: b :: c :: d :: rest, hshort => exact (hshort a b c d rest rfl).elim
    rw [groups_short hlt, Nat.div_eq_of_lt hlt]
    constructor
    · intro h
      cases h
    · rintro ⟨m, hm, -⟩
      exact absurd hm (Nat.not_lt_zero m)

/-- `base64_decode` never writes outside its block.  It returns the null pointer for a text without
characters of the alphabet, with an incomplete group, or in which the first group that has a `'='` has
more than two; all other texts are decoded, whatever stands between the characters. -/
theorem base64Decode_refuses (src : List UInt8) :
    base64Decode src ≠ none ∧
      (base64Decode src = some none ↔
        significant src = [] ∨ (significant src).length % 4 ≠ 0 ∨
          ∃ m < (significant src).length / 4, 2 < padAt (significant src) m ∧
            ∀ k < m, padAt (significant src) k = 0) := by
  rw [base64Decode_eq, decodeText]
  refine ⟨Option.some_ne_none _, ?_⟩
  rw [Option.some.injEq, ← groups_eq_none_iff]
  split_ifs with hbad
  · rcases hbad with hempty | hincomplete
    · exact ⟨fun _ => .inl hempty, fun _ => rfl⟩
    · exact ⟨fun _ => .inr (.inl hincomplete), fun _ => rfl⟩
  · rw [not_or] at hbad
    exact ⟨fun h => .inr (.inr h), fun h => (h.resolve_left hbad.1).resolve_left hbad.2⟩

end Base64
end NetService
