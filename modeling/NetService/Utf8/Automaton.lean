import NetService.Lib.FirstReturn
import NetService.Utf8.Model

/-!
# The automaton in `utf8d`

The values of `*state` are the stages of a character: `Stage.step` says by ranges of bytes which stage
follows, and `decode_eq` that the table does.  The states of `decode` are those of a `DFA` that starts
and accepts between characters and has `UTF8_REJECT` for a trap.
-/

namespace NetService
namespace Utf8

/-- Where a character stands. -/
inductive Stage
  /-- between characters -/
  | accept
  | reject
  /-- one byte is missing -/
  | last
  /-- two bytes are missing -/
  | two
  | afterE0
  | afterEd
  | afterF0
  /-- three bytes are missing -/
  | three
  | afterF4
deriving DecidableEq

namespace Stage

/-- The value of `*state`. -/
def code : Stage → ℕ
  | accept => 0
  | reject => 1
  | last => 2
  | two => 3
  | afterE0 => 4
  | afterEd => 5
  | afterF0 => 6
  | three => 7
  | afterF4 => 8

/-- The stage behind the first byte of a character. -/
def lead (b : ℕ) : Stage :=
  if b < 0x80 then accept
  else if b < 0xc2 then reject
  else if b < 0xe0 then last
  else if b = 0xe0 then afterE0
  else if b = 0xed then afterEd
  else if b < 0xf0 then two
  else if b = 0xf0 then afterF0
  else if b < 0xf4 then three
  else if b = 0xf4 then afterF4
  else reject

/-- The bytes that go on, from the first to the last one, and the stage behind them. -/
def follow : Stage → Option (ℕ × ℕ × Stage)
  | last => some (0x80, 0xbf, accept)
  | two => some (0x80, 0xbf, last)
  | afterE0 => some (0xa0, 0xbf, last)
  | afterEd => some (0x80, 0x9f, last)
  | afterF0 => some (0x90, 0xbf, two)
  | three => some (0x80, 0xbf, two)
  | afterF4 => some (0x80, 0x8f, two)
  | accept => none
  | reject => none

/-- The stage behind the next byte. -/
def step (s : Stage) (b : UInt8) : Stage :=
  match s.follow with
  | some (lo, hi, next) => if lo ≤ b.toNat ∧ b.toNat ≤ hi then next else reject
  | none => if s = accept then lead b.toNat else reject

def all : List Stage :=
  [accept, reject, last, two, afterE0, afterEd, afterF0, three, afterF4]

theorem mem_all (s : Stage) : s ∈ all := by
  cases s <;> decide

theorem code_le (s : Stage) : s.code ≤ 8 := by
  cases s <;> decide

end Stage

/-- The automaton. -/
def dfa : DFA UInt8 Stage where
  step := Stage.step
  start := .accept
  accept := {.accept}

/-! ### The table -/

/-- The class of a byte, and the stages behind it. -/
theorem table_step (b : UInt8) :
    ∃ c < 12, utf8d[b.toNat]? = some c ∧
      ∀ s : Stage, utf8d[256 + s.code * 16 + c]? = some (s.step b).code := by
  have hall : ∀ n < 256, (utf8d[n]?).any (fun c => decide (c < 12 ∧ ∀ s ∈ Stage.all,
      utf8d[256 + s.code * 16 + c]? = some (s.step (UInt8.ofNat n)).code)) = true := by
    decide +kernel
  have hb := hall b.toNat b.toNat_lt
  rw [UInt8.ofNat_toNat, Option.any_eq_true] at hb
  obtain ⟨c, hc, hrow⟩ := hb
  obtain ⟨hlt, hstep⟩ := of_decide_eq_true hrow
  exact ⟨c, hlt, hc, fun s => hstep s s.mem_all⟩

/-! ### `decode` -/

/-- The value of `*codep` behind the first byte of a character. -/
def leadCodep (b : UInt8) : UInt32 :=
  ((0xff : UInt32) >>> UInt32.ofNat (utf8d.getD b.toNat 0)) &&& b.toUInt32

/-- The value of `*codep` behind the next byte. -/
def nextCodep (s : Stage) (codep : UInt32) (b : UInt8) : UInt32 :=
  if s = .accept then leadCodep b else (b.toUInt32 &&& (0x3f : UInt32)) ||| (codep <<< 6)

theorem ofNat_code_eq_accept_iff (s : Stage) : UInt32.ofNat s.code = utf8Accept ↔ s = .accept := by
  cases s <;> decide

/-- `decode` makes one step. -/
theorem decode_eq (s : Stage) (codep : UInt32) (b : UInt8) :
    decode (UInt32.ofNat s.code) codep b =
      some (UInt32.ofNat (s.step b).code, nextCodep s codep b) := by
  obtain ⟨c, hlt, hc, hrow⟩ := table_step b
  have hcode := s.code_le
  have hindex : (256 + UInt32.ofNat s.code * 16 + UInt32.ofNat c).toNat = 256 + s.code * 16 + c := by
    rw [UInt32.toNat_add, UInt32.toNat_add, UInt32.toNat_mul, UInt32.toNat_ofNat',
      UInt32.toNat_ofNat']
    show ((256 + s.code % 2 ^ 32 * 16 % 2 ^ 32) % 2 ^ 32 + c % 2 ^ 32) % 2 ^ 32 = _
    omega
  have hlead : leadCodep b = (0xff >>> UInt32.ofNat c) &&& b.toUInt32 := by
    unfold leadCodep
    rw [List.getD_eq_getElem?_getD, hc, Option.getD_some]
  unfold decode
  simp only [hc, Option.bind_eq_bind, Option.bind_some, hindex, hrow]
  unfold nextCodep
  by_cases hs : s = .accept
  · rw [if_pos hs, if_neg (not_not.2 ((ofNat_code_eq_accept_iff s).2 hs)), hlead]
    rfl
  · rw [if_neg hs, if_pos (fun h => hs ((ofNat_code_eq_accept_iff s).1 h))]
    rfl

/-- The value of `*codep` behind some bytes. -/
def codepFrom : Stage → UInt32 → List UInt8 → UInt32
  | _, codep, [] => codep
  | s, codep, b :: bs => codepFrom (s.step b) (nextCodep s codep b) bs

/-- The loop over the first bytes of a string. -/
theorem lenLoop_eq (bs rest : List UInt8) (s : Stage) (codep : UInt32) :
    lenLoop bs.length (bs ++ rest) (UInt32.ofNat s.code) codep =
      some (UInt32.ofNat (dfa.evalFrom s bs).code, codepFrom s codep bs) := by
  induction bs generalizing s codep with
  | nil => rfl
  | cons b bs ih =>
    show (decode _ codep b).bind _ = _
    rw [decode_eq, Option.bind_some]
    exact ih _ _

/-- The loop runs over the end of a string that is too short. -/
theorem lenLoop_short {len : ℕ} {bs : List UInt8} (h : bs.length < len) (s : Stage)
    (codep : UInt32) : lenLoop len bs (UInt32.ofNat s.code) codep = none := by
  induction bs generalizing len s codep with
  | nil =>
    cases len with
    | zero => exact absurd h (lt_irrefl _)
    | succ len => rfl
  | cons b bs ih =>
    cases len with
    | zero => exact absurd h (Nat.not_lt_zero _)
    | succ len =>
      show (decode _ codep b).bind _ = _
      rw [decode_eq, Option.bind_some]
      exact ih (Nat.lt_of_succ_lt_succ h) _ _

/-- The loop up to the zero byte. -/
theorem isUtf8Loop_eq {bs : List UInt8} (h : 0 ∉ bs) (rest : List UInt8) (s : Stage)
    (codep : UInt32) :
    isUtf8Loop (bs ++ 0 :: rest) (UInt32.ofNat s.code) codep =
      some (UInt32.ofNat (dfa.evalFrom s bs).code) := by
  induction bs generalizing s codep with
  | nil => rfl
  | cons b bs ih =>
    rw [List.mem_cons, not_or] at h
    rw [List.cons_append, isUtf8Loop, if_neg (Ne.symm h.1), decode_eq]
    exact ih h.2 _ _

/-- Without a zero byte it runs over the end. -/
theorem isUtf8Loop_unterminated {bs : List UInt8} (h : 0 ∉ bs) (s : Stage) (codep : UInt32) :
    isUtf8Loop bs (UInt32.ofNat s.code) codep = none := by
  induction bs generalizing s codep with
  | nil => rfl
  | cons b bs ih =>
    rw [List.mem_cons, not_or] at h
    rw [isUtf8Loop, if_neg (Ne.symm h.1), decode_eq]
    exact ih h.2 _ _

end Utf8
end NetService
