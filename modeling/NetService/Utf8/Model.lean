import Mathlib.Tactic

/-!
# `utf8.c`

`utf8d` has the class of every byte in its first 256 entries and behind them a row of 16 for every
state.  `decode` reads it at indices it computes from the byte and the state: a read outside the table
is `none`.  A string is the list of the bytes that may be read.
-/

namespace NetService
namespace Utf8

/-- `UTF8_ACCEPT` -/
def utf8Accept : UInt32 := 0

/-- `UTF8_REJECT` -/
def utf8Reject : UInt32 := 1

/-- `utf8d` -/
def utf8d : List ℕ := [
  0, 0, 0, 0, 0, 0, 0, 0, 0, 0, 0, 0, 0, 0, 0, 0, 0, 0, 0, 0, 0, 0, 0, 0, 0, 0, 0, 0, 0, 0, 0, 0,
  0, 0, 0, 0, 0, 0, 0, 0, 0, 0, 0, 0, 0, 0, 0, 0, 0, 0, 0, 0, 0, 0, 0, 0, 0, 0, 0, 0, 0, 0, 0, 0,
  0, 0, 0, 0, 0, 0, 0, 0, 0, 0, 0, 0, 0, 0, 0, 0, 0, 0, 0, 0, 0, 0, 0, 0, 0, 0, 0, 0, 0, 0, 0, 0,
  0, 0, 0, 0, 0, 0, 0, 0, 0, 0, 0, 0, 0, 0, 0, 0, 0, 0, 0, 0, 0, 0, 0, 0, 0, 0, 0, 0, 0, 0, 0, 0,
  1, 1, 1, 1, 1, 1, 1, 1, 1, 1, 1, 1, 1, 1, 1, 1, 9, 9, 9, 9, 9, 9, 9, 9, 9, 9, 9, 9, 9, 9, 9, 9,
  7, 7, 7, 7, 7, 7, 7, 7, 7, 7, 7, 7, 7, 7, 7, 7, 7, 7, 7, 7, 7, 7, 7, 7, 7, 7, 7, 7, 7, 7, 7, 7,
  8, 8, 2, 2, 2, 2, 2, 2, 2, 2, 2, 2, 2, 2, 2, 2, 2, 2, 2, 2, 2, 2, 2, 2, 2, 2, 2, 2, 2, 2, 2, 2,
  0xa, 0x3, 0x3, 0x3, 0x3, 0x3, 0x3, 0x3, 0x3, 0x3, 0x3, 0x3, 0x3, 0x4, 0x3, 0x3,
  0xb, 0x6, 0x6, 0x6, 0x5, 0x8, 0x8, 0x8, 0x8, 0x8, 0x8, 0x8, 0x8, 0x8, 0x8, 0x8,
  -- the rows of the states 0 to 8
  0x0, 0x1, 0x2, 0x3, 0x5, 0x8, 0x7, 0x1, 0x1, 0x1, 0x4, 0x6, 0x1, 0x1, 0x1, 0x1,
  1, 1, 1, 1, 1, 1, 1, 1, 1, 1, 1, 1, 1, 1, 1, 1, 1, 0, 1, 1, 1, 1, 1, 0, 1, 0, 1, 1, 1, 1, 1, 1,
  1, 2, 1, 1, 1, 1, 1, 2, 1, 2, 1, 1, 1, 1, 1, 1, 1, 1, 1, 1, 1, 1, 1, 2, 1, 1, 1, 1, 1, 1, 1, 1,
  1, 2, 1, 1, 1, 1, 1, 1, 1, 2, 1, 1, 1, 1, 1, 1, 1, 1, 1, 1, 1, 1, 1, 3, 1, 3, 1, 1, 1, 1, 1, 1,
  1, 3, 1, 1, 1, 1, 1, 3, 1, 3, 1, 1, 1, 1, 1, 1, 1, 3, 1, 1, 1, 1, 1, 1, 1, 1, 1, 1, 1, 1, 1, 1]

/-- `decode`: the new values of `*state` and `*codep`. -/
def decode (state codep : UInt32) (byte : UInt8) : Option (UInt32 × UInt32) := do
  let type ← utf8d[byte.toNat]?
  let codep :=
    if state ≠ utf8Accept then (byte.toUInt32 &&& (0x3f : UInt32)) ||| (codep <<< 6)
    else ((0xff : UInt32) >>> UInt32.ofNat type) &&& byte.toUInt32
  let state ← utf8d[(256 + state * 16 + UInt32.ofNat type).toNat]?
  return (UInt32.ofNat state, codep)

/-- The loop of `is_utf8`, up to the zero byte. -/
def isUtf8Loop : List UInt8 → UInt32 → UInt32 → Option UInt32
  | [], _, _ => none
  | b :: s, state, codepoint =>
      if b = 0 then some state
      else do
        let (state, codepoint) ← decode state codepoint b
        isUtf8Loop s state codepoint

/-- `is_utf8`, with the value `codepoint` has before it is set. -/
def isUtf8 (codepoint : UInt32) (s : List UInt8) : Option Bool :=
  (isUtf8Loop s 0 codepoint).map (· == utf8Accept)

/-- The loop of `is_utf8_len` and `is_utf8_len_state`. -/
def lenLoop : ℕ → List UInt8 → UInt32 → UInt32 → Option (UInt32 × UInt32)
  | 0, _, state, codepoint => some (state, codepoint)
  | _ + 1, [], _, _ => none
  | len + 1, b :: s, state, codepoint => do
      let (state, codepoint) ← decode state codepoint b
      lenLoop len s state codepoint

/-- `is_utf8_len` -/
def isUtf8Len (codepoint : UInt32) (s : List UInt8) (len : ℕ) : Option Bool :=
  (lenLoop len s 0 codepoint).map fun x => x.1 == utf8Accept

/-- `is_utf8_len_state` -/
def isUtf8LenState (s : List UInt8) (len : ℕ) (state : UInt32) : Option UInt32 :=
  (lenLoop len s state 0).map Prod.fst

end Utf8
end NetService
