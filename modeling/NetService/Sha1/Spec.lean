import NetService.Lib.BlockHash
import NetService.Lib.Word

/-!
# SHA-1

The hash of FIPS PUB 180-1, the standard that `sha1.c` names, on messages of whole bytes: the
functions and constants of a round, the schedule of the words of a block, the value after a block,
the padding, and the digest.  Nothing here is taken from `sha1.c`.
-/

namespace NetService
namespace Sha1

/-- The words `H0`, ..., `H4`. -/
abbrev Value := Vector UInt32 5

/-- The word buffers. -/
structure Buffers where
  a : UInt32
  b : UInt32
  c : UInt32
  d : UInt32
  e : UInt32
deriving DecidableEq

/-- The circular left shift. -/
def rotl (n : ℕ) (x : UInt32) : UInt32 := ⟨x.toBitVec.rotateLeft n⟩

/-- The function of round `t`. -/
def f (t : ℕ) (b c d : UInt32) : UInt32 :=
  if t < 20 then (b &&& c) ||| (~~~b &&& d)
  else if t < 40 then b ^^^ c ^^^ d
  else if t < 60 then (b &&& c) ||| (b &&& d) ||| (c &&& d)
  else b ^^^ c ^^^ d

/-- The constant of round `t`. -/
def k (t : ℕ) : UInt32 :=
  if t < 20 then 0x5A827999
  else if t < 40 then 0x6ED9EBA1
  else if t < 60 then 0x8F1BBCDC
  else 0xCA62C1D6

/-- The `t`-th word of a block. -/
def word (bs : List UInt8) (t : ℕ) : UInt32 := UInt32.ofNat (Word.joined (BlockHash.block 4 bs t))

/-- The sequence of words made from the 16 words of a block. -/
def schedule (m : ℕ → UInt32) (t : ℕ) : UInt32 :=
  if t < 16 then m t
  else rotl 1 (schedule m (t - 3) ^^^ schedule m (t - 8) ^^^ schedule m (t - 14) ^^^
    schedule m (t - 16))

/-- Round `t`. -/
def round (w : UInt32) (t : ℕ) (v : Buffers) : Buffers where
  a := rotl 5 v.a + f t v.b v.c v.d + v.e + w + k t
  b := v.a
  c := rotl 30 v.b
  d := v.c
  e := v.d

/-- The word buffers before round `t`. -/
def rounds (m : ℕ → UInt32) (v : Buffers) : ℕ → Buffers
  | 0 => v
  | t + 1 => round (schedule m t) t (rounds m v t)

/-- The word buffers set to the words of a value. -/
def load (h : Value) : Buffers := ⟨h[0], h[1], h[2], h[3], h[4]⟩

/-- The word buffers added to the words of a value. -/
def add (h : Value) (v : Buffers) : Value :=
  #v[h[0] + v.a, h[1] + v.b, h[2] + v.c, h[3] + v.d, h[4] + v.e]

/-- The value after a block. -/
def compress (h : Value) (bs : List UInt8) : Value := add h (rounds (word bs) (load h) 80)

/-- The value before the first block. -/
def start : Value :=
  Vector.ofFn ![0x67452301, 0xEFCDAB89, 0x98BADCFE, 0x10325476, 0xC3D2E1F0]

/-- The number of zero bytes in the padding. -/
def zeros (len : ℕ) : ℕ := (119 - len % 64) % 64

/-- What is put behind a message of `len` bytes. -/
def padding (len : ℕ) : List UInt8 :=
  0x80 :: (List.replicate (zeros len) 0 ++ Word.bigEndian 8 (8 * len))

/-- The bytes of the words. -/
def bytes (h : Value) : List UInt8 := h.toList.flatMap fun w => Word.bigEndian 4 w.toNat

/-- The digest of a message. -/
def sha1 (msg : List UInt8) : List UInt8 :=
  bytes (BlockHash.hash compress 64 start (msg ++ padding msg.length))

/-! ### The length of the digest -/

@[simp] theorem length_bytes (h : Value) : (bytes h).length = 20 := by
  rw [bytes, List.length_flatMap]
  simp

@[simp] theorem length_sha1 (msg : List UInt8) : (sha1 msg).length = 20 := length_bytes _

end Sha1
end NetService
