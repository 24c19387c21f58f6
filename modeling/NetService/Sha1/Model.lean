import NetService.Sha1.Spec

/-!
# `sha1.c`

`SHA1Context` and the functions on it.  The context is not null and has been reset before its first
use.  `Message_Block[Message_Block_Index++] = b` is `put`, which is `none` when the index is outside
the block.  The local array `W` is filled from its beginning, and no entry is read before it has been
set; here the entries not yet set are 0.
-/

namespace NetService
namespace Sha1

/-! ### Return codes -/

def shaSuccess : ℕ := 0
/-- a null pointer -/
def shaNull : ℕ := 1
/-- `SHA1Input` after `SHA1Result` -/
def shaStateError : ℕ := 3

/-- `SHA1Context` -/
structure SHA1Context where
  intermediateHash : Value
  /-- the message length in bits, its low and its high word -/
  lengthLow : UInt32
  lengthHigh : UInt32
  messageBlockIndex : ℕ
  messageBlock : Vector UInt8 64
  computed : Bool
  /-- 0 or a return code -/
  corrupted : ℕ
deriving DecidableEq

/-- `SHA1CircularShift` -/
def sha1CircularShift (bits word : UInt32) : UInt32 := (word <<< bits) ||| (word >>> (32 - bits))

/-! ### `SHA1ProcessMessageBlock` -/

/-- The first loop: the words of the block. -/
def loadWords (block : Vector UInt8 64) (W : Vector UInt32 80) : Vector UInt32 80 :=
  Nat.fold 16
    (fun t _ W => W.set t
      (block[t * 4].toUInt32 <<< 24 ||| block[t * 4 + 1].toUInt32 <<< 16 |||
        block[t * 4 + 2].toUInt32 <<< 8 ||| block[t * 4 + 3].toUInt32))
    W

/-- The second loop, with `t = 16 + i`. -/
def extendWords (W : Vector UInt32 80) : Vector UInt32 80 :=
  Nat.fold 64
    (fun i _ W => W.set (16 + i)
      (sha1CircularShift 1
        (W[16 + i - 3] ^^^ W[16 + i - 8] ^^^ W[16 + i - 14] ^^^ W[16 + i - 16])))
    W

/-- What every round does with `temp`. -/
def Buffers.shiftIn (v : Buffers) (temp : UInt32) : Buffers where
  a := temp
  b := v.a
  c := sha1CircularShift 30 v.b
  d := v.c
  e := v.d

/-- The loop from `t = 0` to 19. -/
def mix₀ (W : Vector UInt32 80) (v : Buffers) : Buffers :=
  Nat.fold 20
    (fun i _ v => v.shiftIn (sha1CircularShift 5 v.a + ((v.b &&& v.c) ||| (~~~v.b &&& v.d)) + v.e +
      W[i] + 0x5A827999))
    v

/-- The loop from `t = 20` to 39, with `t = 20 + i`. -/
def mix₁ (W : Vector UInt32 80) (v : Buffers) : Buffers :=
  Nat.fold 20
    (fun i _ v => v.shiftIn (sha1CircularShift 5 v.a + (v.b ^^^ v.c ^^^ v.d) + v.e +
      W[20 + i] + 0x6ED9EBA1))
    v

/-- The loop from `t = 40` to 59. -/
def mix₂ (W : Vector UInt32 80) (v : Buffers) : Buffers :=
  Nat.fold 20
    (fun i _ v => v.shiftIn (sha1CircularShift 5 v.a +
      ((v.b &&& v.c) ||| (v.b &&& v.d) ||| (v.c &&& v.d)) + v.e + W[40 + i] + 0x8F1BBCDC))
    v

/-- The loop from `t = 60` to 79. -/
def mix₃ (W : Vector UInt32 80) (v : Buffers) : Buffers :=
  Nat.fold 20
    (fun i _ v => v.shiftIn (sha1CircularShift 5 v.a + (v.b ^^^ v.c ^^^ v.d) + v.e +
      W[60 + i] + 0xCA62C1D6))
    v

/-- `SHA1ProcessMessageBlock` -/
def sha1ProcessMessageBlock (context : SHA1Context) : SHA1Context :=
  let W := extendWords (loadWords context.messageBlock (Vector.replicate 80 0))
  let v := mix₃ W (mix₂ W (mix₁ W (mix₀ W (load context.intermediateHash))))
  { context with
    intermediateHash := add context.intermediateHash v
    messageBlockIndex := 0 }

/-! ### The block -/

/-- `Message_Block[Message_Block_Index++] = b` -/
def SHA1Context.put (context : SHA1Context) (b : UInt8) : Option SHA1Context :=
  if h : context.messageBlockIndex < 64 then
    some { context with
      messageBlock := context.messageBlock.set context.messageBlockIndex b
      messageBlockIndex := context.messageBlockIndex + 1 }
  else none

/-- `n` passes of a loop that puts zeros. -/
def SHA1Context.putZeros : ℕ → SHA1Context → Option SHA1Context
  | 0, context => some context
  | n + 1, context => (context.put 0).bind (putZeros n)

/-- `while (Message_Block_Index < limit) Message_Block[Message_Block_Index++] = 0` -/
def SHA1Context.zeroUpTo (limit : ℕ) (context : SHA1Context) : Option SHA1Context :=
  putZeros (limit - context.messageBlockIndex) context

/-- The message length stored as the last 8 bytes. -/
def SHA1Context.storeLength (context : SHA1Context) : SHA1Context :=
  { context with
    messageBlock := context.messageBlock
      |>.set 56 (context.lengthHigh >>> 24).toUInt8
      |>.set 57 (context.lengthHigh >>> 16).toUInt8
      |>.set 58 (context.lengthHigh >>> 8).toUInt8
      |>.set 59 context.lengthHigh.toUInt8
      |>.set 60 (context.lengthLow >>> 24).toUInt8
      |>.set 61 (context.lengthLow >>> 16).toUInt8
      |>.set 62 (context.lengthLow >>> 8).toUInt8
      |>.set 63 context.lengthLow.toUInt8 }

/-- `SHA1PadMessage` -/
def sha1PadMessage (context : SHA1Context) : Option SHA1Context := do
  let padded ←
    if context.messageBlockIndex > 55 then do
      let context ← context.put 0x80
      let context ← context.zeroUpTo 64
      (sha1ProcessMessageBlock context).zeroUpTo 56
    else do
      let context ← context.put 0x80
      context.zeroUpTo 56
  return sha1ProcessMessageBlock padded.storeLength

/-! ### The interface -/

/-- `SHA1Reset` -/
def sha1Reset (context : SHA1Context) : SHA1Context :=
  { context with
    lengthLow := 0
    lengthHigh := 0
    messageBlockIndex := 0
    intermediateHash := #v[0x67452301, 0xEFCDAB89, 0x98BADCFE, 0x10325476, 0xC3D2E1F0]
    computed := false
    corrupted := 0 }

/-- The length counters after one more byte. -/
def SHA1Context.countByte (context : SHA1Context) : SHA1Context :=
  let lengthLow := context.lengthLow + 8
  if lengthLow = 0 then
    let lengthHigh := context.lengthHigh + 1
    if lengthHigh = 0 then
      { context with lengthLow := lengthLow, lengthHigh := lengthHigh, corrupted := 1 }
    else { context with lengthLow := lengthLow, lengthHigh := lengthHigh }
  else { context with lengthLow := lengthLow }

/-- One pass of the loop of `SHA1Input`. -/
def SHA1Context.inputByte (context : SHA1Context) (b : UInt8) : Option SHA1Context := do
  let context ← context.put b
  let context := context.countByte
  return if context.messageBlockIndex = 64 then sha1ProcessMessageBlock context else context

/-- The loop of `SHA1Input`; `none` also when it reads behind the end of the array. -/
def inputLoop : ℕ → List UInt8 → SHA1Context → Option SHA1Context
  | 0, _, context => some context
  | length + 1, message_array, context =>
      if context.corrupted ≠ 0 then some context
      else
        match message_array with
        | [] => none
        | b :: message_array => (context.inputByte b).bind (inputLoop length message_array)

/-- `SHA1Input`, with the value it returns; a null pointer is `none`. -/
def sha1Input (context : SHA1Context) (message_array : Option (List UInt8)) (length : UInt32) :
    Option (ℕ × SHA1Context) :=
  if length = 0 then some (shaSuccess, context)
  else
    match message_array with
    | none => some (shaNull, context)
    | some message_array =>
        if context.computed then
          some (shaStateError, { context with corrupted := shaStateError })
        else if context.corrupted ≠ 0 then some (context.corrupted, context)
        else (inputLoop length.toNat message_array context).map fun context => (shaSuccess, context)

/-- The digest that `SHA1Result` copies out. -/
def SHA1Context.digest (context : SHA1Context) : List UInt8 :=
  List.ofFn fun i : Fin 20 =>
    (context.intermediateHash[i.val / 4] >>> (8 * (3 - UInt32.ofNat (i.val % 4)))).toUInt8

/-- `SHA1Result`, with the value it returns and what it writes to `Message_Digest`. -/
def sha1Result (context : SHA1Context) :
    Option (ℕ × Option (List UInt8) × SHA1Context) :=
  if context.corrupted ≠ 0 then some (context.corrupted, none, context)
  else do
    let context ←
      if context.computed then some context
      else do
        let context ← sha1PadMessage context
        pure { context with
          messageBlock := Vector.replicate 64 0
          lengthLow := 0
          lengthHigh := 0
          computed := true }
    return (shaSuccess, some context.digest, context)

end Sha1
end NetService
