import NetService.Lib.CString
import NetService.Lib.BlockWriter

/-!
# `base64.c`

`base64_encode` and `base64_decode`, with the lengths of the arrays as `size_t`.  A write outside the
allocated block is `none`; the null pointer is `some none`.  `malloc` does not fail.
-/

namespace NetService
namespace Base64

/-- `base64_table` without its `'\0'`. -/
def base64Table : Vector UInt8 64 :=
  ⟨⟨CString.ascii "ABCDEFGHIJKLMNOPQRSTUVWXYZabcdefghijklmnopqrstuvwxyz0123456789+/"⟩, by decide⟩

/-- `base64_table[i]`; the index is below 64 wherever the code reads the table. -/
def tableAt (i : UInt8) : UInt8 := base64Table[i.toNat]!

/-- `'='` -/
def equals : UInt8 := 61

/-- `'\n'` -/
def newline : UInt8 := 10

/-! ### `base64_encode` -/

/-- The size of the block. -/
def encodedSize (len : UInt64) : UInt64 :=
  let olen := len * 4 / 3 + 4
  let olen := olen + olen / 72
  olen + 1

/-- The loop over the groups of three bytes: what is left of the input, `line_len` and `pos`. -/
def encodeLoop : List UInt8 → ℕ → BlockWriter UInt8 → Option (List UInt8 × ℕ × BlockWriter UInt8)
  | a :: b :: c :: rest, line_len, pos => do
      let pos ← pos.puts [tableAt (a >>> 2), tableAt ((a &&& 0x03) <<< 4 ||| b >>> 4),
        tableAt ((b &&& 0x0f) <<< 2 ||| c >>> 6), tableAt (c &&& 0x3f)]
      if line_len + 4 ≥ 72 then
        let pos ← pos.put newline
        encodeLoop rest 0 pos
      else encodeLoop rest (line_len + 4) pos
  | rest, line_len, pos => some (rest, line_len, pos)

/-- The group of one or two bytes at the end. -/
def encodeTail : List UInt8 → ℕ → BlockWriter UInt8 → Option (ℕ × BlockWriter UInt8)
  | [], line_len, pos => some (line_len, pos)
  | [a], line_len, pos => do
      let pos ← pos.puts [tableAt (a >>> 2), tableAt ((a &&& 0x03) <<< 4), equals, equals]
      return (line_len + 4, pos)
  | a :: b :: _, line_len, pos => do
      let pos ← pos.puts [tableAt (a >>> 2), tableAt ((a &&& 0x03) <<< 4 ||| b >>> 4),
        tableAt ((b &&& 0x0f) <<< 2), equals]
      return (line_len + 4, pos)

/-- The line break and the `'\0'` at the end; the text without its `'\0'`. -/
def encodeEnd (line_len : ℕ) (pos : BlockWriter UInt8) : Option (List UInt8) := do
  let pos ← if line_len ≠ 0 then pos.put newline else some pos
  let _ ← pos.put 0
  return pos.written

/-- `base64_encode` -/
def base64Encode (src : List UInt8) : Option (Option (List UInt8)) :=
  let len := UInt64.ofNat src.length
  let olen := encodedSize len
  if olen < len then some none
  else do
    let (rest, line_len, pos) ← encodeLoop src 0 (.alloc olen.toNat)
    let (line_len, pos) ← encodeTail rest line_len pos
    let text ← encodeEnd line_len pos
    return some text

/-! ### `base64_decode` -/

/-- `dtable` -/
def dtable : Vector UInt8 256 :=
  (Nat.fold 64 (fun i _ d => d.set! base64Table[i].toNat (UInt8.ofNat i)) (Vector.replicate 256 0x80)).set!
    equals.toNat 0

/-- `dtable[c]` -/
def dtableAt (c : UInt8) : UInt8 := dtable.get ⟨c.toNat, c.toNat_lt⟩

/-- The first loop: the number of characters that are not skipped. -/
def countLoop : List UInt8 → ℕ → ℕ
  | [], count => count
  | c :: src, count => countLoop src (if dtableAt c ≠ 0x80 then count + 1 else count)

/-- The second loop, with the values in `block`, `pad` and `pos`; `some none` for invalid padding. -/
def decodeLoop : List UInt8 → List UInt8 → ℕ → BlockWriter UInt8 → Option (Option (List UInt8))
  | [], _, _, pos => some (some pos.written)
  | c :: src, block, pad, pos =>
      let tmp := dtableAt c
      if tmp = 0x80 then decodeLoop src block pad pos
      else
        let pad := if c = equals then pad + 1 else pad
        match block ++ [tmp] with
        | [b₀, b₁, b₂, b₃] => do
            let pos ← pos.puts [b₀ <<< 2 ||| b₁ >>> 4, b₁ <<< 4 ||| b₂ >>> 2, b₂ <<< 6 ||| b₃]
            if pad = 0 then decodeLoop src [] pad pos
            else if pad = 1 then some (some (pos.back 1).written)
            else if pad = 2 then some (some (pos.back 2).written)
            else some none
        | block => decodeLoop src block pad pos

/-- `base64_decode` -/
def base64Decode (src : List UInt8) : Option (Option (List UInt8)) :=
  let count := countLoop src 0
  if count = 0 ∨ count % 4 ≠ 0 then some none
  else decodeLoop src [] 0 (.alloc (count / 4 * 3))

end Base64
end NetService
