import NetService.Lib.Keystream
import NetService.Lib.Stream
import NetService.Ws.Call

/-!
# Client frames

A `Frame` is a masked frame as a client sends it: any opcode, any of the three forms of the length
that can hold it, any masking key and payload.  `Frame.bytes` is the frame on the wire and `wire` a
sequence of them.  `extLen16_eq` and `extLen64_eq` say what the parser makes of an extended length
without bytes from 128 on.
-/

namespace NetService
namespace Ws

/-! ### Extended lengths -/

theorem charToU64_toNat {b : UInt8} (h : b.toNat < 128) : (charToU64 b).toNat = b.toNat := by
  have hmsb : b.toBitVec.msb = false := by
    rw [BitVec.msb_eq_decide, decide_eq_false_iff_not]
    have : b.toBitVec.toNat = b.toNat := rfl
    omega
  show (b.toBitVec.signExtend 64).toNat = b.toNat
  rw [BitVec.signExtend_eq_setWidth_of_msb_false hmsb, BitVec.toNat_setWidth]
  exact Nat.mod_eq_of_lt (by have : b.toBitVec.toNat = b.toNat := rfl; omega)

/-- A shifted length byte. -/
theorem charToU64_shiftLeft {b : UInt8} (h : b.toNat < 128) {k : UInt64} (hk : k.toNat ≤ 56) :
    (charToU64 b <<< k).toNat = b.toNat * 2 ^ k.toNat := by
  have hpow : 2 ^ k.toNat ≤ 2 ^ 56 := Nat.pow_le_pow_right (by decide) hk
  have hlt : b.toNat * 2 ^ k.toNat < 2 ^ 64 := by
    calc b.toNat * 2 ^ k.toNat ≤ 127 * 2 ^ 56 := Nat.mul_le_mul (by omega) hpow
      _ < 2 ^ 64 := by decide
  rw [UInt64.toNat_shiftLeft, charToU64_toNat h, Nat.mod_eq_of_lt (show k.toNat < 64 by omega),
    Nat.shiftLeft_eq, Nat.mod_eq_of_lt hlt]

/-- The next length byte is or-ed below the ones before it. -/
theorem or_length_byte {x y : UInt64} {b : UInt8} {n k : ℕ} (hx : x.toNat = n * 2 ^ (k + 8))
    (hy : y.toNat = b.toNat * 2 ^ k) : (x ||| y).toNat = (256 * n + b.toNat) * 2 ^ k := by
  have hb := b.toNat_lt
  have hdvd : 2 ^ (k + 8) ∣ x.toNat := ⟨n, by rw [hx, Nat.mul_comm]⟩
  have hlt : y.toNat < 2 ^ (k + 8) := by
    rw [hy, pow_add, Nat.mul_comm]
    exact Nat.mul_lt_mul_of_pos_left (by omega) (by positivity)
  rw [UInt64.toNat_or, Word.or_eq_add hdvd hlt, hx, hy]
  ring

theorem extLen16_eq {p : ℕ → UInt8} (h : ∀ i < 2, (p i).toNat < 128) :
    (extLen16 p).toNat = Word.joined [p 0, p 1] := by
  have h₀ : (charToU64 (p 0) <<< 8).toNat = (p 0).toNat * 2 ^ (0 + 8) :=
    charToU64_shiftLeft (h 0 (by decide)) (by decide)
  have h₁ : (charToU64 (p 1)).toNat = (p 1).toNat * 2 ^ 0 := by
    rw [charToU64_toNat (h 1 (by decide)), pow_zero, Nat.mul_one]
  unfold extLen16
  rw [or_length_byte h₀ h₁]
  simp [Word.joined]

theorem extLen64_eq {p : ℕ → UInt8} (h : ∀ i < 8, (p i).toNat < 128) :
    (extLen64 p).toNat = Word.joined [p 0, p 1, p 2, p 3, p 4, p 5, p 6, p 7] := by
  have hshift : ∀ i < 8, ∀ {k : UInt64}, k.toNat ≤ 56 →
      (charToU64 (p i) <<< k).toNat = (p i).toNat * 2 ^ k.toNat :=
    fun i hi _ hk => charToU64_shiftLeft (h i hi) hk
  have h₀ : (charToU64 (p 0) <<< 56).toNat = (p 0).toNat * 2 ^ (48 + 8) :=
    hshift 0 (by decide) (by decide)
  have h₇ : (charToU64 (p 7)).toNat = (p 7).toNat * 2 ^ 0 := by
    rw [charToU64_toNat (h 7 (by decide)), pow_zero, Nat.mul_one]
  -- one byte after the other, the highest first
  have h₁ := or_length_byte (k := 48) h₀ (hshift 1 (by decide) (k := 48) (by decide))
  have h₂ := or_length_byte (k := 40) h₁ (hshift 2 (by decide) (k := 40) (by decide))
  have h₃ := or_length_byte (k := 32) h₂ (hshift 3 (by decide) (k := 32) (by decide))
  have h₄ := or_length_byte (k := 24) h₃ (hshift 4 (by decide) (k := 24) (by decide))
  have h₅ := or_length_byte (k := 16) h₄ (hshift 5 (by decide) (k := 16) (by decide))
  have h₆ := or_length_byte (k := 8) h₅ (hshift 6 (by decide) (k := 8) (by decide))
  unfold extLen64
  rw [or_length_byte h₆ h₇]
  simp [Word.joined]

/-! ### Frames -/

/-- The three forms of a payload length. -/
inductive LenForm
  | short
  | ext16
  | ext64
deriving DecidableEq

/-- The payload lengths a form can hold. -/
def LenForm.bound : LenForm → ℕ
  | .short => 126
  | .ext16 => 65536
  | .ext64 => 2 ^ 63

/-- A masked frame. -/
structure Frame where
  fin : Bool
  opcod : ℕ
  form : LenForm
  key : Fin 4 → UInt8
  payload : List UInt8
  opcod_lt : opcod < 16
  payload_lt : payload.length < form.bound

namespace Frame

/-- `payLoad` of the base header. -/
def payLoad (f : Frame) : ℕ :=
  match f.form with
  | .short => f.payload.length
  | .ext16 => 126
  | .ext64 => 127

/-- The two bytes of the base header. -/
def base (f : Frame) : List UInt8 :=
  [UInt8.ofNat (f.opcod + if f.fin then 128 else 0), UInt8.ofNat (f.payLoad + 128)]

/-- The extended length. -/
def ext (f : Frame) : List UInt8 :=
  match f.form with
  | .short => []
  | .ext16 => Word.bigEndian 2 f.payload.length
  | .ext64 => Word.bigEndian 8 f.payload.length

/-- The masking key. -/
def keyBytes (f : Frame) : List UInt8 := List.ofFn f.key

/-- The payload under the mask, the masking key over and over. -/
def masked (f : Frame) : List UInt8 := Keystream.crypt (maskAt f.key) 0 f.payload

/-- What is before the payload. -/
def headSize (f : Frame) : ℕ := 6 + f.ext.length

/-- The frame on the wire. -/
def bytes (f : Frame) : List UInt8 := f.base ++ (f.ext ++ (f.keyBytes ++ f.masked))

def size (f : Frame) : ℕ := f.headSize + f.payload.length

@[simp] theorem length_base (f : Frame) : f.base.length = 2 := rfl

@[simp] theorem length_keyBytes (f : Frame) : f.keyBytes.length = 4 := List.length_ofFn

@[simp] theorem length_masked (f : Frame) : f.masked.length = f.payload.length :=
  Keystream.length_crypt (maskAt f.key) 0 f.payload

theorem length_bytes (f : Frame) : f.bytes.length = f.size := by
  simp only [bytes, size, headSize, List.length_append, length_base, length_keyBytes, length_masked]
  omega

theorem headSize_pos (f : Frame) : 6 ≤ f.headSize := Nat.le_add_right _ _

theorem size_pos (f : Frame) : 0 < f.size := Nat.add_pos_left (by have := f.headSize_pos; omega) _

/-- Everything behind the base header, the extended length and the key. -/
theorem drop_base (f : Frame) : f.bytes.drop 2 = f.ext ++ (f.keyBytes ++ f.masked) := rfl

theorem drop_ext (f : Frame) : f.bytes.drop (2 + f.ext.length) = f.keyBytes ++ f.masked := by
  rw [← List.drop_drop, drop_base, List.drop_left]

theorem drop_head (f : Frame) (i : ℕ) : f.bytes.drop (f.headSize + i) = f.masked.drop i := by
  have hsplit : f.headSize + i = (2 + f.ext.length) + (4 + i) := by
    unfold headSize
    omega
  rw [hsplit, ← List.drop_drop, drop_ext, ← List.drop_drop]
  rfl

/-- The payload bytes that a run of masked bytes stands for. -/
theorem crypt_masked (f : Frame) (i c : ℕ) :
    Keystream.crypt (maskAt f.key) i ((f.masked.drop i).take c) = (f.payload.drop i).take c := by
  have hmasked : f.masked = Keystream.crypt (maskAt f.key) 0 f.payload := rfl
  rw [hmasked, Keystream.drop_crypt, Keystream.take_crypt, Nat.zero_add, Keystream.crypt_crypt]

/-! ### What the parser reads in the base header -/

theorem payLoad_lt (f : Frame) : f.payLoad < 128 := by
  have h := f.payload_lt
  unfold payLoad
  cases hform : f.form with
  | short =>
    rw [hform] at h
    exact h.trans (by decide)
  | ext16 => exact (show 126 < 128 by decide)
  | ext64 => exact (show 127 < 128 by decide)

theorem fin_base (f : Frame) :
    Ws.fin (UInt8.ofNat (f.opcod + if f.fin then 128 else 0)) = f.fin := by
  have h := f.opcod_lt
  unfold Ws.fin
  rw [UInt8.toNat_ofNat']
  cases f.fin with
  | true =>
    rw [if_pos rfl, decide_eq_true_eq]
    omega
  | false =>
    rw [if_neg (by decide), decide_eq_false_iff_not]
    omega

theorem opcod_base (f : Frame) :
    Ws.opcod (UInt8.ofNat (f.opcod + if f.fin then 128 else 0)) = f.opcod := by
  have h := f.opcod_lt
  unfold Ws.opcod
  rw [UInt8.toNat_ofNat']
  split <;> omega

theorem payLoad_base (f : Frame) : Ws.payLoad (UInt8.ofNat (f.payLoad + 128)) = f.payLoad := by
  have h := f.payLoad_lt
  unfold Ws.payLoad
  rw [UInt8.toNat_ofNat']
  omega

/-- The lengths of the extended length by `payLoad`. -/
theorem length_ext (f : Frame) :
    f.ext.length = if f.payLoad = 126 then 2 else if f.payLoad = 127 then 8 else 0 := by
  have h := f.payload_lt
  unfold ext payLoad
  cases hform : f.form with
  | short =>
    rw [hform] at h
    have hlt : f.payload.length < 126 := h
    rw [if_neg (by show ¬ f.payload.length = 126; omega),
      if_neg (by show ¬ f.payload.length = 127; omega)]
    rfl
  | ext16 => rfl
  | ext64 => rfl

/-! ### What the parser copes with -/

/-- No byte that the parser mistakes: no masked payload byte is `-1` as a `char`, and no byte of the
extended length is negative. -/
def Clean (f : Frame) : Prop := (∀ b ∈ f.masked, b ≠ 0xFF) ∧ ∀ b ∈ f.ext, b.toNat < 128

/-- The bytes that are there end after `n` bytes of the frame, between its parts or in the payload:
not inside the base header, the extended length or the key. -/
def CutOk (f : Frame) (n : ℕ) : Prop := n = 2 ∨ n = 2 + f.ext.length ∨ f.headSize ≤ n

/-- The frame is answered when it is complete. -/
def Replied (f : Frame) : Prop :=
  f.fin = true ∧ f.payload ≠ [] ∧ (f.opcod = opClse ∨ f.opcod = opPing)

/-- The payload is handed to `finishParse` when the frame is complete. -/
def Delivered (f : Frame) : Prop :=
  f.fin = true ∧ f.payload ≠ [] ∧ f.opcod ∉ [opClse, opPing, opPong, opUnsupported]

instance (f : Frame) : Decidable f.Clean :=
  @instDecidableAnd _ _ (List.decidableBAll _ f.masked) (List.decidableBAll _ f.ext)

instance (f : Frame) (n : ℕ) : Decidable (f.CutOk n) :=
  inferInstanceAs (Decidable (_ ∨ _))

instance (f : Frame) : Decidable f.Replied :=
  inferInstanceAs (Decidable (_ ∧ _))

instance (f : Frame) : Decidable f.Delivered :=
  inferInstanceAs (Decidable (_ ∧ _))

end Frame

/-- The bytes of the frames `fs`. -/
def wire (fs : List Frame) : List UInt8 := fs.flatMap Frame.bytes

@[simp] theorem wire_cons (f : Frame) (fs : List Frame) : wire (f :: fs) = f.bytes ++ wire fs := rfl

/-- Up to the end of a frame, the stream is that frame. -/
theorem drop_wire_cons {f : Frame} {fs : List Frame} {n : ℕ} (h : n ≤ f.size) :
    (wire (f :: fs)).drop n = f.bytes.drop n ++ wire fs := by
  rw [wire_cons, List.drop_append_of_le_length (by rw [f.length_bytes]; exact h)]

/-- Behind a frame, the stream is the frames after it. -/
theorem drop_wire_size (f : Frame) (fs : List Frame) (n : ℕ) :
    (wire (f :: fs)).drop (f.size + n) = (wire fs).drop n := by
  rw [wire_cons, ← List.drop_drop, ← f.length_bytes, List.drop_left]

end Ws
end NetService
