import NetService.Sha1.Pad

/-!
# Calls of the `sha1.c` interface

A context that has been reset serves any sequence of `SHA1Reset`, `SHA1Input` and `SHA1Result`.
`Hasher` is what the interface promises: the message of all inputs since the last reset, its digest
as often as it is asked for, and an error that stays until the next reset when there is input after
the digest has been asked for, or when the message has 2 ^ 64 bits or more.
-/

namespace NetService
namespace Sha1

/-- A call on a context; a null pointer for the array is `none`. -/
inductive Call
  | reset
  | input (message_array : Option (List UInt8)) (length : UInt32)
  | result

/-- The array, if there is one, has the bytes that the call asks for. -/
def Call.Valid : Call → Prop
  | .input (some message_array) length => length.toNat ≤ message_array.length
  | _ => True

/-- The value a call returns and the digest it writes, if it does. -/
structure Output where
  code : ℕ
  digest : Option (List UInt8)
deriving DecidableEq

/-- A call on a context; `none` when it reads or writes outside an array. -/
def SHA1Context.call (c : SHA1Context) : Call → Option (Output × SHA1Context)
  | .reset => some (⟨shaSuccess, none⟩, sha1Reset c)
  | .input message_array length =>
      (sha1Input c message_array length).map fun r => (⟨r.1, none⟩, r.2)
  | .result => (sha1Result c).map fun r => (⟨r.1, r.2.1⟩, r.2.2)

/-- The outputs of a sequence of calls. -/
def SHA1Context.calls : SHA1Context → List Call → Option (List Output)
  | _, [] => some []
  | c, call :: calls => do
      let (out, c) ← c.call call
      let outs ← c.calls calls
      return out :: outs

/-! ### What the interface promises -/

/-- What a context stands for. -/
inductive Hasher
  /-- the message so far -/
  | reading (msg : List UInt8)
  /-- the message whose digest has been asked for -/
  | finished (msg : List UInt8)
  /-- an error -/
  | failed (code : ℕ)

/-- Input of at least one byte. -/
def Hasher.input (bs : List UInt8) : Hasher → Output × Hasher
  | .reading msg =>
      if msg.length + bs.length < 2 ^ 61 then (⟨shaSuccess, none⟩, .reading (msg ++ bs))
      else (⟨shaSuccess, none⟩, .failed 1)
  | .finished _ => (⟨shaStateError, none⟩, .failed shaStateError)
  | .failed code => (⟨code, none⟩, .failed code)

/-- The digest is asked for. -/
def Hasher.result : Hasher → Output × Hasher
  | .reading msg => (⟨shaSuccess, some (sha1 msg)⟩, .finished msg)
  | .finished msg => (⟨shaSuccess, some (sha1 msg)⟩, .finished msg)
  | .failed code => (⟨code, none⟩, .failed code)

/-- A call. -/
def Hasher.call (s : Hasher) : Call → Output × Hasher
  | .reset => (⟨shaSuccess, none⟩, .reading [])
  | .input message_array length =>
      if length = 0 then (⟨shaSuccess, none⟩, s)
      else
        match message_array with
        | none => (⟨shaNull, none⟩, s)
        | some message_array => s.input (message_array.take length.toNat)
  | .result => s.result

/-- The outputs of a sequence of calls. -/
def Hasher.calls : Hasher → List Call → List Output
  | _, [] => []
  | s, call :: calls => (s.call call).1 :: (s.call call).2.calls calls

/-- The context stands for the state. -/
def Holds (c : SHA1Context) : Hasher → Prop
  | .reading msg => Absorbed c msg
  | .finished msg => c.computed = true ∧ c.corrupted = 0 ∧ bytes c.intermediateHash = sha1 msg
  | .failed code =>
      c.corrupted = code ∧ code ≠ 0 ∧ (c.computed = true → code = shaStateError)

/-! ### `SHA1Input` -/

/-- The length counters together. -/
def SHA1Context.lengthBits (c : SHA1Context) : ℕ := c.lengthHigh.toNat * 2 ^ 32 + c.lengthLow.toNat

theorem add_eight_eq_zero {x : UInt32} (h8 : 8 ∣ x.toNat) :
    x + 8 = 0 ↔ x.toNat + 8 = 2 ^ 32 := by
  have hlt := x.toNat_lt
  rw [← UInt32.toNat_inj, UInt32.toNat_add]
  simp only [UInt32.reduceToNat]
  omega

theorem add_one_eq_zero {x : UInt32} : x + 1 = 0 ↔ x.toNat + 1 = 2 ^ 32 := by
  have hlt := x.toNat_lt
  rw [← UInt32.toNat_inj, UInt32.toNat_add]
  simp only [UInt32.reduceToNat]
  omega

/-- The counters of a message that stays below 2 ^ 64 bits. -/
theorem countByte_spec {c : SHA1Context} (h : c.lengthBits + 8 < 2 ^ 64) (h8 : 8 ∣ c.lengthBits) :
    c.countByte.lengthBits = c.lengthBits + 8 ∧ c.countByte.corrupted = c.corrupted := by
  have hlow := c.lengthLow.toNat_lt
  have hhigh := c.lengthHigh.toNat_lt
  unfold SHA1Context.lengthBits at *
  have hlow8 : 8 ∣ c.lengthLow.toNat := by omega
  unfold SHA1Context.countByte
  by_cases hzero : c.lengthLow + 8 = 0
  · -- a carry
    have hcarry := (add_eight_eq_zero hlow8).1 hzero
    have hone : ¬ c.lengthHigh + 1 = 0 := by
      rw [add_one_eq_zero]
      omega
    simp only [hzero, hone, if_true, if_false]
    refine ⟨?_, trivial⟩
    rw [add_one_eq_zero] at hone
    rw [UInt32.toNat_add]
    simp only [UInt32.reduceToNat]
    omega
  · simp only [hzero, if_false]
    refine ⟨?_, trivial⟩
    rw [add_eight_eq_zero hlow8] at hzero
    rw [UInt32.toNat_add]
    simp only [UInt32.reduceToNat]
    omega

/-- The counters that overflow. -/
theorem countByte_overflow {c : SHA1Context} (h : c.lengthBits + 8 = 2 ^ 64) :
    c.countByte.corrupted = 1 := by
  have hlow := c.lengthLow.toNat_lt
  have hhigh := c.lengthHigh.toNat_lt
  unfold SHA1Context.lengthBits at h
  have hzero : c.lengthLow + 8 = 0 := (add_eight_eq_zero (by omega)).2 (by omega)
  have hone : c.lengthHigh + 1 = 0 := add_one_eq_zero.2 (by omega)
  unfold SHA1Context.countByte
  simp only [hzero, hone, if_true]

/-- The counters apart, nothing changes. -/
theorem countByte_frame (c : SHA1Context) :
    c.countByte.messageBlock = c.messageBlock ∧
      c.countByte.messageBlockIndex = c.messageBlockIndex ∧
      c.countByte.intermediateHash = c.intermediateHash ∧ c.countByte.computed = c.computed := by
  unfold SHA1Context.countByte
  dsimp only
  split_ifs <;> exact ⟨rfl, rfl, rfl, rfl⟩

/-- One more byte. -/
theorem inputByte_spec {c : SHA1Context} {msg : List UInt8} (h : Absorbed c msg) (b : UInt8) :
    ∃ c', c.inputByte b = some c' ∧
      Holds c' (if msg.length + 1 < 2 ^ 61 then .reading (msg ++ [b]) else .failed 1) := by
  obtain ⟨d, hput, hd⟩ := put_spec h.blocks.index_lt b
  have hbits : d.lengthBits = 8 * msg.length := by
    rw [SHA1Context.lengthBits, hd.low, hd.high, h.length]
  obtain ⟨hblock, hindex, hvalue, hcomputed⟩ := countByte_frame d
  have hblocks : Blocks
      (if d.countByte.messageBlockIndex = 64 then sha1ProcessMessageBlock d.countByte
        else d.countByte) (msg ++ [b]) := by
    have hlt := h.blocks.index_lt
    have hmsg := h.blocks.index
    have hone := hd.index
    rw [List.length_singleton] at hone
    by_cases hfull : d.countByte.messageBlockIndex = 64
    · rw [if_pos hfull]
      apply h.blocks.process
      · rw [hblock, hd.block (by rwa [hindex] at hfull)]
      · rw [hvalue, hd.value]
      · rw [List.length_singleton]
        omega
    · rw [if_neg hfull]
      apply h.blocks.put
      · rw [SHA1Context.filled, hblock, hindex]
        exact hd.filled
      · rw [hindex, hd.index]
      · rw [hvalue, hd.value]
      · rw [List.length_singleton]
        omega
  have hlt := h.length_lt
  refine ⟨_, by rw [SHA1Context.inputByte, hput]; rfl, ?_⟩
  by_cases hroom : msg.length + 1 < 2 ^ 61
  · obtain ⟨hcount, hcorr⟩ := countByte_spec (c := d) (by omega) (by omega)
    rw [if_pos hroom]
    refine ⟨hblocks, ?_, ?_, ?_⟩
    · rw [List.length_append, List.length_singleton, Nat.mul_add, ← hbits, ← hcount]
      split_ifs <;> rfl
    · split_ifs
      · rw [sha1ProcessMessageBlock_computed, hcomputed, hd.computed, h.computed]
      · rw [hcomputed, hd.computed, h.computed]
    · split_ifs
      · rw [sha1ProcessMessageBlock_corrupted, hcorr, hd.corrupted, h.corrupted]
      · rw [hcorr, hd.corrupted, h.corrupted]
  · have hover := countByte_overflow (c := d) (by omega)
    rw [if_neg hroom]
    refine ⟨?_, one_ne_zero, fun hcomp => ?_⟩
    · split_ifs
      · rw [sha1ProcessMessageBlock_corrupted, hover]
      · exact hover
    · have hfalse : d.countByte.computed = false := by rw [hcomputed, hd.computed, h.computed]
      split_ifs at hcomp
      · rw [sha1ProcessMessageBlock_computed, hfalse] at hcomp
        cases hcomp
      · rw [hfalse] at hcomp
        cases hcomp

/-- The loop of `SHA1Input`. -/
theorem inputLoop_spec {c : SHA1Context} {msg : List UInt8} (h : Absorbed c msg)
    (bs more : List UInt8) :
    ∃ c', inputLoop bs.length (bs ++ more) c = some c' ∧
      Holds c' (if msg.length + bs.length < 2 ^ 61 then .reading (msg ++ bs) else .failed 1) := by
  induction bs generalizing c msg with
  | nil =>
    refine ⟨c, rfl, ?_⟩
    have hlt := h.length_lt
    rw [List.append_nil, List.length_nil, Nat.add_zero, if_pos hlt]
    exact h
  | cons b bs ih =>
    obtain ⟨d, hbyte, hd⟩ := inputByte_spec h b
    rw [List.length_cons, List.cons_append, inputLoop, if_neg (not_not.2 h.corrupted)]
    simp only [hbyte, Option.bind_some]
    by_cases hroom : msg.length + 1 < 2 ^ 61
    · rw [if_pos hroom] at hd
      obtain ⟨e, hloop, he⟩ := ih hd
      rw [List.length_append, List.length_singleton, List.append_assoc, List.singleton_append,
        Nat.add_assoc, Nat.add_comm 1] at he
      exact ⟨e, hloop, he⟩
    · -- the counters have overflowed: the loop is left at its next test
      rw [if_neg hroom] at hd
      have hne : d.corrupted ≠ 0 := by
        rw [hd.1]
        exact one_ne_zero
      refine ⟨d, ?_, ?_⟩
      · cases bs with
        | nil => rfl
        | cons b' bs => rw [List.length_cons, List.cons_append, inputLoop, if_pos hne]
      · rw [if_neg (by omega)]
        exact hd

/-- `SHA1Input` of at least one byte. -/
theorem sha1Input_spec {c : SHA1Context} {s : Hasher} (h : Holds c s) {message_array : List UInt8}
    {length : UInt32} (hne : length ≠ 0) (hlen : length.toNat ≤ message_array.length) :
    ∃ c', sha1Input c (some message_array) length =
        some ((s.input (message_array.take length.toNat)).1.code, c') ∧
      Holds c' (s.input (message_array.take length.toNat)).2 := by
  cases s with
  | reading msg =>
    obtain ⟨c', hloop, hc'⟩ :=
      inputLoop_spec h (message_array.take length.toNat) (message_array.drop length.toNat)
    rw [List.take_append_drop, List.length_take, Nat.min_eq_left hlen] at hloop
    refine ⟨c', ?_, ?_⟩
    · have hcode : (Hasher.input (message_array.take length.toNat) (.reading msg)).1.code =
          shaSuccess := by
        unfold Hasher.input
        dsimp only
        split_ifs <;> rfl
      simp [sha1Input, hne, h.computed, h.corrupted, hloop, hcode]
    · unfold Hasher.input
      dsimp only
      split_ifs with hroom
      · rwa [if_pos hroom] at hc'
      · rwa [if_neg hroom] at hc'
  | finished msg =>
    obtain ⟨hcomputed, hcorr, hvalue⟩ := h
    refine ⟨{ c with corrupted := shaStateError }, ?_, rfl, by decide, fun _ => rfl⟩
    simp [sha1Input, hne, hcomputed, Hasher.input]
  | failed code =>
    obtain ⟨hcorr, hcode, hstate⟩ := h
    by_cases hcomputed : c.computed
    · refine ⟨{ c with corrupted := shaStateError }, ?_, (hstate hcomputed).symm, hcode, hstate⟩
      simp [sha1Input, hne, hcomputed, Hasher.input, hstate hcomputed]
    · refine ⟨c, ?_, hcorr, hcode, hstate⟩
      simp [sha1Input, hne, hcomputed, Hasher.input, hcorr, hcode]

/-! ### `SHA1Result` and `SHA1Reset` -/

theorem sha1Result_spec {c : SHA1Context} {s : Hasher} (h : Holds c s) :
    ∃ c', sha1Result c = some (s.result.1.code, s.result.1.digest, c') ∧ Holds c' s.result.2 := by
  cases s with
  | reading msg =>
    obtain ⟨d, hpad, hcorr, hvalue⟩ := sha1PadMessage_spec h
    have hdigest : bytes d.intermediateHash = sha1 msg := by rw [hvalue, sha1]
    have hdone : Holds { d with
        messageBlock := Vector.replicate 64 0
        lengthLow := 0
        lengthHigh := 0
        computed := true } (.finished msg) := ⟨rfl, hcorr, hdigest⟩
    refine ⟨_, ?_, hdone⟩
    simp [sha1Result, h.corrupted, h.computed, hpad, digest_eq, hdigest, Hasher.result]
  | finished msg =>
    obtain ⟨hcomputed, hcorr, hdigest⟩ := h
    refine ⟨c, ?_, hcomputed, hcorr, hdigest⟩
    simp [sha1Result, hcorr, hcomputed, digest_eq, hdigest, Hasher.result]
  | failed code =>
    obtain ⟨hcorr, hcode, hstate⟩ := h
    refine ⟨c, ?_, hcorr, hcode, hstate⟩
    simp [sha1Result, hcorr, hcode, Hasher.result]

theorem blocks_sha1Reset (c : SHA1Context) : Blocks (sha1Reset c) [] := by
  refine ⟨?_, ?_, ?_⟩
  · have hstart : (sha1Reset c).intermediateHash = start := rfl
    rw [hstart, BlockHash.hash, List.length_nil, Nat.zero_div, BlockHash.chain]
  · have hindex : (sha1Reset c).messageBlockIndex = 0 := rfl
    rw [BlockHash.rest_of_lt (by decide), SHA1Context.filled, hindex, List.take_zero]
  · rfl

/-- Whatever the context holds, it starts a new message. -/
theorem sha1Reset_spec (c : SHA1Context) : Absorbed (sha1Reset c) [] where
  blocks := blocks_sha1Reset c
  length := by simp [sha1Reset]
  computed := rfl
  corrupted := rfl

/-! ### Sequences of calls -/

/-- A call returns what the interface promises, and the context goes on standing for the state. -/
theorem call_spec {c : SHA1Context} {s : Hasher} (h : Holds c s) {call : Call} (hvalid : call.Valid) :
    ∃ c', c.call call = some ((s.call call).1, c') ∧ Holds c' (s.call call).2 := by
  cases call with
  | reset => exact ⟨sha1Reset c, rfl, sha1Reset_spec c⟩
  | result =>
    obtain ⟨c', hresult, hc'⟩ := sha1Result_spec h
    refine ⟨c', ?_, hc'⟩
    simp [SHA1Context.call, hresult, Hasher.call]
  | input message_array length =>
    by_cases hzero : length = 0
    · refine ⟨c, ?_, ?_⟩
      · simp [SHA1Context.call, sha1Input, Hasher.call, hzero]
      · simpa [Hasher.call, hzero] using h
    · cases message_array with
      | none =>
        refine ⟨c, ?_, ?_⟩
        · simp [SHA1Context.call, sha1Input, Hasher.call, hzero]
        · simpa [Hasher.call, hzero] using h
      | some message_array =>
        obtain ⟨c', hinput, hc'⟩ := sha1Input_spec h hzero hvalid
        have hdigest : ∀ bs, (s.input bs).1.digest = none := by
          intro bs
          cases s with
          | reading msg =>
            unfold Hasher.input
            dsimp only
            split_ifs <;> rfl
          | finished msg => rfl
          | failed code => rfl
        refine ⟨c', ?_, ?_⟩
        · simp only [SHA1Context.call, hinput, Option.map_some, Hasher.call, hzero, if_false,
            ← hdigest (message_array.take length.toNat)]
        · simpa [Hasher.call, hzero] using hc'

theorem calls_spec {c : SHA1Context} {s : Hasher} (h : Holds c s) {calls : List Call}
    (hvalid : ∀ call ∈ calls, call.Valid) : c.calls calls = some (s.calls calls) := by
  induction calls generalizing c s with
  | nil => rfl
  | cons call calls ih =>
    obtain ⟨c', hcall, hc'⟩ := call_spec h (hvalid call List.mem_cons_self)
    have hrest := ih hc' fun call' hmem => hvalid call' (List.mem_cons_of_mem _ hmem)
    simp [SHA1Context.calls, hcall, hrest, Hasher.calls]

/-- A context that has been reset serves every sequence of calls as the interface promises, and no
call reads or writes outside an array. -/
theorem reset_calls (c : SHA1Context) {calls : List Call} (hvalid : ∀ call ∈ calls, call.Valid) :
    (sha1Reset c).calls calls = some ((Hasher.reading []).calls calls) :=
  calls_spec (s := .reading []) (sha1Reset_spec c) hvalid

/-- A context whose memory is all zeros. -/
def blank : SHA1Context := ⟨Vector.replicate 5 0, 0, 0, 0, Vector.replicate 64 0, false, 0⟩

theorem reset_calls_abc :
    (sha1Reset blank).calls [.input (some [97, 98]) 2, .input (some [99]) 1, .result, .result,
      .input (some [100]) 1, .result, .reset, .result] =
    some ((Hasher.reading []).calls [.input (some [97, 98]) 2, .input (some [99]) 1, .result, .result,
      .input (some [100]) 1, .result, .reset, .result]) := by
  apply reset_calls
  simp [Call.Valid]

/-- The first example of the standard. -/
example : (sha1Reset blank).calls [.input (some [97, 98, 99]) 3, .result] = some [⟨0, none⟩, ⟨0, some
    [0xA9, 0x99, 0x3E, 0x36, 0x47, 0x06, 0x81, 0x6A, 0xBA, 0x3E, 0x25, 0x71, 0x78, 0x50, 0xC2, 0x6C,
      0x9C, 0xD0, 0xD8, 0x9D]⟩] := by
  decide +kernel

end Sha1
end NetService
