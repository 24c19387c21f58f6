import NetService.Tcp.Framing

/-!
# `ServerPack`

`TcpConnect::MakeServerMsg` makes a `ServerPack` of every packet: a block of its own, with a header of
eight bytes in front of the packet.  The constructor computes the size of the block in 16 bits, and
copies as many bytes as it is told; `new_isSome_iff` says for which lengths this stays in the blocks.
No connection passes any other (`packs_self_described`).
-/

namespace NetService
namespace Tcp

open TcpStickyWrap Memory

/-- Four bytes, the low one first. -/
def le32 (n : UInt32) : List UInt8 := le16 n.toNat ++ le16 (n.toNat / 65536)

@[simp] theorem length_le16 (n : ℕ) : (le16 n).length = 2 := rfl

@[simp] theorem length_le32 (n : UInt32) : (le32 n).length = 4 := rfl

/-- `ServerPack` -/
structure ServerPack where
  pData : ℕ → UInt8
  size : ℕ
  msgId : ℕ

/-- `memcpy(_pData + i, ...)` of the bytes `bs`, in a block of `size` bytes. -/
def copyIn (size : ℕ) (pData : ℕ → UInt8) (i : ℕ) (bs : List UInt8) : Option (ℕ → UInt8) :=
  if i + bs.length ≤ size then some (store pData i bs) else none

/-- `ServerPack(connId, buff, msgId, len)`, with `buff` the beginning of a block of `cap` bytes; `none`
if a copy leaves one of the blocks. -/
def ServerPack.new (connId : UInt32) (buff : ℕ → UInt8) (cap msgId len : ℕ) : Option ServerPack := do
  let size := (len + 8) % 65536
  -- `malloc` and `memset`
  let pData ← copyIn size (fun _ => 0) 0 (le16 size)
  let pData ← copyIn size pData 2 (le16 msgId)
  let pData ← copyIn size pData 4 (le32 connId)
  if len ≤ cap then
    let pData ← copyIn size pData 8 (load buff 0 len)
    return ⟨pData, size, msgId⟩
  else none

/-- `TcpConnect::MakeServerMsg`, with `junk` in the bytes of `_pData` behind the packet. -/
def makeServerMsg (connId : UInt32) (junk : ℕ → UInt8) (msg : ServerMsg) : Option ServerPack :=
  ServerPack.new connId (store junk 0 msg.data) packCap msg.msgId msg.data.length

theorem copyIn_eq_some {size i : ℕ} {pData : ℕ → UInt8} {bs : List UInt8}
    (h : i + bs.length ≤ size) : copyIn size pData i bs = some (store pData i bs) :=
  if_pos h

theorem copyIn_eq_none {size i : ℕ} {pData : ℕ → UInt8} {bs : List UInt8}
    (h : size < i + bs.length) : copyIn size pData i bs = none :=
  if_neg (Nat.not_le.2 h)

namespace ServerPack

/-- The constructor, where it stays in the blocks. -/
theorem new_spec (connId : UInt32) (buff : ℕ → UInt8) {cap len : ℕ} (msgId : ℕ)
    (hsize : len + 8 < 65536) (hcap : len ≤ cap) :
    ∃ pack, ServerPack.new connId buff cap msgId len = some pack ∧ pack.size = len + 8 ∧
      pack.msgId = msgId ∧
      load pack.pData 0 (len + 8) =
        le16 (len + 8) ++ le16 msgId ++ le32 connId ++ load buff 0 len := by
  unfold ServerPack.new
  rw [Nat.mod_eq_of_lt hsize]
  simp only [copyIn_eq_some (show 0 + (le16 (len + 8)).length ≤ len + 8 by simp),
    copyIn_eq_some (show 2 + (le16 msgId).length ≤ len + 8 by simp),
    copyIn_eq_some (show 4 + (le32 connId).length ≤ len + 8 by simp),
    copyIn_eq_some (show 8 + (load buff 0 len).length ≤ len + 8 by simp [Nat.add_comm]),
    Option.bind_eq_bind, Option.bind_some, if_pos hcap]
  refine ⟨_, rfl, rfl, rfl, ?_⟩
  -- each copy appends to the ones before it
  have happend : ∀ (pData : ℕ → UInt8) (bs cs : List UInt8), load pData 0 bs.length = bs →
      load (store pData bs.length cs) 0 (bs ++ cs).length = bs ++ cs := by
    intro pData bs cs hbs
    have hload := load_store_append pData 0 bs.length cs
    rw [Nat.zero_add, hbs] at hload
    rw [List.length_append, hload]
  have h₁ := happend (fun _ => 0) [] (le16 (len + 8)) rfl
  have h₂ := happend _ _ (le16 msgId) h₁
  have h₃ := happend _ _ (le32 connId) h₂
  have h₄ := happend _ _ (load buff 0 len) h₃
  have hlength : ([] ++ le16 (len + 8) ++ le16 msgId ++ le32 connId ++ load buff 0 len).length =
      len + 8 := by
    simp
    omega
  rwa [hlength] at h₄

/-- The constructor stays in its blocks exactly if the size fits 16 bits and the packet fits `buff`. -/
theorem new_isSome_iff (connId : UInt32) (buff : ℕ → UInt8) (cap msgId : ℕ) {len : ℕ}
    (hlen : len < 65536) :
    (ServerPack.new connId buff cap msgId len).isSome ↔ len + 8 < 65536 ∧ len ≤ cap := by
  by_cases hsize : len + 8 < 65536
  · by_cases hcap : len ≤ cap
    · obtain ⟨pack, hpack, -⟩ := new_spec connId buff msgId hsize hcap
      simp [hpack, hsize, hcap]
    · unfold ServerPack.new
      simp [hcap]
  · -- the size is below 8, so that one of the first three copies is too long
    have hsmall : (len + 8) % 65536 < 8 := by omega
    have hthird : ∀ pData : ℕ → UInt8,
        copyIn ((len + 8) % 65536) pData 4 (le32 connId) = none := fun pData =>
      copyIn_eq_none (by rw [length_le32]; omega)
    unfold ServerPack.new
    simp [hthird, hsize]

end ServerPack

/-! ### The packets of a connection -/

/-- Two bytes are the value they stand for. -/
theorem le16_bytes (b c : UInt8) : le16 (b.toNat + 256 * c.toNat) = [b, c] := by
  have hb := b.toNat_lt
  have hc := c.toNat_lt
  unfold le16
  congr 1
  · rw [← UInt8.toNat_inj, UInt8.toNat_ofNat']
    omega
  · congr 1
    rw [← UInt8.toNat_inj, UInt8.toNat_ofNat']
    omega

/-- The header of a list is its length and its id. -/
theorem take_four {l : List UInt8} (h : 4 ≤ l.length) :
    l.take 4 = le16 (lenOf l) ++ le16 (idOf l) := by
  match l, h with
  | b₀ :: b₁ :: b₂ :: b₃ :: l, _ =>
    show [b₀, b₁, b₂, b₃] = le16 (b₀.toNat + 256 * b₁.toNat) ++ le16 (b₂.toNat + 256 * b₃.toNat)
    rw [le16_bytes, le16_bytes]
    rfl

/-- Whatever has been received: every call of `MakeServerMsg` is for bytes that begin with their own
length and id, and its `ServerPack` stays in its blocks and holds, behind its own header, these bytes. -/
theorem packs_self_described (m : ℕ → UInt8) {calls : List (List UInt8)} {l : Link}
    (h : (linkSys m).Run ⟨new (some 0) m, 0⟩ calls l) (connId : UInt32) (junk : ℕ → UInt8)
    {msg : ServerMsg} (hmsg : msg ∈ l.wrap.msgs) :
    4 < msg.data.length ∧ msg.data.length ≤ packCap ∧
      msg.data.take 4 = le16 msg.data.length ++ le16 msg.msgId ∧
      ∃ pack, makeServerMsg connId junk msg = some pack ∧ pack.size = msg.data.length + 8 ∧
        pack.msgId = msg.msgId ∧
        load pack.pData 0 pack.size =
          le16 pack.size ++ le16 msg.msgId ++ le32 connId ++ msg.data := by
  have hframed : Framed (m 1) l calls.flatten := (framed_new m).run h
  obtain ⟨read, parts, stale, rest, -, hsplit, hmsgs, -⟩ := hframed.splits
  obtain ⟨p, hp, hdelivers⟩ : ∃ p ∈ parts, Delivers msg p := by
    obtain ⟨i, hi, rfl⟩ := List.getElem_of_mem hmsg
    have hlen := hmsgs.length_eq
    exact ⟨parts[i], List.getElem_mem _, hmsgs.get hi (hlen ▸ hi)⟩
  have hwhole := hsplit.unfinished.1 p hp
  have hlen := hdelivers.data.length
  have hbody := hwhole.body
  have hcap := hwhole.cap
  obtain ⟨pack, hpack, hsize, hid, hload⟩ := ServerPack.new_spec connId (store junk 0 msg.data)
    msg.msgId (show msg.data.length + 8 < 65536 by unfold packCap at hcap; omega) (hlen ▸ hcap)
  rw [load_store] at hload
  refine ⟨by omega, by omega, ?_, pack, hpack, hsize, hid, by rw [hsize, hload]⟩
  rw [take_four (by omega), hdelivers.data.lenOf, hwhole.len, hdelivers.data.idOf, hlen,
    ← hdelivers.msgId]

theorem packs_self_described_sample :
    ∃ pack, makeServerMsg 3 (fun _ => 9) ⟨1, [5, 0, 1, 0, 5]⟩ = some pack ∧ pack.size = 13 ∧
      load pack.pData 0 pack.size = [13, 0, 1, 0, 3, 0, 0, 0, 5, 0, 1, 0, 5] := by
  obtain ⟨l, hrun, -, hmsgs, -⟩ := sample_run
  have hmem : ⟨1, [5, 0, 1, 0, 5]⟩ ∈ l.wrap.msgs := by simp [hmsgs]
  obtain ⟨-, -, -, pack, hpack, hsize, -, hload⟩ :=
    packs_self_described (fun _ => 0) hrun 3 (fun _ => 9) hmem
  refine ⟨pack, hpack, hsize, ?_⟩
  rw [hload, hsize]
  rfl

end Tcp
end NetService
