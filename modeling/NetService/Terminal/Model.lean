import NetService.Tcp.ServerPack

/-!
# `client.cc`

`read_terminal` sends what it has read from the terminal as the body of a packet with the id 100.  A
state of `session` is such a client and the server's end of its connection: the bytes that are on the
way, and the `TcpStickyWrap` that receives them, with `_head` the view of the first bytes of `_pData`.
-/

namespace NetService
namespace Terminal

open Tcp TcpStickyWrap Memory

/-- `read_terminal`, with `input` what `read` returns: the bytes read, or `none` for -1.  The result
is what it gives to `bufferevent_write`; `none` if it leaves `buff` or `sendbuff`. -/
def readTerminal (input : Option (List UInt8)) : Option (List UInt8) :=
  let buff := store (fun _ => 0) 0 (input.getD [])
  let len : ℤ := match input with
    | none => -1
    | some line => line.length
  -- `printf("%s", buff)` reads up to a zero byte
  if ∃ i < 1024, buff i = 0 then
    let sendbuff := store (fun _ => 0) 0 (le16 (u16 (4 + len)) ++ le16 100)
    if 0 ≤ len ∧ len ≤ 1024 ∧ 4 + len ≤ 1024 then
      let sendbuff := store sendbuff 4 (load buff 0 len.toNat)
      some (load sendbuff 0 (len + 4).toNat)
    else none
  else none

/-- The packet for `line`. -/
def request (line : List UInt8) : List UInt8 := le16 (line.length + 4) ++ le16 100 ++ line

@[simp] theorem length_request (line : List UInt8) : (request line).length = line.length + 4 := by
  simp [request]
  omega

/-- `read_terminal` sends the packet for what was read if `read` succeeds with at most 1020 bytes, and
otherwise leaves its buffers. -/
theorem readTerminal_eq_some {input : Option (List UInt8)} {out : List UInt8} :
    readTerminal input = some out ↔
      ∃ line, input = some line ∧ line.length ≤ 1020 ∧ out = request line := by
  cases input with
  | none => simp [readTerminal]
  | some line =>
    by_cases hlen : line.length ≤ 1020
    · have hzero : ∃ i < 1024, store (fun _ => 0) 0 line i = 0 :=
        ⟨line.length, by omega, store_above _ _ (by omega)⟩
      have hu : u16 (4 + (line.length : ℤ)) = line.length + 4 := by
        rw [show (4 : ℤ) + line.length = ((line.length + 4 : ℕ) : ℤ) by omega]
        exact u16_natCast (by omega)
      -- the line is copied behind the header
      have hsend : load (store (store (fun _ => 0) 0 (le16 (line.length + 4) ++ le16 100)) 4 line) 0
          (line.length + 4) = request line := by
        have happend := load_store_append
          (store (fun _ => (0 : UInt8)) 0 (le16 (line.length + 4) ++ le16 100)) 0 4 line
        rw [Nat.zero_add, Nat.add_comm 4] at happend
        have hhead : load (store (fun _ => (0 : UInt8)) 0 (le16 (line.length + 4) ++ le16 100)) 0 4 =
            le16 (line.length + 4) ++ le16 100 := load_store _ 0 _
        rw [happend, hhead]
        rfl
      have hline : load (store (fun _ => (0 : UInt8)) 0 line) 0 line.length = line :=
        load_store _ _ _
      have htoNat : ((line.length : ℤ) + 4).toNat = line.length + 4 := by omega
      simp only [readTerminal, Option.getD_some, if_pos hzero]
      rw [if_pos ⟨by omega, by omega, by omega⟩, hu, Int.toNat_natCast, hline, htoNat, hsend]
      constructor
      · intro hout
        exact ⟨line, rfl, hlen, (Option.some.inj hout).symm⟩
      · rintro ⟨line', hline', -, rfl⟩
        rw [Option.some.inj hline']
    · simp only [readTerminal]
      rw [if_neg (by omega : ¬ (0 ≤ (line.length : ℤ) ∧ (line.length : ℤ) ≤ 1024 ∧
        4 + (line.length : ℤ) ≤ 1024)), ite_self]
      constructor
      · nofun
      · rintro ⟨line', hline', hle, -⟩
        obtain rfl := Option.some.inj hline'
        exact absurd hle hlen

/-- A client, and the server's end of its connection. -/
structure Session where
  wire : List UInt8
  server : Link

/-- What happens in a session. -/
inductive Act
  /-- `read_terminal` reads `line` and sends it -/
  | input (line : List UInt8)
  /-- `bs` arrives, and the server's `readData` returns and does not fail -/
  | arrive (bs : List UInt8)

/-- One step: the network delivers what was sent in order, cut in any way. -/
inductive Session.Step (m : ℕ → UInt8) : Session → Act → Session → Prop
  | input {s : Session} {line out : List UInt8} (h : readTerminal (some line) = some out) :
      Step m s (.input line) { s with wire := s.wire ++ out }
  | arrive {s : Session} {bs wire : List UInt8} {server : Link} (hne : bs ≠ [])
      (hwire : s.wire = bs ++ wire) (h : (linkSys m).step s.server bs server) :
      Step m s (.arrive bs) ⟨wire, server⟩

/-- The sessions of a client with a server whose `malloc` gives a block that holds `m`. -/
def session (m : ℕ → UInt8) : LTS Session Act where
  init s := s = ⟨[], ⟨TcpStickyWrap.new (some 0) m, 0⟩⟩
  step := Session.Step m

/-- The lines read in a run. -/
def lines : List Act → List (List UInt8)
  | [] => []
  | .input line :: as => line :: lines as
  | .arrive _ :: as => lines as

end Terminal
end NetService
