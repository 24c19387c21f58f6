import NetService.Base64.Model
import NetService.Sha1.Model

/-!
# `handshake.c`

`get_handshake_accept` and `get_handshake_response`.  A result `none` means that a string function
reads or writes outside its block; the code -1 is `some none`.  `malloc` and `calloc` do not fail;
what local variables and the block of `malloc` hold at first are arguments.
-/

namespace NetService
namespace Handshake

open CString (ascii)

/-- `WS_KEY_LEN` -/
def wsKeyLen : ℕ := 24

/-- `WS_MS_LEN` -/
def wsMsLen : ℕ := 36

/-- `WS_KEYMS_LEN` -/
def wsKeymsLen : ℕ := wsKeyLen + wsMsLen

/-- `MAGIC_STRING` -/
def magicString : List UInt8 := ascii "258EAFA5-E914-47DA-95CA-C5AB0DC85B11"

/-- `WS_HS_REQ` -/
def wsHsReq : List UInt8 := ascii "Sec-WebSocket-Key"

/-- `WS_HS_ACCLEN` -/
def wsHsAcclen : ℕ := 130

/-- `WS_HS_ACCEPT` -/
def wsHsAccept : List UInt8 :=
  ascii ("HTTP/1.1 101 Switching Protocols\r\n" ++ "Upgrade: websocket\r\n" ++
    "Connection: Upgrade\r\n" ++ "Sec-WebSocket-Accept: ")

/-- `"\r\n"` -/
def crlf : List UInt8 := [13, 10]

/-- `" "` -/
def space : List UInt8 := [32]

/-- The last byte of the string in the block set to `'\0'`. -/
def chop (m : List UInt8) : Option (List UInt8) := do
  let n ← CString.strlen m
  if n = 0 then none else CString.overwrite m (n - 1) [0]

/-- `get_handshake_accept`: the string at `*dest`; the key is none for a null pointer. -/
def getHandshakeAccept (ctx : Sha1.SHA1Context) (wsKey : Option (List UInt8)) :
    Option (Option (List UInt8)) :=
  match wsKey with
  | none => some none
  | some wsKey => do
      let str ← CString.strncpy (List.replicate (wsKeyLen + wsMsLen + 1) 0) wsKey wsKeyLen
      let str ← CString.strcat str magicString
      let (_, ctx) ← Sha1.sha1Input (Sha1.sha1Reset ctx) (some str) (UInt32.ofNat wsKeymsLen)
      let (_, hash, _) ← Sha1.sha1Result ctx
      -- the array `hash` is not set if `SHA1Result` fails, and `*dest` is null if the encoding does
      let hash ← hash
      let text ← Base64.base64Encode hash
      let text ← text
      let dest ← chop (text ++ [0])
      let accept ← CString.content dest
      return some accept

/-- The loop over the lines of the request, with what `saveptr` points to: the line with the key. -/
def findLine : ℕ → List UInt8 → Option (List UInt8)
  | 0, _ => none
  | fuel + 1, saveptr =>
      match CString.strtok crlf saveptr with
      | none => none
      | some (s, saveptr) => if wsHsReq <:+: s then some s else findLine fuel saveptr

/-- The second token of a line; a null pointer is `none`. -/
def secondToken (s : List UInt8) : Option (List UInt8) :=
  match CString.strtok space s with
  | none => none
  | some (_, saveptr) => (CString.strtok space saveptr).map Prod.fst

/-- `get_handshake_response`: the string at `*hsresponse`.  No request has more tokens than bytes. -/
def getHandshakeResponse (ctx : Sha1.SHA1Context) (block : Vector UInt8 wsHsAcclen)
    (hsrequest : List UInt8) : Option (Option (List UInt8)) :=
  match findLine (hsrequest.length + 1) hsrequest with
  | none => some none
  | some s => do
      match ← getHandshakeAccept ctx (secondToken s) with
      | none => some none
      | some accept =>
          let hsresponse ← CString.strcpy block.toList wsHsAccept
          let hsresponse ← CString.strcat hsresponse accept
          let hsresponse ← CString.strcat hsresponse (ascii "\r\n\r\n")
          let response ← CString.content hsresponse
          return some response

end Handshake
end NetService
