import NetService.WsConnect.Receive
import NetService.Ws.Delivery

/-!
# What a `WsConnect` owes its peer

`Served` is what a call is to lead to, whatever the request and the frames behind it are cut into:
before the request is complete nothing is sent, afterwards the response to it has been sent once, and
all bytes behind the request have been given to `WsStickyWrap::readData`, unless it has failed.  A
connection whose handshake is done owes the second part only, and pays it (`Open.serves`).
-/

namespace NetService

open MemoryBuff (Client Progress Inv)

namespace Ws.WsStickyWrap

/-- What `readData` returns; `none` when it does not return. -/
noncomputable def returned (send : ℕ → ℤ) (s : WsStickyWrap) (chunk : List UInt8) :
    Option (ℤ × WsStickyWrap) :=
  open Classical in
  if h : ∃ x fuel, s.readData send fuel chunk = some (.ok x) then some h.choose else none

theorem returned_eq_some {send : ℕ → ℤ} {s : WsStickyWrap} {chunk : List UInt8}
    {x : ℤ × WsStickyWrap} :
    returned send s chunk = some x ↔ ∃ fuel, s.readData send fuel chunk = some (.ok x) := by
  unfold returned
  constructor
  · intro h
    split_ifs at h with hex
    rw [← Option.some.inj h]
    exact hex.choose_spec
  · rintro ⟨fuel, hx⟩
    have hex : ∃ x fuel, s.readData send fuel chunk = some (.ok x) := ⟨x, fuel, hx⟩
    obtain ⟨fuel', hx'⟩ := hex.choose_spec
    rw [dif_pos hex, Except.ok.inj (readData_unique hx' hx)]

theorem pass_result {send : ℕ → ℤ} {realLen : ℕ} {s s' : WsStickyWrap} {r : ℤ}
    (h : pass send realLen s = .done (r, s')) : r = realLen ∨ r = -1 := by
  have hcomes := pass_comes send realLen s
  rw [h] at hcomes
  cases hcomes with
  | failed => exact .inl rfl
  | refused => exact .inr rfl
  | last => exact .inl rfl

/-- A `readData` that does not fail returns the length it was given. -/
theorem returned_length {send : ℕ → ℤ} {s s' : WsStickyWrap} {chunk : List UInt8} {r : ℤ}
    (h : returned send s chunk = some (r, s')) (hr : r ≠ -1) : r = chunk.length := by
  obtain ⟨fuel, h⟩ := returned_eq_some.1 h
  unfold readData at h
  simp only at h
  split_ifs at h with hpos hroom
  · have hcases : r = chunk.length ∨ r = -1 := by
      refine Loop.Ends.of_invariant (fun _ => True)
        (fun out => ∀ (r : ℤ) (s' : WsStickyWrap), out = .ok (r, s') → r = chunk.length ∨ r = -1)
        (fun _ _ _ _ => trivial) ?_ (fun _ _ _ _ _ _ => nofun) trivial ⟨fuel, h⟩ r s' rfl
      rintro t x - hdone r s' hx
      cases hx
      exact pass_result hdone
    exact hcases.resolve_right hr
  · cases h
    exact absurd rfl hr
  · cases h
    omega

end Ws.WsStickyWrap

namespace WsConnect

/-- A valid upgrade request, with the response to it. -/
structure Request (getHandshakeResponse : List UInt8 → Option (List UInt8)) where
  text : List UInt8
  response : List UInt8
  noNul : 0 ∉ text
  ends : crlfcrlf <:+ text
  /-- nothing before the end is an empty line -/
  first : ∀ n < text.length, ¬ crlfcrlf <:+: text.take n
  valid : getHandshakeResponse text = some response

/-- The bytes given to `WsStickyWrap::readData`. -/
def given (w : WsConnect) : List UInt8 := (w.calls.map Prod.fst).flatten

/-- The object when a call of `WsStickyWrap::readData` has been logged. -/
def logged (w : WsConnect) (bytes : List UInt8) (r : Option ℤ) : WsConnect :=
  { w with calls := w.calls ++ [(bytes, r)] }

theorem given_logged (w : WsConnect) (bytes : List UInt8) (r : Option ℤ) :
    (w.logged bytes r).given = w.given ++ bytes := by
  unfold given logged
  rw [List.map_append, List.flatten_append, List.map_singleton, List.flatten_singleton]

/-- What a call is to lead to, `got` being all that has been received. -/
inductive Served (text response got : List UInt8) : Except Fault (ℤ × WsConnect) → Prop
  /-- the request is not complete -/
  | waits {r : ℤ} {w : WsConnect} (hr : 0 ≤ r) (hlt : got.length < text.length)
      (hsent : w.sent = []) (hcalls : w.calls = []) : Served text response got (.ok (r, w))
  /-- the response is sent, and what is behind the request handed on -/
  | serves {r : ℤ} {w : WsConnect} (hr : 0 ≤ r) (hle : text.length ≤ got.length)
      (hsent : w.sent = [response]) (hgiven : w.given = got.drop text.length) :
      Served text response got (.ok (r, w))
  /-- `WsStickyWrap::readData` has failed -/
  | refused {r : ℤ} {w : WsConnect} {bytes : List UInt8} (hr : r < 0)
      (hle : text.length ≤ got.length) (hsent : w.sent = [response])
      (hgiven : w.given <+: got.drop text.length) (hlast : w.calls.getLast? = some (bytes, some r)) :
      Served text response got (.ok (r, w))
  /-- `WsStickyWrap::readData` has not returned -/
  | lost {w : WsConnect} {bytes : List UInt8} (hle : text.length ≤ got.length)
      (hsent : w.sent = [response]) (hgiven : w.given <+: got.drop text.length)
      (hlast : w.calls.getLast? = some (bytes, none)) : Served text response got (.error (.lost w))

/-- The call with `chunk` after `got` leads to what it should. -/
def Serves (env : Env) (text response got : List UInt8) (w : WsConnect) (chunk : List UInt8) :
    Prop :=
  ∃ out, Leads env w chunk out ∧ Served text response (got ++ chunk) out

/-! ### The calls of `FdBridge::read` -/

section Leads

variable {env : Env} {w : WsConnect} {chunk : List UInt8} {out out' : Except Fault (ℤ × WsConnect)}

/-- A call that receives goes on with `readData`. -/
theorem Leads.of_received {b : MemoryBuff}
    (h : Loop.Ends FdBridge.pass (w.buff, chunk) (.ok (true, b)))
    (hout : Loop.Ends (pass env) ({ w with buff := b }, 0) out) : Leads env w chunk out := by
  obtain ⟨m, hm⟩ := h
  obtain ⟨n, hn⟩ := hout
  refine ⟨max m n, ?_⟩
  unfold read
  rw [Loop.iter_mono hm (le_max_left m n)]
  exact Loop.iter_mono hn (le_max_right m n)

theorem Leads.of_fault {e : MemoryBuff.Fault}
    (h : Loop.Ends FdBridge.pass (w.buff, chunk) (.error e)) :
    Leads env w chunk (.error (.buff e)) := by
  obtain ⟨m, hm⟩ := h
  refine ⟨m, ?_⟩
  unfold read
  rw [hm]

/-- A call has one result. -/
theorem Leads.unique (h : Leads env w chunk out) (h' : Leads env w chunk out') : out = out' := by
  obtain ⟨i, hi⟩ := h
  obtain ⟨j, hj⟩ := h'
  unfold read at hi hj
  cases hri : Loop.iter FdBridge.pass i (w.buff, chunk) with
  | none =>
    rw [hri] at hi
    cases hi
  | some received =>
    cases hrj : Loop.iter FdBridge.pass j (w.buff, chunk) with
    | none =>
      rw [hrj] at hj
      cases hj
    | some received' =>
      obtain rfl : received = received' := Loop.Ends.unique ⟨i, hri⟩ ⟨j, hrj⟩
      rw [hri] at hi
      rw [hrj] at hj
      rcases received with e | ⟨_ | _, b⟩
      · exact Option.some.inj (hi.symm.trans hj)
      · exact Option.some.inj (hi.symm.trans hj)
      · exact Loop.Ends.unique ⟨i, hi⟩ ⟨j, hj⟩

theorem Serves.served {text response got : List UInt8}
    (h : Serves env text response got w chunk) (hout : Leads env w chunk out) :
    Served text response (got ++ chunk) out := by
  obtain ⟨out', hout', hserved⟩ := h
  rwa [hout.unique hout']

end Leads

/-! ### Behind the handshake -/

/-- A connection whose handshake is done, with what has been stored in its buffer and consumed
from it. -/
structure Open (text response : List UInt8) (w : WsConnect) (c : Client) (p : Progress) :
    Prop where
  inv : Inv 2 c p
  buff : w.buff = c.buff
  handshark : w.isHandshark = true
  sent : w.sent = [response]
  consumed : c.consumed = text ++ w.given
  room : c.stored.length < 8192

/-- What is handed on next is what is behind the bytes handed on. -/
theorem Open.given_prefix {text response bytes : List UInt8} {w : WsConnect} {c : Client}
    {p : Progress} (h : Open text response w c p)
    (hbytes : bytes <+: c.stored.drop c.consumed.length) :
    w.given ++ bytes <+: c.stored.drop text.length := by
  have happend := Stream.append_prefix h.inv.fifo hbytes
  rw [h.consumed, List.append_assoc] at happend
  have hdrop := happend.drop text.length
  rwa [List.drop_left] at hdrop

/-- `WsStickyWrap::readData` takes a chunk whole or fails. -/
def Env.Takes (env : Env) : Prop :=
  ∀ s bytes r s', env.readData s bytes = some (r, s') → 0 ≤ r → r = bytes.length

section Open

variable {env : Env} {text response : List UInt8} {w : WsConnect} {c : Client} {p : Progress}

theorem Open.text_le (h : Open text response w c p) : text.length ≤ c.stored.length := by
  have hle := h.inv.fifo.length_le
  rw [h.consumed, List.length_append] at hle
  omega

/-- A round of `readData`: it leaves the loop with everything handed on, hands on what a node offers
and goes round again, or leaves because `WsStickyWrap::readData` has failed. -/
theorem Open.pass_spec (h : Open text response w c p) (htakes : env.Takes) (readlen : ℕ) :
    (c.consumed = c.stored ∧ pass env (w, readlen) = .done (readlen, w)) ∨
    (∃ w' c' p' readlen', pass env (w, readlen) = .next (w', readlen') ∧
      Open text response w' c' p' ∧ c'.stored = c.stored ∧
      c.consumed.length < c'.consumed.length) ∨
    ∃ out, Loop.Ends (pass env) (w, readlen) out ∧ Served text response c.stored out ∧
      ∀ r w', out = .ok (r, w') → r < 0 := by
  have htext := h.text_le
  have hlow : c.consumed.length < MemoryBuff.capacity 2 :=
    lt_of_le_of_lt h.inv.fifo.length_le h.room
  rcases h.inv.next hlow with ⟨hget, hall⟩ | ⟨q, n, hget, hn, hsize, hle, hload⟩
  · refine .inl ⟨hall, ?_⟩
    unfold pass
    simp only [h.buff, hget]
  · obtain ⟨b, p', hadjust, hinv'⟩ := h.inv.consume (by decide) (by decide) hlow hget
    have hlength : (c.buff.load q n).length = n := by
      rw [hload, List.length_take, List.length_drop]
      omega
    have hprefix : w.given ++ c.buff.load q n <+: c.stored.drop text.length :=
      h.given_prefix (hload ▸ List.take_prefix _ _)
    have hopen : ¬ w.isHandshark = false := by
      rw [h.handshark]
      decide
    rw [← h.buff] at hget hadjust hinv' hlength hprefix
    -- the three cases are what `WsStickyWrap::readData` makes of the bytes of the node
    obtain ⟨bytes, hbytes⟩ : ∃ bytes, bytes = w.buff.load q n := ⟨_, rfl⟩
    rw [← hbytes] at hinv' hlength hprefix
    refine .inr ?_
    cases hcall : env.readData w.wrap bytes with
    | none =>
      have hpass : pass env (w, readlen) = .fault (.lost (w.logged bytes none)) := by
        unfold pass
        simp only [hget, if_neg hopen, ← hbytes, hcall]
        rfl
      refine .inr ⟨_, .fault hpass, ?_, nofun⟩
      exact .lost htext h.sent (by rwa [given_logged]) List.getLast?_concat
    | some x =>
      obtain ⟨r, s⟩ := x
      by_cases hr : r < 0
      · have hpass : pass env (w, readlen) = .done (r, { w.logged bytes r with wrap := s }) := by
          unfold pass
          simp only [hget, if_neg hopen, ← hbytes, hcall]
          rw [if_pos hr]
          rfl
        refine .inr ⟨_, .done hpass, ?_, ?_⟩
        · refine .refused hr htext h.sent ?_ List.getLast?_concat
          exact (given_logged w bytes r).symm ▸ hprefix
        · rintro r' w' hok
          cases hok
          exact hr
      · have hrn : r = n := by rw [htakes _ _ _ _ hcall (not_lt.1 hr), hlength]
        -- `AdjustReadSize` is called with what was taken, which is all of the node
        have hu16 : u16 r = n := by
          rw [hrn]
          exact Word.wrap_natCast (by norm_num; omega)
        have hpass : pass env (w, readlen) =
            .next ({ w.logged bytes r with wrap := s, buff := b }, u16 (readlen + r)) := by
          unfold pass
          simp only [hget, if_neg hopen, ← hbytes, hcall]
          rw [if_neg hr, hu16]
          simp only [hadjust]
          rfl
        refine .inl ⟨_, _, p', _, hpass, ⟨hinv', rfl, h.handshark, h.sent, ?_, h.room⟩, rfl, ?_⟩
        · show c.consumed ++ bytes = text ++ (w.logged bytes r).given
          rw [given_logged, ← List.append_assoc, ← h.consumed]
        · show c.consumed.length < (c.consumed ++ bytes).length
          rw [List.length_append, hlength]
          omega

/-- All that is in the buffer is handed on, unless `WsStickyWrap::readData` fails. -/
theorem Open.drains (h : Open text response w c p) (htakes : env.Takes) (readlen : ℕ) :
    ∃ out, Loop.Ends (pass env) (w, readlen) out ∧ Served text response c.stored out ∧
      ∀ r w', out = .ok (r, w') → 0 ≤ r →
        ∃ c' p', Open text response w' c' p' ∧ c'.stored = c.stored ∧ c'.consumed = c.stored := by
  refine Loop.ends_of_measure (pass env)
    (fun x => ∃ c' p', Open text response x.1 c' p' ∧ c'.stored = c.stored)
    (fun x => c.stored.length - (text ++ x.1.given).length) _ ?_ ⟨c, p, h, rfl⟩
  rintro ⟨w, readlen⟩ ⟨c', p', h', hstored⟩
  have hle := h'.inv.fifo.length_le
  rcases h'.pass_spec htakes readlen with ⟨hall, hpass⟩ |
    ⟨w', c'', p'', readlen', hpass, h'', hstored', hlt⟩ | ⟨out, hout, hserved, hneg⟩
  · have hgiven : w.given = c.stored.drop text.length := by
      rw [← hstored, ← hall, h'.consumed, List.drop_left]
    have htext := h'.text_le
    rw [hstored] at htext
    refine .inr ⟨_, .done hpass, .serves (Int.natCast_nonneg _) htext h'.sent hgiven, ?_⟩
    rintro r w' hok -
    cases hok
    exact ⟨c', p', h', hstored, hall.trans hstored⟩
  · have hle' := h''.inv.fifo.length_le
    rw [hstored', hstored] at hle'
    rw [hstored] at hle
    refine .inl ⟨_, hpass, ⟨c'', p'', h'', hstored'.trans hstored⟩, ?_⟩
    simp only
    rw [← h'.consumed, ← h''.consumed]
    omega
  · rw [hstored] at hserved
    refine .inr ⟨out, hout, hserved, fun r w' hok hr => ?_⟩
    have hr' := hneg r w' hok
    omega

/-- A call behind the handshake. -/
theorem Open.serves (h : Open text response w c p) (htakes : env.Takes)
    {chunk : List UInt8} (hroom : c.stored.length + chunk.length < 8192) :
    ∃ out, Leads env w chunk out ∧ Served text response (c.stored ++ chunk) out ∧
      ∀ r w', out = .ok (r, w') → 0 ≤ r → ∃ c' p', Open text response w' c' p' ∧
        c'.stored = c.stored ++ chunk ∧ c'.consumed = c.stored ++ chunk := by
  obtain ⟨b, p', hends, hinv⟩ := FdBridge.receives h.inv (by decide) (by decide) hroom
  rw [← h.buff] at hends
  have hopen : Open text response { w with buff := b } ⟨b, c.stored ++ chunk, c.consumed⟩ p' :=
    ⟨hinv, rfl, h.handshark, h.sent, h.consumed, by
      rw [List.length_append]
      exact hroom⟩
  obtain ⟨out, hout, hserved⟩ := hopen.drains htakes 0
  exact ⟨out, .of_received hends hout, hserved⟩

/-- A call behind the handshake whose chunk fills the buffer. -/
theorem Open.overflows (h : Open text response w c p) {chunk : List UInt8}
    (hfull : 8192 ≤ c.stored.length + chunk.length) :
    Leads env w chunk (.error (.buff .nullDeref)) := by
  have hends := FdBridge.overflows h.inv (by decide) (by decide) h.room.le hfull
  rw [← h.buff] at hends
  exact .of_fault hends

end Open

end WsConnect
end NetService
