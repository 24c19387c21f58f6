import NetService.Base64.Decode
import NetService.Handshake.Model
import NetService.Sha1.Calls

/-!
# The response to an upgrade request

`keyOf` is the key that `get_handshake_response` takes from a request, and `response` the answer with
the hash of that key.  All strings fit into their blocks: the key is cut to 24 bytes, and the response
and its `'\0'` fill the block exactly.
-/

namespace NetService
namespace Handshake

open CString (tokens)

/-- The second token of the first line that has the name of the field in it. -/
def keyOf (request : List UInt8) : Option (List UInt8) :=
  ((tokens crlf request).find? fun line => wsHsReq <:+: line).bind fun line => (tokens space line)[1]?

/-- The 60 bytes that are hashed: the first 24 bytes of the key, the magic string, and zeros in place
of what the key is short of. -/
def hashed (key : List UInt8) : List UInt8 :=
  key.take wsKeyLen ++ magicString ++ List.replicate (wsKeyLen - key.length) 0

/-- The value of the field `Sec-WebSocket-Accept`. -/
def accept (key : List UInt8) : List UInt8 := Base64.chars (Sha1.sha1 (hashed key))

/-- The response. -/
def response (key : List UInt8) : List UInt8 := wsHsAccept ++ accept key ++ CString.ascii "\r\n\r\n"

/-! ### The key -/

theorem findLine_eq {fuel : ℕ} {s : List UInt8} (h : s.length < fuel) :
    findLine fuel s = (tokens crlf s).find? fun line => wsHsReq <:+: line := by
  induction fuel generalizing s with
  | zero => omega
  | succ fuel ih =>
    rw [findLine]
    cases hs : CString.strtok crlf s with
    | none => rw [CString.tokens_of_strtok_none hs, List.find?_nil]
    | some r =>
      obtain ⟨line, rest⟩ := r
      obtain ⟨htokens, hlt⟩ := CString.tokens_of_strtok_some hs
      rw [htokens]
      by_cases hline : wsHsReq <:+: line
      · rw [List.find?_cons_of_pos (by simpa using hline)]
        simp only [hline, if_true]
      · rw [List.find?_cons_of_neg (by simpa using hline), ← ih (by omega)]
        simp only [hline, if_false]

theorem secondToken_eq (s : List UInt8) : secondToken s = (tokens space s)[1]? := by
  rw [secondToken]
  cases hs : CString.strtok space s with
  | none => rw [CString.tokens_of_strtok_none hs, List.getElem?_nil]
  | some r =>
    obtain ⟨line, rest⟩ := r
    rw [(CString.tokens_of_strtok_some hs).1, List.getElem?_cons_succ]
    dsimp only
    cases hrest : CString.strtok space rest with
    | none => rw [CString.tokens_of_strtok_none hrest, List.getElem?_nil, Option.map_none]
    | some r' =>
      obtain ⟨token, rest'⟩ := r'
      rw [(CString.tokens_of_strtok_some hrest).1, List.getElem?_cons_zero, Option.map_some]

/-- The bytes of the key are bytes of the request. -/
theorem mem_of_mem_keyOf {request key : List UInt8} (h : keyOf request = some key) {c : UInt8}
    (hc : c ∈ key) : c ∈ request := by
  obtain ⟨line, hline, hkey⟩ := Option.bind_eq_some_iff.1 h
  have hmem := List.mem_of_find?_eq_some hline
  exact CString.mem_of_mem_tokens hmem (CString.mem_of_mem_tokens (List.mem_of_getElem? hkey) hc)

/-! ### The accept value -/

theorem length_magicString : magicString.length = 36 := rfl

theorem hashed_of_length {key : List UInt8} (h : key.length = 24) :
    hashed key = key ++ magicString := by
  rw [hashed, wsKeyLen, h, List.take_of_length_le h.le, Nat.sub_self, List.replicate_zero,
    List.append_nil]

theorem length_hashed (key : List UInt8) : (hashed key).length = 60 := by
  rw [hashed, List.length_append, List.length_append, List.length_take, List.length_replicate,
    length_magicString, wsKeyLen]
  omega

/-- `str` after `strncpy`. -/
theorem strncpy_key (key : List UInt8) :
    CString.strncpy (List.replicate (wsKeyLen + wsMsLen + 1) 0) key wsKeyLen =
      some (key.take wsKeyLen ++ 0 :: List.replicate (wsKeyLen - key.length + wsMsLen) 0) := by
  have hlen : (key.take wsKeyLen ++ List.replicate (wsKeyLen - key.length) (0 : UInt8)).length = 24 := by
    rw [List.length_append, List.length_take, List.length_replicate, wsKeyLen]
    omega
  have hzeros : List.replicate (wsKeyLen - key.length) (0 : UInt8) ++ List.replicate 37 0 =
      0 :: List.replicate (wsKeyLen - key.length + wsMsLen) 0 := by
    rw [List.replicate_append_replicate, ← List.replicate_succ]
    rfl
  rw [CString.strncpy, CString.overwrite, hlen, if_pos (by decide), List.take_zero, List.nil_append,
    List.drop_replicate, ← hzeros, ← List.append_assoc]
  rfl

/-- `str` after `strcat`: the bytes to be hashed and a `'\0'`. -/
theorem strcat_magic {key : List UInt8} (h : 0 ∉ key) :
    CString.strcat (key.take wsKeyLen ++ 0 :: List.replicate (wsKeyLen - key.length + wsMsLen) 0)
      magicString = some (hashed key ++ [0]) := by
  have hkey : 0 ∉ key.take wsKeyLen := fun hmem => h (List.mem_of_mem_take hmem)
  have hzeros : (0 : UInt8) :: List.replicate (wsKeyLen - key.length) 0 =
      List.replicate (wsKeyLen - key.length) 0 ++ [0] := by
    rw [← List.replicate_succ, ← List.replicate_succ']
  rw [CString.strcat_spec hkey, length_magicString, List.drop_replicate, wsMsLen,
    Nat.add_sub_cancel, hzeros, hashed, List.append_assoc _ (List.replicate _ _)]
  rw [length_magicString, List.length_replicate, wsMsLen]
  omega

/-- The digest of the 60 bytes. -/
theorem sha1_hashed (ctx : Sha1.SHA1Context) (key : List UInt8) :
    ∃ c c', Sha1.sha1Input (Sha1.sha1Reset ctx) (some (hashed key ++ [0])) (UInt32.ofNat wsKeymsLen) =
        some (Sha1.shaSuccess, c) ∧
      Sha1.sha1Result c = some (Sha1.shaSuccess, some (Sha1.sha1 (hashed key)), c') := by
  have hlen := length_hashed key
  have htake : (hashed key ++ [0]).take (UInt32.ofNat wsKeymsLen).toNat = hashed key :=
    List.take_left' hlen
  obtain ⟨c, hinput, hc⟩ := @Sha1.sha1Input_spec _ (.reading []) (Sha1.sha1Reset_spec ctx)
    (hashed key ++ [0]) (UInt32.ofNat wsKeymsLen) (by decide)
    (by rw [List.length_append, hlen]; decide)
  rw [htake, Sha1.Hasher.input, List.length_nil, hlen, if_pos (by decide), List.nil_append] at hinput hc
  obtain ⟨c', hresult, -⟩ := Sha1.sha1Result_spec hc
  exact ⟨c, c', hinput, hresult⟩

/-- A text of one line. -/
theorem wrap_short {text : List UInt8} (hne : text ≠ []) (hlt : text.length < 72) :
    Base64.wrap 72 0 text = text ++ [Base64.newline] := by
  have happ := @Base64.wrap_append 72 0 text [] hne (by omega)
  have hpos := List.length_pos_iff.2 hne
  rw [List.append_nil, if_neg (by omega), Base64.wrap, if_neg (by omega)] at happ
  exact happ

theorem length_accept (key : List UInt8) : (accept key).length = 28 := by
  rw [accept, Base64.length_chars, Sha1.length_sha1]

theorem zero_not_mem_chars (src : List UInt8) : 0 ∉ Base64.chars src := by
  intro hmem
  have hzero : (Base64.value 0).isSome = false := by decide
  rw [Base64.isSome_of_mem_chars hmem] at hzero
  cases hzero

theorem base64Encode_hashed (key : List UInt8) :
    Base64.base64Encode (Sha1.sha1 (hashed key)) = some (some (accept key ++ [Base64.newline])) := by
  have hlen := length_accept key
  have hne : accept key ≠ [] := by
    rw [← List.length_pos_iff]
    omega
  rw [Base64.base64Encode_spec (by rw [Sha1.length_sha1]; decide), Sha1.length_sha1, if_pos (by decide),
    ← accept, wrap_short hne (by omega)]

/-- The line break at the end is taken off. -/
theorem chop_spec {s : List UInt8} (h : 0 ∉ s) {b : UInt8} (hb : b ≠ 0) :
    ((chop (s ++ [b] ++ [0])).bind fun dest => CString.content dest) = some s := by
  have hmem : 0 ∉ s ++ [b] := by
    rw [List.mem_append, List.mem_singleton]
    rintro (hs | hzero)
    · exact h hs
    · exact hb hzero.symm
  have hlen : (s ++ [b]).length = s.length + 1 := by rw [List.length_append, List.length_singleton]
  have hover : CString.overwrite (s ++ [b] ++ [0]) s.length [0] = some (s ++ 0 :: [0]) := by
    rw [CString.overwrite, if_pos (by simp)]
    simp
  rw [chop, CString.strlen_string hmem, Option.bind_eq_bind, Option.bind_some, hlen,
    if_neg (Nat.succ_ne_zero _), Nat.add_sub_cancel, hover, Option.bind_some,
    CString.content_string h]

theorem getHandshakeAccept_spec (ctx : Sha1.SHA1Context) {key : List UInt8} (h : 0 ∉ key) :
    getHandshakeAccept ctx (some key) = some (some (accept key)) := by
  obtain ⟨c, c', hinput, hresult⟩ := sha1_hashed ctx key
  have hchop := chop_spec (zero_not_mem_chars (Sha1.sha1 (hashed key))) (b := Base64.newline) (by decide)
  rw [← accept] at hchop
  obtain ⟨dest, hdest, hcontent⟩ := Option.bind_eq_some_iff.1 hchop
  simp only [getHandshakeAccept, strncpy_key, strcat_magic h, hinput, hresult, base64Encode_hashed,
    hdest, hcontent, Option.bind_eq_bind, Option.bind_some]
  rfl

/-! ### The response -/

theorem length_response (key : List UInt8) : (response key).length = 129 := by
  rw [response, List.length_append, List.length_append, length_accept]
  rfl

/-- The three strings fill the block. -/
theorem response_block (block : Vector UInt8 wsHsAcclen) {key : List UInt8} :
    (((CString.strcpy block.toList wsHsAccept).bind fun m => CString.strcat m (accept key)).bind fun m =>
      CString.strcat m (CString.ascii "\r\n\r\n")) = some (response key ++ [0]) := by
  have hlen : block.toList.length = 130 := block.length_toList
  have haccept : 0 ∉ wsHsAccept := by decide
  have hboth : 0 ∉ wsHsAccept ++ accept key := by
    rw [List.mem_append, not_or]
    exact ⟨haccept, zero_not_mem_chars _⟩
  have hlen' : wsHsAccept.length = 97 := rfl
  rw [CString.strcpy_spec (by omega), Option.bind_some, CString.strcat_spec haccept, Option.bind_some,
    CString.strcat_spec hboth, response]
  · have hdrop : ((block.toList.drop (wsHsAccept.length + 1)).drop (accept key).length).drop
        (CString.ascii "\r\n\r\n").length = [] := by
      apply List.eq_nil_of_length_eq_zero
      rw [List.length_drop, List.length_drop, List.length_drop, hlen, hlen', length_accept]
      rfl
    rw [hdrop]
  · rw [List.length_drop, List.length_drop, hlen, hlen', length_accept]
    decide
  · rw [List.length_drop, hlen, hlen', length_accept]
    decide

theorem zero_not_mem_response (key : List UInt8) : 0 ∉ response key := by
  rw [response, List.mem_append, List.mem_append, not_or, not_or]
  exact ⟨⟨by decide, zero_not_mem_chars _⟩, by decide⟩

theorem getHandshakeResponse_spec (ctx : Sha1.SHA1Context) (block : Vector UInt8 wsHsAcclen)
    {request : List UInt8} (h : 0 ∉ request) :
    getHandshakeResponse ctx block request = some ((keyOf request).map response) := by
  rw [getHandshakeResponse, findLine_eq (Nat.lt_succ_self _), keyOf]
  cases hline : (tokens crlf request).find? fun line => wsHsReq <:+: line with
  | none => rfl
  | some line =>
    rw [Option.bind_some, ← secondToken_eq]
    cases htoken : secondToken line with
    | none =>
      simp only [htoken, getHandshakeAccept, Option.bind_eq_bind, Option.bind_some, Option.map_none]
    | some key =>
      have hkey : 0 ∉ key := by
        intro hmem
        refine h (@mem_of_mem_keyOf _ key ?_ _ hmem)
        rw [keyOf, hline, Option.bind_some, ← secondToken_eq, htoken]
      obtain ⟨m, hm, hcat⟩ := Option.bind_eq_some_iff.1 (@response_block block key)
      obtain ⟨m', hm', hcat'⟩ := Option.bind_eq_some_iff.1 hm
      have hcontent := CString.content_string (zero_not_mem_response key) []
      simp only [htoken, getHandshakeAccept_spec ctx hkey, hm', hcat', hcat, hcontent, Option.bind_eq_bind,
        Option.bind_some, Option.map_some]
      rfl

/-! ### What a client can rely on -/

/-- A line of a request. -/
def IsLine (line : List UInt8) : Prop := line ≠ [] ∧ ∀ c ∈ line, c ∉ crlf

theorem tokens_line {line : List UInt8} (h : IsLine line) (rest : List UInt8) :
    tokens crlf (line ++ crlf ++ rest) = line :: tokens crlf rest := by
  have hcons : line ++ crlf ++ rest = line ++ 13 :: (10 :: rest) := by
    rw [List.append_assoc]
    rfl
  rw [hcons, CString.tokens_append h.1 h.2 (by decide), CString.tokens_cons (by decide)]

/-- The field with the key. -/
def keyField (key : List UInt8) : List UInt8 := wsHsReq ++ CString.ascii ": " ++ key

theorem keyField_tokens {key : List UInt8} (hne : key ≠ []) (hkey : ∀ c ∈ key, c ∉ space) :
    (tokens space (keyField key))[1]? = some key := by
  have hcons : keyField key = (wsHsReq ++ CString.ascii ":") ++ 32 :: key := by
    rw [keyField, List.append_assoc, List.append_assoc]
    rfl
  rw [hcons, CString.tokens_append (by decide) (by decide +kernel) (by decide),
    CString.tokens_self hne hkey]
  rfl

/-- The key of a request that gives it in the ordinary form, behind lines that do not name it. -/
theorem keyOf_request {lines : List (List UInt8)} {key rest : List UInt8}
    (hlines : ∀ line ∈ lines, IsLine line ∧ ¬ wsHsReq <:+: line) (hne : key ≠ [])
    (hkey : ∀ c ∈ key, c ∉ crlf ∧ c ∉ space) :
    keyOf (lines.flatMap (· ++ crlf) ++ (keyField key ++ crlf ++ rest)) = some key := by
  have hfield : IsLine (keyField key) := by
    refine ⟨List.append_ne_nil_of_right_ne_nil _ hne, fun c hc => ?_⟩
    rw [keyField, List.mem_append] at hc
    rcases hc with hc | hc
    · exact (by decide +kernel : ∀ c ∈ wsHsReq ++ CString.ascii ": ", c ∉ crlf) c hc
    · exact (hkey c hc).1
  have hmatch : wsHsReq <:+: keyField key := by
    rw [keyField, List.append_assoc]
    exact (List.prefix_append _ _).isInfix
  induction lines with
  | nil =>
    rw [List.flatMap_nil, List.nil_append, keyOf, tokens_line hfield,
      List.find?_cons_of_pos (by simpa using hmatch), Option.bind_some]
    exact keyField_tokens hne fun c hc => (hkey c hc).2
  | cons line lines ih =>
    obtain ⟨hline, hnot⟩ := hlines line List.mem_cons_self
    have hrest := ih fun l hl => hlines l (List.mem_cons_of_mem _ hl)
    rw [keyOf] at hrest
    rw [List.flatMap_cons, List.append_assoc, keyOf, tokens_line hline,
      List.find?_cons_of_neg (by simpa using hnot), hrest]

/-- A request that gives its key in the ordinary form is answered with the hash of that key, whatever
stands in the lines before and behind. -/
theorem getHandshakeResponse_request (ctx : Sha1.SHA1Context) (block : Vector UInt8 wsHsAcclen)
    {lines : List (List UInt8)} {key rest : List UInt8}
    (hlines : ∀ line ∈ lines, IsLine line ∧ ¬ wsHsReq <:+: line)
    (hkey : ∀ c ∈ key, c ∉ crlf ∧ c ∉ space) (hlen : key.length = 24)
    (hnul : 0 ∉ lines.flatMap (· ++ crlf) ++ (keyField key ++ crlf ++ rest)) :
    getHandshakeResponse ctx block (lines.flatMap (· ++ crlf) ++ (keyField key ++ crlf ++ rest)) =
      some (some (wsHsAccept ++ Base64.chars (Sha1.sha1 (key ++ magicString)) ++
        CString.ascii "\r\n\r\n")) := by
  have hne : key ≠ [] := by
    rintro rfl
    cases hlen
  rw [getHandshakeResponse_spec ctx block hnul, keyOf_request hlines hne hkey, Option.map_some,
    response, accept, hashed_of_length hlen]

theorem getHandshakeResponse_request_sample :
    getHandshakeResponse Sha1.blank (Vector.replicate 130 0)
        ([CString.ascii "GET / HTTP/1.1"].flatMap (· ++ crlf) ++
          (keyField (CString.ascii "dGhlIHNhbXBsZSBub25jZQ==") ++ crlf ++ crlf)) =
      some (some (wsHsAccept ++
        Base64.chars (Sha1.sha1 (CString.ascii "dGhlIHNhbXBsZSBub25jZQ==" ++ magicString)) ++
        CString.ascii "\r\n\r\n")) := by
  apply getHandshakeResponse_request Sha1.blank (Vector.replicate 130 0)
  · rw [List.forall_mem_singleton]
    exact ⟨by unfold IsLine; decide +kernel, by decide +kernel⟩
  · decide +kernel
  · rfl
  · decide +kernel

/-- A request is answered exactly when there is a key in it, whatever memory the function finds, and no
string leaves its block.  The answer has 129 bytes, and its field decodes to the hash of the key with
the magic string behind it, for keys of 24 bytes. -/
theorem getHandshakeResponse_answers (ctx : Sha1.SHA1Context) (block : Vector UInt8 wsHsAcclen)
    {request : List UInt8} (h : 0 ∉ request) :
    (getHandshakeResponse ctx block request = some none ↔ keyOf request = none) ∧
      ∀ key, keyOf request = some key → ∃ field : List UInt8,
        getHandshakeResponse ctx block request =
          some (some (wsHsAccept ++ field ++ CString.ascii "\r\n\r\n")) ∧
        (wsHsAccept ++ field ++ CString.ascii "\r\n\r\n").length = 129 ∧
        Base64.base64Decode field = some (some (Sha1.sha1 (hashed key))) ∧
        (key.length = 24 → hashed key = key ++ magicString) := by
  rw [getHandshakeResponse_spec ctx block h]
  refine ⟨?_, fun key hkey => ⟨accept key, ?_, length_response key, ?_, fun hlen => ?_⟩⟩
  · rw [Option.some.injEq, Option.map_eq_none_iff]
  · rw [hkey]
    rfl
  · have hsig : Base64.significant (accept key) = accept key := by
      unfold Base64.significant
      rw [List.filter_eq_self]
      intro c hc
      exact Base64.isSome_of_mem_chars hc
    have hlen := length_accept key
    have hok : ¬ (accept key = [] ∨ (accept key).length % 4 ≠ 0) := by
      rw [← List.length_eq_zero_iff]
      omega
    have hgroups : Base64.groups (accept key) = some (Sha1.sha1 (hashed key)) := Base64.groups_chars _
    rw [Base64.base64Decode_eq, Base64.decodeText, hsig, if_neg hok, hgroups]
  · exact hashed_of_length hlen

/-- A key of 24 bytes. -/
theorem getHandshakeResponse_answers_sample :
    ∃ field : List UInt8,
      getHandshakeResponse Sha1.blank (Vector.replicate 130 0)
          (keyField (CString.ascii "dGhlIHNhbXBsZSBub25jZQ==")) =
        some (some (wsHsAccept ++ field ++ CString.ascii "\r\n\r\n")) ∧
      Base64.base64Decode field =
        some (some (Sha1.sha1 (CString.ascii "dGhlIHNhbXBsZSBub25jZQ==" ++ magicString))) := by
  obtain ⟨-, hanswers⟩ := @getHandshakeResponse_answers Sha1.blank (Vector.replicate 130 0)
    (keyField (CString.ascii "dGhlIHNhbXBsZSBub25jZQ==")) (by decide +kernel)
  obtain ⟨field, hresponse, -, hdecode, hlong⟩ :=
    hanswers (CString.ascii "dGhlIHNhbXBsZSBub25jZQ==") (by decide +kernel)
  rw [hlong (by decide +kernel)] at hdecode
  exact ⟨field, hresponse, hdecode⟩

example : getHandshakeAccept Sha1.blank (some (CString.ascii "dGhlIHNhbXBsZSBub25jZQ==")) =
    some (some (CString.ascii "s3pPLMBiTxaQ9kYGzzhZRbK+xOo=")) := by
  decide +kernel

end Handshake
end NetService
