import NetService.Ws.Frame

/-!
# The stream of frames after a number of bytes

`cursor` is where the stream of the frames `fs` stands after a number of bytes: what `_pData` keeps
of earlier frames, the frames that are not complete, and how much of the first is there; `completed`
are the frames before that.  `Fine` says of the bytes that have arrived that the parser can wait
where they end and reads them as they are meant, and `Cursor.Takes` that the next chunk leaves it so.
-/

namespace NetService
namespace Ws

/-- What `_pData` keeps of complete frames, the frames to come, and the bytes received of the first
of them. -/
structure Cursor where
  kept : ℕ
  frames : List Frame
  got : ℕ

/-- The stream of the frames `fs` after `e` bytes; a frame that is not delivered stays in `_pData`. -/
def cursor : ℕ → List Frame → ℕ → Cursor
  | kept, [], e => ⟨kept, [], e⟩
  | kept, f :: fs, e =>
      if e < f.size then ⟨kept, f :: fs, e⟩
      else cursor (if f.Delivered then 0 else kept + f.size) fs (e - f.size)

/-- The frames that are complete after `e` bytes. -/
def completed : List Frame → ℕ → List Frame
  | [], _ => []
  | f :: fs, e => if e < f.size then [] else f :: completed fs (e - f.size)

/-- What `finishParse` should be called with for the frames `fs`. -/
def payloads (fs : List Frame) : List (List UInt8) :=
  (fs.filter fun f => f.Delivered).map Frame.payload

/-- The bytes that are there, `e` from the start of `fs` on and behind `kept` others, end where the
parser can wait, and it mistakes none of them; a frame that is delivered is alone. -/
def Fine : ℕ → List Frame → ℕ → Prop
  | _, [], _ => True
  | kept, f :: fs, e =>
      e = 0 ∨ f.Clean ∧
        if e < f.size then f.CutOk e
        else if f.Delivered then kept = 0 ∧ e = f.size
        else Fine (kept + f.size) fs (e - f.size)

instance decidableFine : ∀ kept fs e, Decidable (Fine kept fs e)
  | _, [], _ => .isTrue trivial
  | kept, f :: fs, e =>
      have := decidableFine (kept + f.size) fs (e - f.size)
      inferInstanceAs (Decidable (e = 0 ∨ f.Clean ∧
        if e < f.size then f.CutOk e
        else if f.Delivered then kept = 0 ∧ e = f.size
        else Fine (kept + f.size) fs (e - f.size)))

namespace Cursor

/-- The stream `e` bytes further on. -/
def advance (c : Cursor) (e : ℕ) : Cursor := cursor c.kept c.frames (c.got + e)

/-- A chunk of `r` bytes fits behind what `_pData` holds, and the bytes are fine. -/
def Takes (c : Cursor) (r : ℕ) : Prop :=
  c.kept + c.got + r < 8192 ∧ Fine c.kept c.frames (c.got + r)

instance (c : Cursor) (r : ℕ) : Decidable (c.Takes r) :=
  inferInstanceAs (Decidable (_ ∧ _))

end Cursor

theorem cursor_of_lt {k e : ℕ} {f : Frame} {fs : List Frame} (h : e < f.size) :
    cursor k (f :: fs) e = ⟨k, f :: fs, e⟩ := by
  rw [cursor, if_pos h]

theorem cursor_of_le {k e : ℕ} {f : Frame} {fs : List Frame} (h : f.size ≤ e) :
    cursor k (f :: fs) e = cursor (if f.Delivered then 0 else k + f.size) fs (e - f.size) := by
  rw [cursor, if_neg (by omega)]

theorem completed_of_lt {e : ℕ} {f : Frame} {fs : List Frame} (h : e < f.size) :
    completed (f :: fs) e = [] := by
  rw [completed, if_pos h]

theorem completed_of_le {e : ℕ} {f : Frame} {fs : List Frame} (h : f.size ≤ e) :
    completed (f :: fs) e = f :: completed fs (e - f.size) := by
  rw [completed, if_neg (by omega)]

/-- Going on from where the stream stands after `e` bytes. -/
theorem cursor_add (k : ℕ) (fs : List Frame) (e r : ℕ) :
    (cursor k fs e).advance r = cursor k fs (e + r) := by
  induction fs generalizing k e with
  | nil => rfl
  | cons f fs ih =>
    by_cases h : e < f.size
    · rw [cursor_of_lt h]
      rfl
    · have hsub : e + r - f.size = e - f.size + r := by omega
      rw [cursor_of_le (by omega), ih, cursor_of_le (by omega), hsub]

theorem Cursor.advance_advance (c : Cursor) (e r : ℕ) :
    (c.advance e).advance r = c.advance (e + r) := by
  unfold Cursor.advance
  rw [← Nat.add_assoc]
  exact cursor_add c.kept c.frames (c.got + e) r

theorem completed_add (k : ℕ) (fs : List Frame) (e r : ℕ) :
    completed fs (e + r) = completed fs e ++
      completed (cursor k fs e).frames ((cursor k fs e).got + r) := by
  induction fs generalizing k e with
  | nil => rfl
  | cons f fs ih =>
    by_cases h : e < f.size
    · rw [cursor_of_lt h, completed_of_lt h, List.nil_append]
    · have hsub : e + r - f.size = e - f.size + r := by omega
      rw [cursor_of_le (by omega), completed_of_le (by omega), completed_of_le (by omega), hsub,
        ih, List.cons_append]

/-- What is left of the stream. -/
theorem drop_cursor (k : ℕ) (fs : List Frame) (e : ℕ) :
    (wire (cursor k fs e).frames).drop (cursor k fs e).got = (wire fs).drop e := by
  induction fs generalizing k e with
  | nil => rfl
  | cons f fs ih =>
    by_cases h : e < f.size
    · rw [cursor_of_lt h]
    · rw [cursor_of_le (by omega), ih, ← drop_wire_size f fs, Nat.add_sub_cancel' (by omega)]

/-- What is behind `bytes` in the stream is ahead of the cursor that has taken them. -/
theorem Cursor.rest_ahead {c : Cursor} {bytes rest : List UInt8}
    (h : bytes ++ rest <+: (wire c.frames).drop c.got) :
    rest <+: (wire (c.advance bytes.length).frames).drop (c.advance bytes.length).got := by
  have hdrop := h.drop bytes.length
  rw [List.drop_left, List.drop_drop, ← drop_cursor c.kept] at hdrop
  exact hdrop

theorem payloads_append (fs gs : List Frame) : payloads (fs ++ gs) = payloads fs ++ payloads gs := by
  unfold payloads
  rw [List.filter_append, List.map_append]

theorem payloads_cons (f : Frame) (fs : List Frame) :
    payloads (f :: fs) = (if f.Delivered then [f.payload] else []) ++ payloads fs := by
  unfold payloads
  by_cases h : f.Delivered <;> simp [h]

/-- What the parser has to wait for and what may follow in the chunk. -/
theorem Fine.cons {k e : ℕ} {f : Frame} {fs : List Frame} (h : Fine k (f :: fs) e) (he : e ≠ 0) :
    f.Clean ∧ f.CutOk e ∧ (f.size ≤ e → f.Delivered → k = 0 ∧ e = f.size) ∧
      (f.size ≤ e → ¬ f.Delivered → Fine (k + f.size) fs (e - f.size)) := by
  unfold Fine at h
  obtain ⟨hclean, h⟩ := h.resolve_left he
  by_cases hlt : e < f.size
  · rw [if_pos hlt] at h
    exact ⟨hclean, h, fun hle => absurd hlt (by omega), fun hle => absurd hlt (by omega)⟩
  · rw [if_neg hlt] at h
    have hcut : f.CutOk e := by
      right; right
      have hsize : f.size = f.headSize + f.payload.length := rfl
      omega
    refine ⟨hclean, hcut, fun _ hd => ?_, fun _ hd => ?_⟩
    · rwa [if_pos hd] at h
    · rwa [if_neg hd] at h

end Ws
end NetService
