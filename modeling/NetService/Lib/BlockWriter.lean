import Mathlib.Tactic

/-!
# Writing into an allocated block

A `BlockWriter` is a block of `cap` cells that is written from its beginning on.  `put` and `puts` fail
when the block has no room, so what has been written always fits.  `back` gives up the cells at the
end.
-/

/-- A block of `cap` cells and what has been written to it. -/
@[ext] structure BlockWriter (α : Type*) where
  cap : ℕ
  written : List α
  fits : written.length ≤ cap

namespace BlockWriter

variable {α : Type*}

/-- A new block. -/
def alloc (cap : ℕ) : BlockWriter α := ⟨cap, [], Nat.zero_le cap⟩

/-- Write one cell. -/
def put (w : BlockWriter α) (b : α) : Option (BlockWriter α) :=
  if h : w.written.length < w.cap then
    some ⟨w.cap, w.written ++ [b], by simpa using h⟩
  else none

/-- Write some cells, one after the other. -/
def puts (w : BlockWriter α) (bs : List α) : Option (BlockWriter α) := bs.foldlM put w

/-- Go back over the last `n` cells. -/
def back (w : BlockWriter α) (n : ℕ) : BlockWriter α :=
  ⟨w.cap, w.written.take (w.written.length - n), (List.length_take_le _ _).trans
    (Nat.le_trans (Nat.sub_le _ _) w.fits)⟩

@[simp] theorem cap_alloc (cap : ℕ) : (alloc cap : BlockWriter α).cap = cap := rfl

@[simp] theorem written_alloc (cap : ℕ) : (alloc cap : BlockWriter α).written = [] := rfl

theorem written_back (w : BlockWriter α) (n : ℕ) :
    (w.back n).written = w.written.take (w.written.length - n) := rfl

variable {w : BlockWriter α} {b : α} {bs cs : List α}

/-- One cell behind what has been written, where there is room. -/
theorem put_spec (h : w.written.length < w.cap) :
    ∃ w', w.put b = some w' ∧ w'.cap = w.cap ∧ w'.written = w.written ++ [b] :=
  ⟨_, dif_pos h, rfl, rfl⟩

theorem puts_spec (h : w.written.length + bs.length ≤ w.cap) :
    ∃ w', w.puts bs = some w' ∧ w'.cap = w.cap ∧ w'.written = w.written ++ bs := by
  induction bs generalizing w with
  | nil => exact ⟨w, rfl, rfl, (List.append_nil _).symm⟩
  | cons b bs ih =>
    rw [List.length_cons] at h
    obtain ⟨v, hput, hcap, hwritten⟩ := put_spec (w := w) (b := b) (by omega)
    have hroom : v.written.length + bs.length ≤ v.cap := by
      rw [hwritten, hcap, List.length_append, List.length_singleton]
      omega
    obtain ⟨u, hputs, hcap', hwritten'⟩ := ih hroom
    refine ⟨u, ?_, hcap'.trans hcap, ?_⟩
    · rw [puts, List.foldlM_cons, hput]
      exact hputs
    · rw [hwritten', hwritten, List.append_assoc, List.singleton_append]

end BlockWriter
