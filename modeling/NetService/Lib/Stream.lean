import Mathlib.Tactic

/-!
# Streams taken piece by piece

A stream is a list, and what has been taken of it is a prefix.  `append_prefix` takes the next
piece.  `forall_prefix_cons` and `forall_split_cons` turn statements about every prefix of a list,
or every element with what is before it, into inductions on the list.  `mem_before_of_prefix` is
the order of what has been taken: what stood before an element has been taken before it.

`accepted` is what a sink has of some writes each of which it may accept in part: as long as no write
behind one that was cut short is accepted, it is a prefix of what was written (`accepted_prefix`).
-/

namespace Stream

variable {α : Type*}

/-- A prefix continued by what follows it is a prefix. -/
theorem append_prefix {l taken piece : List α} (htaken : taken <+: l)
    (hpiece : piece <+: l.drop taken.length) : taken ++ piece <+: l := by
  obtain ⟨rest, rfl⟩ := htaken
  rw [List.drop_left] at hpiece
  exact (List.prefix_append_right_inj taken).2 hpiece

/-- Every prefix of `a :: l` is empty or starts with `a`. -/
theorem forall_prefix_cons {P : List α → Prop} {a : α} {l : List α} :
    (∀ pre post, a :: l = pre ++ post → P pre) ↔
      P [] ∧ ∀ pre post, l = pre ++ post → P (a :: pre) := by
  constructor
  · intro h
    exact ⟨h [] _ rfl, fun pre post heq => h (a :: pre) post (by rw [heq]; rfl)⟩
  · rintro ⟨hnil, hcons⟩ pre post heq
    cases pre with
    | nil => exact hnil
    | cons b pre =>
      obtain ⟨rfl, hl⟩ := List.cons.inj heq
      exact hcons pre post hl

/-- Every element of `a :: l`, with what is before it, is `a` or in `l`. -/
theorem forall_split_cons {P : List α → α → Prop} {a : α} {l : List α} :
    (∀ pre x post, a :: l = pre ++ x :: post → P pre x) ↔
      P [] a ∧ ∀ pre x post, l = pre ++ x :: post → P (a :: pre) x := by
  constructor
  · intro h
    exact ⟨h [] a l rfl, fun pre x post heq => h (a :: pre) x post (by rw [heq]; rfl)⟩
  · rintro ⟨hhead, htail⟩ pre x post heq
    cases pre with
    | nil =>
      obtain ⟨rfl, -⟩ := List.cons.inj heq
      exact hhead
    | cons b pre =>
      obtain ⟨rfl, hl⟩ := List.cons.inj heq
      exact htail pre x post hl

/-- A list, cut at one of its positions. -/
theorem eq_take_cons_drop {l : List α} {i : ℕ} {a : α} (h : l[i]? = some a) :
    l = l.take i ++ a :: l.drop (i + 1) := by
  obtain ⟨hlt, rfl⟩ := List.getElem?_eq_some_iff.1 h
  rw [List.getElem_cons_drop, List.take_append_drop]

/-- Where `y` has been taken, all that stood before it in the stream has been taken before. -/
theorem mem_before_of_prefix {l before after front back : List α} {x y : α} (hnodup : l.Nodup)
    (htaken : before ++ y :: after <+: l) (hl : l = front ++ y :: back) (hx : x ∈ front) :
    x ∈ before := by
  obtain ⟨rest, hrest⟩ := htaken
  have hsame : front ++ y :: back = before ++ y :: (after ++ rest) := by
    rw [← hl, ← hrest, List.append_assoc, List.cons_append]
  rw [hl, List.nodup_middle, List.nodup_cons, List.mem_append, not_or] at hnodup
  obtain ⟨⟨hfront, hback⟩, -⟩ := hnodup
  obtain ⟨rfl, -⟩ := (List.append_cons_inj_of_notMem hfront hback).1 hsame
  exact hx

/-! ### Writes that are accepted in part -/

/-- What a sink has of the writes `ws` when it accepts `counts i` elements of write `i`, none of them
if that is negative. -/
def accepted : (ℕ → ℤ) → List (List α) → List α
  | _, [] => []
  | counts, w :: ws => w.take (counts 0).toNat ++ accepted (fun i => counts (i + 1)) ws

/-- Behind a write of which only a part was accepted, nothing is. -/
def Unbroken (counts : ℕ → ℤ) (ws : List (List α)) : Prop :=
  ∀ i w, ws[i]? = some w → counts i < w.length → ∀ j < ws.length, i < j → counts j ≤ 0

theorem Unbroken.tail {counts : ℕ → ℤ} {w : List α} {ws : List (List α)}
    (h : Unbroken counts (w :: ws)) : Unbroken (fun i => counts (i + 1)) ws := by
  intro i w' hw hcut j hj hij
  exact h (i + 1) w' hw hcut (j + 1) (Nat.succ_lt_succ hj) (Nat.succ_lt_succ hij)

/-- Writes of which nothing is accepted. -/
theorem accepted_nothing {counts : ℕ → ℤ} {ws : List (List α)} (h : ∀ i < ws.length, counts i ≤ 0) :
    accepted counts ws = [] := by
  induction ws generalizing counts with
  | nil => rfl
  | cons w ws ih =>
    have hfirst : (counts 0).toNat = 0 := Int.toNat_eq_zero.2 (h 0 (Nat.succ_pos _))
    unfold accepted
    rw [hfirst, List.take_zero, ih fun i hi => h (i + 1) (Nat.succ_lt_succ hi)]
    rfl

theorem accepted_prefix {counts : ℕ → ℤ} {ws : List (List α)} (h : Unbroken counts ws) :
    accepted counts ws <+: ws.flatten := by
  induction ws generalizing counts with
  | nil => exact List.prefix_rfl
  | cons w ws ih =>
    unfold accepted
    rw [List.flatten_cons]
    by_cases hcut : counts 0 < w.length
    · have hrest : accepted (fun i => counts (i + 1)) ws = [] :=
        accepted_nothing fun i hi =>
          h 0 w rfl hcut (i + 1) (Nat.succ_lt_succ hi) (Nat.succ_pos i)
      rw [hrest, List.append_nil]
      exact (List.take_prefix _ _).trans (List.prefix_append _ _)
    · rw [List.take_of_length_le (by omega)]
      exact (List.prefix_append_right_inj w).2 (ih h.tail)

end Stream
