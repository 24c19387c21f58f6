import Mathlib.Tactic

/-!
# Self-delimiting codes

A `Codec` writes a value as a non-empty list and reads it back in front of any other list, and what
it reads is what it writes.  `decodeAll` reads one value after the other, and `decodeAll_iff` says
that a list is read as the values whose codes it is put together from, and as nothing else.
-/

/-- A code whose words show where they end. -/
structure Codec (α β : Type*) where
  encode : α → List β
  decode : List β → Option (α × List β)
  encode_ne_nil (a : α) : encode a ≠ []
  decode_encode (a : α) (rest : List β) : decode (encode a ++ rest) = some (a, rest)
  eq_of_decode {l rest : List β} {a : α} : decode l = some (a, rest) → l = encode a ++ rest

namespace Codec

variable {α β : Type*} (c : Codec α β)

/-- At most `fuel` values read from `l`; `none` when what is left is not a code. -/
def decodeMany : ℕ → List β → Option (List α)
  | _, [] => some []
  | 0, _ :: _ => none
  | fuel + 1, l =>
      match c.decode l with
      | some (a, rest) => (decodeMany fuel rest).map (a :: ·)
      | none => none

/-- The values read from `l`, one after the other. -/
def decodeAll (l : List β) : Option (List α) := c.decodeMany l.length l

theorem length_encode_pos (a : α) : 0 < (c.encode a).length :=
  List.length_pos_iff.2 (c.encode_ne_nil a)

theorem decodeMany_succ {fuel : ℕ} {l : List β} (hne : l ≠ []) :
    c.decodeMany (fuel + 1) l =
      match c.decode l with
      | some (a, rest) => (c.decodeMany fuel rest).map (a :: ·)
      | none => none := by
  cases l with
  | nil => exact absurd rfl hne
  | cons b l => rfl

theorem decodeMany_flatMap {fuel : ℕ} {as : List α} (h : (as.flatMap c.encode).length ≤ fuel) :
    c.decodeMany fuel (as.flatMap c.encode) = some as := by
  induction as generalizing fuel with
  | nil => cases fuel <;> rfl
  | cons a as ih =>
    have hpos := c.length_encode_pos a
    rw [List.flatMap_cons] at h ⊢
    rw [List.length_append] at h
    obtain ⟨fuel, rfl⟩ : ∃ n, fuel = n + 1 := ⟨fuel - 1, by omega⟩
    rw [decodeMany_succ c (by simp [c.encode_ne_nil a]), c.decode_encode]
    simp only
    rw [ih (by omega), Option.map_some]

theorem eq_of_decodeMany {fuel : ℕ} {l : List β} {as : List α} (h : c.decodeMany fuel l = some as) :
    l = as.flatMap c.encode := by
  induction fuel generalizing l as with
  | zero =>
    cases l with
    | nil =>
      cases h
      rfl
    | cons b l => cases h
  | succ fuel ih =>
    by_cases hne : l = []
    · subst hne
      cases h
      rfl
    rw [decodeMany_succ c hne] at h
    cases hdecode : c.decode l with
    | none =>
      rw [hdecode] at h
      cases h
    | some p =>
      rw [hdecode] at h
      obtain ⟨bs, hbs, rfl⟩ := Option.map_eq_some_iff.1 h
      rw [c.eq_of_decode hdecode, ih hbs, List.flatMap_cons]

/-- A list is read as `as` exactly if it is their codes, one after the other. -/
theorem decodeAll_iff {l : List β} {as : List α} :
    c.decodeAll l = some as ↔ l = as.flatMap c.encode := by
  constructor
  · exact c.eq_of_decodeMany
  · rintro rfl
    exact c.decodeMany_flatMap le_rfl

end Codec
