import Mathlib.Logic.Function.Basic
import Mathlib.Tactic

/-!
# Handles with one owner

A table says what each handle refers to, and a relation which owner holds which object by which
handle.  `Exclusive` says that the open handles of the objects are exactly those held, and that no
object is held twice.  An object that is opened gets an owner, an owner may pass it on, and closing
its handle ends both; each of the three keeps `Exclusive`.
-/

/-- The objects `file k` in the table are held by one owner each. -/
structure Exclusive {φ κ ω α : Type*} (file : κ → α) (table : φ → Option α)
    (owns : ω → κ → φ → Prop) : Prop where
  open_iff : ∀ f k, table f = some (file k) ↔ ∃ o, owns o k f
  unique : ∀ {o o' k f f'}, owns o k f → owns o' k f' → o = o' ∧ f = f'

namespace Exclusive

variable {φ κ ω α : Type*} {file : κ → α} {table : φ → Option α} {owns owns' : ω → κ → φ → Prop}

/-- A handle has one owner, who holds one object by it. -/
theorem owner_unique (h : Exclusive file table owns) (hfile : Function.Injective file) {o o' : ω}
    {k k' : κ} {f : φ} (ho : owns o k f) (ho' : owns o' k' f) : k = k' ∧ o = o' := by
  have hk := (h.open_iff f k).2 ⟨o, ho⟩
  rw [(h.open_iff f k').2 ⟨o', ho'⟩] at hk
  obtain rfl := hfile (Option.some.inj hk)
  exact ⟨rfl, (h.unique ho ho').1⟩

theorem congr (h : Exclusive file table owns) (howns : ∀ o k f, owns' o k f ↔ owns o k f) :
    Exclusive file table owns' where
  open_iff f k := by
    rw [h.open_iff f k]
    exact exists_congr fun o => (howns o k f).symm
  unique ho ho' := h.unique ((howns _ _ _).1 ho) ((howns _ _ _).1 ho')

variable [DecidableEq φ]

/-- An object that nobody holds is opened at a handle that is not in use. -/
theorem add (h : Exclusive file table owns) (hfile : Function.Injective file) {o : ω} {k : κ} {f : φ}
    (hf : table f = none) (hk : ∀ o f, ¬ owns o k f)
    (howns : ∀ o' k' f', owns' o' k' f' ↔ owns o' k' f' ∨ o' = o ∧ k' = k ∧ f' = f) :
    Exclusive file (Function.update table f (some (file k))) owns' where
  open_iff f' k' := by
    simp only [howns, exists_or, ← h.open_iff]
    by_cases hff : f' = f
    · subst hff
      rw [Function.update_self, hf]
      constructor
      · intro heq
        obtain rfl := hfile (Option.some.inj heq)
        exact .inr ⟨o, rfl, rfl, rfl⟩
      · rintro (hno | ⟨o', -, rfl, -⟩)
        · cases hno
        · rfl
    · rw [Function.update_of_ne hff]
      exact ⟨.inl, fun hor => hor.resolve_right fun ⟨_, _, _, heq⟩ => hff heq⟩
  unique {o₁ o₂ k' f₁ f₂} h₁ h₂ := by
    rcases (howns _ _ _).1 h₁ with h₁ | ⟨rfl, rfl, rfl⟩
    · rcases (howns _ _ _).1 h₂ with h₂ | ⟨rfl, rfl, rfl⟩
      · exact h.unique h₁ h₂
      · exact absurd h₁ (hk _ _)
    · rcases (howns _ _ _).1 h₂ with h₂ | ⟨rfl, -, rfl⟩
      · exact absurd h₂ (hk _ _)
      · exact ⟨rfl, rfl⟩

omit [DecidableEq φ] in
/-- The owner of `k` passes it on to `o`. -/
theorem move (h : Exclusive file table owns) {o p : ω} {k : κ} {f : φ} (hp : owns p k f)
    (howns : ∀ o' k' f', owns' o' k' f' ↔ owns o' k' f' ∧ k' ≠ k ∨ o' = o ∧ k' = k ∧ f' = f) :
    Exclusive file table owns' where
  open_iff f' k' := by
    rw [h.open_iff]
    simp only [howns]
    constructor
    · rintro ⟨o', ho'⟩
      by_cases hk : k' = k
      · subst hk
        exact ⟨o, .inr ⟨rfl, rfl, (h.unique ho' hp).2⟩⟩
      · exact ⟨o', .inl ⟨ho', hk⟩⟩
    · rintro ⟨o', ⟨ho', -⟩ | ⟨-, rfl, rfl⟩⟩
      · exact ⟨o', ho'⟩
      · exact ⟨p, hp⟩
  unique {o₁ o₂ k' f₁ f₂} h₁ h₂ := by
    rcases (howns _ _ _).1 h₁ with ⟨h₁, hne⟩ | ⟨rfl, rfl, rfl⟩
    · rcases (howns _ _ _).1 h₂ with ⟨h₂, -⟩ | ⟨-, heq, -⟩
      · exact h.unique h₁ h₂
      · exact absurd heq hne
    · rcases (howns _ _ _).1 h₂ with ⟨-, hne⟩ | ⟨rfl, -, rfl⟩
      · exact absurd rfl hne
      · exact ⟨rfl, rfl⟩

/-- The handle of `k` is closed. -/
theorem drop (h : Exclusive file table owns) (hfile : Function.Injective file) {o : ω} {k : κ} {f : φ}
    (ho : owns o k f) (howns : ∀ o' k' f', owns' o' k' f' ↔ owns o' k' f' ∧ k' ≠ k) :
    Exclusive file (Function.update table f none) owns' where
  open_iff f' k' := by
    simp only [howns]
    by_cases hff : f' = f
    · subst hff
      rw [Function.update_self]
      refine ⟨nofun, fun ⟨o', ho', hne⟩ => ?_⟩
      exact absurd (h.owner_unique hfile ho' ho).1 hne
    · rw [Function.update_of_ne hff, h.open_iff]
      refine exists_congr fun o' => ⟨fun ho' => ⟨ho', ?_⟩, And.left⟩
      rintro rfl
      exact hff (h.unique ho' ho).2
  unique h₁ h₂ := h.unique ((howns _ _ _).1 h₁).1 ((howns _ _ _).1 h₂).1

end Exclusive
