/-
Parties at their places, when one of them moves.

A state that keeps a place for each party (a program counter, a flag) is updated at the party
that moves. What the invariants need of that is said here once: where a party comes from, that
nobody is left at a place only the mover was at, and that a list of those at certain places
keeps up with the move when the mover is added to it, taken out of it, or left where it is.

Nothing here is about this repository.
-/
import Mathlib.Data.List.Nodup
import Mathlib.Logic.Function.Basic

set_option autoImplicit false

namespace Exe.Places

open Function (update)

variable {φ κ : Type*} [DecidableEq φ] {place : φ → κ} {f g : φ} {a b : κ} {P : κ → Prop}

/-- A party that is at such a place has just moved there, or was at one before. -/
theorem of_update (h : P (update place f a g)) : g = f ∧ P a ∨ g ≠ f ∧ P (place g) := by
  by_cases hg : g = f
  · subst hg
    rw [Function.update_self] at h
    exact .inl ⟨rfl, h⟩
  · rw [Function.update_of_ne hg] at h
    exact .inr ⟨hg, h⟩

theorem eq_of_update (h : update place f a g = b) : g = f ∧ a = b ∨ g ≠ f ∧ place g = b :=
  of_update (P := fun c => c = b) h

/-- The only party there moves away. -/
theorem not_of_update (honly : ∀ g, P (place g) → g = f) (ha : ¬P a) (g : φ) :
    ¬P (update place f a g) := by
  intro h
  rcases of_update h with ⟨-, h⟩ | ⟨hg, h⟩
  · exact ha h
  · exact hg (honly g h)

/-- Nobody was there, and one moves. -/
theorem only_of_update (hnot : ∀ g, ¬P (place g)) (h : P (update place f a g)) : g = f := by
  rcases of_update h with ⟨hg, -⟩ | ⟨-, h⟩
  · exact hg
  · exact absurd h (hnot g)

/-! ## Lists of parties -/

section Listed

variable {l : List φ}

theorem mem_iff_stay (h : ∀ g, g ∈ l ↔ P (place g)) (hf : ¬P (place f)) (ha : ¬P a) (g : φ) :
    g ∈ l ↔ P (update place f a g) := by
  by_cases hg : g = f
  · subst hg
    rw [Function.update_self, h g]
    exact iff_of_false hf ha
  · rw [Function.update_of_ne hg]
    exact h g

theorem mem_iff_push (h : ∀ g, g ∈ l ↔ P (place g)) (ha : P a) (g : φ) :
    g ∈ l ++ [f] ↔ P (update place f a g) := by
  rw [List.mem_append, List.mem_singleton]
  by_cases hg : g = f
  · subst hg
    rw [Function.update_self]
    exact iff_of_true (.inr rfl) ha
  · rw [Function.update_of_ne hg, or_iff_left hg]
    exact h g

theorem mem_iff_pop (h : ∀ g, g ∈ f :: l ↔ P (place g)) (hf : f ∉ l) (ha : ¬P a) (g : φ) :
    g ∈ l ↔ P (update place f a g) := by
  by_cases hg : g = f
  · subst hg
    rw [Function.update_self]
    exact iff_of_false hf ha
  · rw [Function.update_of_ne hg, ← h g, List.mem_cons, or_iff_right hg]

end Listed

omit [DecidableEq φ] in
theorem nodup_push {l : List φ} (hl : l.Nodup) (hf : f ∉ l) : (l ++ [f]).Nodup := by
  rw [← List.concat_eq_append]
  exact List.Nodup.concat hf hl

end Exe.Places
