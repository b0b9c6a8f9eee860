/-
Sums over a finite index type of which one entry changes.

The accounts of this development (the tasks every worker holds, the references
every thread holds) are sums of one entry per party, and a step changes the
entry of the party that moves. Nothing here is about this repository.
-/
import Mathlib.Algebra.BigOperators.Group.Finset.Basic
import Mathlib.Algebra.Order.BigOperators.Group.Finset
import Mathlib.Data.Fintype.BigOperators

set_option autoImplicit false

namespace Exe

variable {ι M : Type*} [Fintype ι] [DecidableEq ι] [AddCommMonoid M]

/-- Only entry `i` has changed: the two sums differ by the two entries. Written
without subtraction, so that it serves multisets too. -/
theorem sum_add_of_eq_off {f g : ι → M} (i : ι) (h : ∀ j, j ≠ i → g j = f j) :
    ∑ j, g j + f i = ∑ j, f j + g i := by
  rw [← Finset.add_sum_erase _ g (Finset.mem_univ i),
    ← Finset.add_sum_erase _ f (Finset.mem_univ i)]
  have hrest : ∑ j ∈ Finset.univ.erase i, g j = ∑ j ∈ Finset.univ.erase i, f j :=
    Finset.sum_congr rfl fun j hj => h j (Finset.ne_of_mem_erase hj)
  rw [hrest, add_comm (g i), add_assoc, add_comm (g i), ← add_assoc, add_comm (f i)]

/-! ## How many parties are in a certain place -/

section Counting

variable {β : Type*}

/-- The number of parties whose entry meets `p`. -/
def countWhere (p : β → Bool) (f : ι → β) : ℕ := ∑ j, (p (f j)).toNat

omit [DecidableEq ι] in
theorem countWhere_pos {p : β → Bool} {f : ι → β} : 0 < countWhere p f ↔ ∃ i, p (f i) = true := by
  rw [countWhere, Finset.sum_pos_iff]
  constructor
  · rintro ⟨i, -, hi⟩
    refine ⟨i, ?_⟩
    by_contra hp
    rw [Bool.eq_false_iff.mpr hp] at hi
    cases hi
  · rintro ⟨i, hi⟩
    exact ⟨i, Finset.mem_univ i, by rw [hi]; exact Nat.one_pos⟩

omit [DecidableEq ι] in
theorem countWhere_le (p : β → Bool) (f : ι → β) : countWhere p f ≤ Fintype.card ι := by
  rw [countWhere, ← Finset.card_univ, Finset.card_eq_sum_ones]
  exact Finset.sum_le_sum fun i _ => Bool.toNat_le _

omit [DecidableEq ι] in
/-- The count only depends on where `p` holds. -/
theorem countWhere_congr {p q : β → Bool} {f g : ι → β} (h : ∀ i, p (f i) = q (g i)) :
    countWhere p f = countWhere q g :=
  Finset.sum_congr rfl fun i _ => by rw [h i]

/-- The count after one party has moved. -/
theorem countWhere_update_add (p : β → Bool) (f : ι → β) (i : ι) (x : β) :
    countWhere p (Function.update f i x) + (p (f i)).toNat = countWhere p f + (p x).toNat := by
  have hoff : ∀ j, j ≠ i → (p (Function.update f i x j)).toNat = (p (f j)).toNat :=
    fun j hj => by rw [Function.update_of_ne hj]
  have h := sum_add_of_eq_off i hoff
  rw [Function.update_self] at h
  exact h

end Counting

end Exe
