/-
The code of an object whose operations run under a lock.

An operation is a section: what it does to the data between taking the lock and giving it back,
access by access. `Implements` is a statement about the sections alone, each run by itself to
its end. That this is enough, whatever the lock and whoever else wants it, is what the modules
about the locks prove.

Nothing here is about this repository.
-/
import Mathlib.Logic.Basic

set_option autoImplicit false

namespace Exe

variable {δ ι κ ρ : Type*}

/-- What the operations `ι` do to the data `δ` under a lock. A section makes one
access after the other, and comes to its end with an answer. -/
structure Sections (δ ι κ ρ : Type*) where
  enter : ι → κ
  access : κ → δ → δ × (κ ⊕ ρ)

namespace Sections

/-- The section, alone from `k` on, ends with this data and this answer. -/
inductive Ends (c : Sections δ ι κ ρ) : κ → δ → δ × ρ → Prop
  | stop {k : κ} {d d' : δ} {r : ρ} (h : c.access k d = (d', .inr r)) : Ends c k d (d', r)
  | go {k k' : κ} {d d' : δ} {x : δ × ρ} (h : c.access k d = (d', .inl k')) (hx : Ends c k' d' x) :
      Ends c k d x

/-- Each section, run alone, does what its operation is to do. -/
def Implements (c : Sections δ ι κ ρ) (spec : ι → δ → δ × ρ) : Prop :=
  ∀ op d, c.Ends (c.enter op) d (spec op d)

variable {c : Sections δ ι κ ρ} {k k' : κ} {d d' : δ} {r : ρ} {x : δ × ρ}

theorem Ends.of_go (h : c.Ends k d x) (hstep : c.access k d = (d', .inl k')) :
    c.Ends k' d' x := by
  cases h with
  | stop h =>
    rw [h] at hstep
    cases hstep
  | go h hx =>
    rw [h] at hstep
    cases hstep
    exact hx

theorem Ends.of_stop (h : c.Ends k d x) (hstep : c.access k d = (d', .inr r)) : x = (d', r) := by
  cases h with
  | stop h =>
    rw [h] at hstep
    cases hstep
    rfl
  | go h hx =>
    rw [h] at hstep
    cases hstep

end Sections

end Exe
