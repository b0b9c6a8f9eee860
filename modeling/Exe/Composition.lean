/-
A machine that is put together from two others.

A step of the whole is, for each of the two parts, a step of that part or nothing. What one
part assumes about its steps (`C`, `D`) is discharged where the whole is put together, and
there the invariants of both parts may be used: they hold of the states reached so far. So
two parts that each rest on a promise of the other close the circle by one induction over
the runs of the whole (`ReachableVia.components`).

Nothing here is about this repository.
-/
import Exe.Machine

set_option autoImplicit false

namespace Exe.Machine

variable {σ α σ' α' ρ β : Type*} {M : Machine σ α} {N : Machine σ' α'} {P : Machine ρ β}

/-- A step of `M` that meets `C`, or nothing. -/
def Follows (M : Machine σ α) (C : α → σ → Prop) (s s' : σ) : Prop :=
  s' = s ∨ ∃ a, C a s ∧ M.step a s = some s'

theorem Follows.rfl {C : α → σ → Prop} {s : σ} : M.Follows C s s := .inl (Eq.refl s)

theorem Follows.mono {C D : α → σ → Prop} {s s' : σ} (h : M.Follows C s s')
    (hCD : ∀ a, C a s → D a s) : M.Follows D s s' :=
  h.imp_right fun ⟨a, hc, hst⟩ => ⟨a, hCD a hc, hst⟩

theorem Follows.reachableVia {C : α → σ → Prop} {s s' : σ} (h : M.Follows C s s')
    (hs : M.ReachableVia C s) : M.ReachableVia C s' := by
  obtain rfl | ⟨a, hc, hst⟩ := h
  · exact hs
  · exact .step a hs hc hst

/-- **The rule of two components.** `f` and `g` are the two parts of a state of the whole, and
`J` is what ties them together. -/
theorem ReachableVia.components {C : α → σ → Prop} {D : α' → σ' → Prop} {E : β → ρ → Prop}
    {f : ρ → σ} {g : ρ → σ'} {J : ρ → Prop}
    (h0 : ∀ s, P.init s → M.init (f s) ∧ N.init (g s) ∧ J s)
    (hstep : ∀ b s s', M.ReachableVia C (f s) → N.ReachableVia D (g s) → J s → E b s →
      P.step b s = some s' → M.Follows C (f s) (f s') ∧ N.Follows D (g s) (g s') ∧ J s')
    {s : ρ} (hs : P.ReachableVia E s) :
    M.ReachableVia C (f s) ∧ N.ReachableVia D (g s) ∧ J s := by
  induction hs with
  | init h =>
    obtain ⟨hM, hN, hJ⟩ := h0 _ h
    exact ⟨.init hM, .init hN, hJ⟩
  | step b _ hE hst ih =>
    obtain ⟨hM, hN, hJ⟩ := ih
    obtain ⟨hf, hg, hJ'⟩ := hstep b _ _ hM hN hJ hE hst
    exact ⟨hf.reachableVia hM, hg.reachableVia hN, hJ'⟩

end Exe.Machine
