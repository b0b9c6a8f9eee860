/-
The step semantics every concurrent component of this development is given.

A component is a **machine**: a type of states, the states it may start in, and
a partial step function. The action handed to the step names who moves (a
worker, a thread, a fiber) and settles every choice the code leaves open, such
as a spurious failure of `compare_exchange_weak`. An atomic access, or a
critical section under a spin lock or a mutex, is one step, so "for every
interleaving" is "for every list of actions".

Three notions of "in every run" are used by the modules above this one:

* `Reachable`: the states some run leads to;
* `ReachableVia C`: the same over the runs whose steps all meet `C`, a condition
  on the action and on the state **before** the step;
* `Run`: a run with its transitions, newest first, for the statements that
  speak about a moment inside a call and not only about the state after it.

Nothing here is about this repository.
-/
import Mathlib.Data.List.Basic
import Mathlib.Data.Option.Basic
import Mathlib.Algebra.Order.Ring.Nat

set_option autoImplicit false

namespace Exe

/-! ## Index types

Parties are indexed by `Fin n`. These are named because their proofs occur inside the
numerals and the membership tests of definitions. -/

instance neZero_one : NeZero 1 := ⟨Nat.one_ne_zero⟩

instance neZero_two : NeZero 2 := ⟨by decide⟩

instance lawfulBEq_fin (n : ℕ) : LawfulBEq (Fin n) := inferInstance

/-- A machine with states `σ` and actions `α`. `step a s = none` says that `a`
is not enabled in `s`. -/
structure Machine (σ α : Type*) where
  init : σ → Prop
  step : α → σ → Option σ

/-- One step of a run, with the states around it. -/
structure Transition (σ α : Type*) where
  pre : σ
  act : α
  post : σ

namespace Machine

variable {σ α : Type*} (M : Machine σ α)

/-! ## Reachable states -/

/-- The states reached by the runs whose steps all meet `C`. -/
inductive ReachableVia (C : α → σ → Prop) : σ → Prop
  | init {s : σ} (h : M.init s) : ReachableVia C s
  | step {s s' : σ} (a : α) (hs : ReachableVia C s) (hc : C a s)
      (h : M.step a s = some s') : ReachableVia C s'

/-- The states reached by any run. -/
abbrev Reachable : σ → Prop := M.ReachableVia fun _ _ => True

variable {M}

/-- **The invariant rule.** What holds initially and is kept by every step that
meets `C` holds in every state such runs reach. -/
theorem ReachableVia.invariant {C : α → σ → Prop} {I : σ → Prop}
    (h0 : ∀ s, M.init s → I s)
    (hstep : ∀ a s s', I s → C a s → M.step a s = some s' → I s') {s : σ}
    (hs : M.ReachableVia C s) : I s := by
  induction hs with
  | init h => exact h0 _ h
  | step a _ hc h ih => exact hstep a _ _ ih hc h

/-- The invariant rule over a base invariant that is already known: the step
case may use it before the step and after it. -/
theorem ReachableVia.invariant_of {C : α → σ → Prop} {B I : σ → Prop}
    (hB : ∀ {s}, M.ReachableVia C s → B s) (h0 : ∀ s, M.init s → I s)
    (hstep : ∀ a s s', B s → B s' → I s → C a s → M.step a s = some s' → I s') {s : σ}
    (hs : M.ReachableVia C s) : I s := by
  induction hs with
  | init h => exact h0 _ h
  | step a hs hc h ih => exact hstep a _ _ (hB hs) (hB (.step a hs hc h)) ih hc h

/-- A condition that follows in every state reached reaches at least as many
states. -/
theorem ReachableVia.imp {C D : α → σ → Prop}
    (hCD : ∀ a s, M.ReachableVia C s → C a s → D a s) {s : σ}
    (hs : M.ReachableVia C s) : M.ReachableVia D s := by
  induction hs with
  | init h => exact .init h
  | step a hs hc h ih => exact .step a ih (hCD _ _ hs hc) h

/-- A weaker condition on the steps reaches more states. -/
theorem ReachableVia.mono {C D : α → σ → Prop} (hCD : ∀ a s, C a s → D a s) {s : σ}
    (hs : M.ReachableVia C s) : M.ReachableVia D s :=
  hs.imp fun a s _ => hCD a s

theorem ReachableVia.reachable {C : α → σ → Prop} {s : σ}
    (hs : M.ReachableVia C s) : M.Reachable s :=
  hs.mono fun _ _ _ => trivial

/-- One more step of a reachable state. -/
theorem Reachable.next {s s' : σ} (hs : M.Reachable s) (a : α)
    (h : M.step a s = some s') : M.Reachable s' :=
  .step a hs trivial h

/-! ## Fixed schedules -/

variable (M) in
/-- Run a fixed schedule. -/
def exec : List α → σ → Option σ
  | [], s => some s
  | a :: as, s => (M.step a s).bind (exec as)

@[simp] theorem exec_nil (s : σ) : M.exec [] s = some s := rfl

@[simp] theorem exec_cons (a : α) (as : List α) (s : σ) :
    M.exec (a :: as) s = (M.step a s).bind (M.exec as) := rfl

theorem exec_append (as bs : List α) (s : σ) :
    M.exec (as ++ bs) s = (M.exec as s).bind (M.exec bs) := by
  induction as generalizing s with
  | nil => rfl
  | cons a as ih =>
    rw [List.cons_append, exec_cons, exec_cons]
    cases M.step a s with
    | none => rfl
    | some s₁ => exact ih s₁

/-- A schedule that runs through from a reachable state ends in one. -/
theorem Reachable.exec {s s' : σ} (hs : M.Reachable s) (as : List α)
    (h : M.exec as s = some s') : M.Reachable s' := by
  induction as generalizing s with
  | nil => cases h; exact hs
  | cons a as ih =>
    rw [exec_cons, Option.bind_eq_some_iff] at h
    obtain ⟨s₁, h₁, h₂⟩ := h
    exact ih (hs.next a h₁) h₂

/-- The form a concrete schedule is evaluated in: the state it ends in need not
be written out, only tested. -/
theorem Reachable.exec_any {s : σ} (hs : M.Reachable s) (as : List α) (p : σ → Bool)
    (h : (M.exec as s).any p = true) : ∃ s', M.Reachable s' ∧ p s' = true := by
  obtain ⟨s', h', hp⟩ := (Option.any_eq_true _ _).mp h
  exact ⟨s', hs.exec as h', hp⟩

section Conditions

variable (C : α → σ → Prop) [∀ a s, Decidable (C a s)]

variable (M) in
/-- Run a fixed schedule, as far as its steps meet `C`. -/
def execVia : List α → σ → Option σ
  | [], s => some s
  | a :: as, s => if C a s then (M.step a s).bind (execVia as) else none

variable {C}

theorem ReachableVia.exec {s s' : σ} (hs : M.ReachableVia C s) (as : List α)
    (h : M.execVia C as s = some s') : M.ReachableVia C s' := by
  induction as generalizing s with
  | nil => cases h; exact hs
  | cons a as ih =>
    rw [execVia] at h
    split at h
    · rename_i hc
      obtain ⟨s₁, h₁, h₂⟩ := Option.bind_eq_some_iff.mp h
      exact ih (.step a hs hc h₁) h₂
    · cases h

theorem ReachableVia.exec_any {s : σ} (hs : M.ReachableVia C s) (as : List α) (p : σ → Bool)
    (h : (M.execVia C as s).any p = true) : ∃ s', M.ReachableVia C s' ∧ p s' = true := by
  obtain ⟨s', h', hp⟩ := (Option.any_eq_true _ _).mp h
  exact ⟨s', hs.exec as h', hp⟩

end Conditions

/-! ## Runs with their transitions -/

variable (M) in
/-- `M.Run h s`: a run that has made the transitions `h`, newest first, and is
now in `s`. -/
inductive Run : List (Transition σ α) → σ → Prop
  | init {s : σ} (h : M.init s) : Run [] s
  | step {h : List (Transition σ α)} {s s' : σ} (a : α) (hr : Run h s)
      (hs : M.step a s = some s') : Run (⟨s, a, s'⟩ :: h) s'

theorem Run.reachable {h : List (Transition σ α)} {s : σ} (hr : M.Run h s) :
    M.Reachable s := by
  induction hr with
  | init h => exact .init h
  | step a _ hs ih => exact ih.next a hs

/-- A run whose steps all met `C`. -/
theorem Run.reachableVia {C : α → σ → Prop} {h : List (Transition σ α)} {s : σ}
    (hr : M.Run h s) (hC : ∀ t ∈ h, C t.act t.pre) : M.ReachableVia C s := by
  induction hr with
  | init h => exact .init h
  | step a _ hs ih =>
    exact .step a (ih fun t ht => hC t (List.mem_cons_of_mem _ ht)) (hC _ List.mem_cons_self) hs

/-- Every state that is reached is reached by a run. -/
theorem ReachableVia.exists_run {C : α → σ → Prop} {s : σ} (hs : M.ReachableVia C s) :
    ∃ h, M.Run h s ∧ ∀ t ∈ h, C t.act t.pre := by
  induction hs with
  | init h => exact ⟨[], .init h, fun t ht => by cases ht⟩
  | step a _ hc hst ih =>
    obtain ⟨h, hr, hC⟩ := ih
    exact ⟨_, hr.step a hst, List.forall_mem_cons.mpr ⟨hc, hC⟩⟩

/-- The invariant rule for a property of the run so far. -/
theorem Run.invariant {I : List (Transition σ α) → σ → Prop}
    (h0 : ∀ s, M.init s → I [] s)
    (hstep : ∀ h a s s', M.Reachable s → I h s → M.step a s = some s' →
      I (⟨s, a, s'⟩ :: h) s') {h : List (Transition σ α)} {s : σ}
    (hr : M.Run h s) : I h s := by
  induction hr with
  | init h => exact h0 _ h
  | step a hr hs ih => exact hstep _ a _ _ hr.reachable ih hs

/-- So do its transitions lead to states such runs reach. -/
theorem Run.reachableVia_post {C : α → σ → Prop} {h : List (Transition σ α)} {s : σ}
    (hr : M.Run h s) (hC : ∀ t ∈ h, C t.act t.pre) {t : Transition σ α} (ht : t ∈ h) :
    M.ReachableVia C t.post := by
  induction hr with
  | init => cases ht
  | @step h s s' a hr hs ih =>
    have hCs : ∀ t ∈ h, C t.act t.pre := fun t ht => hC t (List.mem_cons_of_mem _ ht)
    obtain rfl | ht := List.mem_cons.mp ht
    · exact .step a (hr.reachableVia hCs) (hC _ List.mem_cons_self) hs
    · exact ih hCs ht

/-- What every step keeps, once it holds, holds until the end of the run. -/
theorem Run.stable {C : α → σ → Prop} {P : σ → Prop}
    (hP : ∀ a s s', M.ReachableVia C s → C a s → M.step a s = some s' → P s → P s')
    {h : List (Transition σ α)} {s : σ} (hr : M.Run h s) (hC : ∀ t ∈ h, C t.act t.pre)
    {t : Transition σ α} (ht : t ∈ h) (hp : P t.post) : P s := by
  induction hr with
  | init => cases ht
  | @step h s s' a hr hs ih =>
    have hCs : ∀ t ∈ h, C t.act t.pre := fun t ht => hC t (List.mem_cons_of_mem _ ht)
    obtain rfl | ht := List.mem_cons.mp ht
    · exact hp
    · exact hP a s s' (hr.reachableVia hCs) (hC _ List.mem_cons_self) hs (ih hCs ht)

/-- **Forward simulation.** When `N` can follow every step of `M` with the same action, and
related states stay related, then every run of `M` is followed by a run of `N`. -/
theorem Run.simulate {σ' : Type*} {N : Machine σ' α} {R : σ → σ' → Prop}
    (h0 : ∀ s, M.init s → ∃ q, N.init q ∧ R s q)
    (hstep : ∀ a s s' q, R s q → M.step a s = some s' → ∃ q', N.step a q = some q' ∧ R s' q')
    {h : List (Transition σ α)} {s : σ} (hr : M.Run h s) :
    ∃ h' q, N.Run h' q ∧ h'.map Transition.act = h.map Transition.act ∧ R s q := by
  induction hr with
  | init hinit =>
    obtain ⟨q, hq, hR⟩ := h0 _ hinit
    exact ⟨[], q, .init hq, rfl, hR⟩
  | step a _ hst ih =>
    obtain ⟨h', q, hr', hacts, hR⟩ := ih
    obtain ⟨q', hst', hR'⟩ := hstep a _ _ q hR hst
    refine ⟨_, q', hr'.step a hst', ?_, hR'⟩
    rw [List.map_cons, List.map_cons, hacts]

/-- A schedule that runs through from the end of a run, with the run it makes. -/
theorem Run.exec_any {h : List (Transition σ α)} {s : σ} (hr : M.Run h s) (as : List α)
    (p : σ → Bool) (hp : (M.exec as s).any p = true) :
    ∃ h' s', M.Run h' s' ∧ p s' = true := by
  induction as generalizing h s with
  | nil => exact ⟨h, s, hr, hp⟩
  | cons a as ih =>
    rw [exec_cons] at hp
    cases hs : M.step a s with
    | none =>
      rw [hs] at hp
      cases hp
    | some s₁ =>
      rw [hs] at hp
      exact ih (hr.step a hs) hp

/-- The same for a schedule whose steps all meet `C`. -/
theorem Run.execVia_any {C : α → σ → Prop} [∀ a s, Decidable (C a s)]
    {h : List (Transition σ α)} {s : σ} (hr : M.Run h s) (hC : ∀ t ∈ h, C t.act t.pre)
    (as : List α) (p : σ → Bool) (hp : (M.execVia C as s).any p = true) :
    ∃ h' s', M.Run h' s' ∧ (∀ t ∈ h', C t.act t.pre) ∧ p s' = true := by
  induction as generalizing h s with
  | nil => exact ⟨h, s, hr, hC, hp⟩
  | cons a as ih =>
    rw [execVia] at hp
    split at hp
    · rename_i hc
      cases hs : M.step a s with
      | none =>
        rw [hs] at hp
        cases hp
      | some s₁ =>
        rw [hs] at hp
        exact ih (hr.step a hs) (List.forall_mem_cons.mpr ⟨hc, hC⟩) hp
    · cases hp

/-- Run a fixed schedule, and record its transitions in front of `h`. -/
def record (M : Machine σ α) :
    List α → List (Transition σ α) → σ → Option (List (Transition σ α) × σ)
  | [], h, s => some (h, s)
  | a :: as, h, s => (M.step a s).bind fun s' => record M as (⟨s, a, s'⟩ :: h) s'

/-- A recorded schedule is a run, of which it may be tested what it has done. -/
theorem Run.record_any {h : List (Transition σ α)} {s : σ} (hr : M.Run h s) (as : List α)
    (p : List (Transition σ α) → σ → Bool)
    (hp : (M.record as h s).any (fun x => p x.1 x.2) = true) :
    ∃ h' s', M.Run h' s' ∧ p h' s' = true := by
  induction as generalizing h s with
  | nil => exact ⟨h, s, hr, hp⟩
  | cons a as ih =>
    rw [record] at hp
    cases hs : M.step a s with
    | none =>
      rw [hs] at hp
      cases hp
    | some s₁ =>
      rw [hs] at hp
      exact ih (hr.step a hs) hp

/-- The newest transitions of `h` that ended in a state with `P`: when `P` says
that a call is in progress, these are the steps of the run since the call
began, the one that began it included. -/
def since (P : σ → Bool) (h : List (Transition σ α)) : List (Transition σ α) :=
  h.takeWhile fun t => P t.post

theorem since_cons_of_pos {P : σ → Bool} {t : Transition σ α}
    (ht : P t.post = true) (h : List (Transition σ α)) :
    since P (t :: h) = t :: since P h := by
  simp [since, ht]

/-- Outside the call, no step is inside it. -/
theorem Run.since_eq_nil {P : σ → Bool} {h : List (Transition σ α)} {s : σ}
    (hr : M.Run h s) (hs : P s = false) : since P h = [] := by
  cases hr with
  | init _ => rfl
  | step a _ _ => simp [since, hs]

/-- A witness inside the call stays one as long as the call goes on. -/
theorem exists_since_cons {P : σ → Bool} {t : Transition σ α}
    {h : List (Transition σ α)} {Q : Transition σ α → Prop} (ht : P t.post = true)
    (hQ : ∃ u ∈ since P h, Q u) : ∃ u ∈ since P (t :: h), Q u := by
  obtain ⟨u, hu, hq⟩ := hQ
  exact ⟨u, by rw [since_cons_of_pos ht]; exact List.mem_cons_of_mem _ hu, hq⟩

/-- The newest step is a witness itself. -/
theorem exists_since_head {P : σ → Bool} {t : Transition σ α}
    {h : List (Transition σ α)} {Q : Transition σ α → Prop} (ht : P t.post = true)
    (hq : Q t) : ∃ u ∈ since P (t :: h), Q u :=
  ⟨t, by rw [since_cons_of_pos ht]; exact List.mem_cons_self, hq⟩

end Machine

end Exe
