/-
What is seen of a run, and the rule that carries it from one machine to another.

Where `vis` says which transitions are visible and as what, a run has a trace: its visible
events, newest first. `N` **covers** `M` along `R` if each step of `M` is followed by steps of
`N`, one or more or none, that look the same. Then every trace of `M` is one of `N`
(`Covers.trace`), and what holds of all traces of `N` holds of all traces of `M`.

Nothing here is about this repository.
-/
import Exe.Machine

set_option autoImplicit false

namespace Exe.Machine

variable {σ α σ' α' ε : Type*} {M : Machine σ α} {N : Machine σ' α'}
  {vis : Transition σ α → Option ε} {vis' : Transition σ' α' → Option ε} {R : σ → σ' → Prop}

/-! ## Traces -/

/-- The visible events of a run, newest first. -/
def trace (vis : Transition σ α → Option ε) (h : List (Transition σ α)) : List ε :=
  h.filterMap vis

theorem trace_cons (t : Transition σ α) (h : List (Transition σ α)) :
    trace vis (t :: h) = (vis t).toList ++ trace vis h := by
  rw [trace, List.filterMap_cons]
  cases vis t with
  | none => rfl
  | some e => rfl

theorem trace_append (h₁ h₂ : List (Transition σ α)) :
    trace vis (h₁ ++ h₂) = trace vis h₁ ++ trace vis h₂ :=
  List.filterMap_append

/-! ## Steps one after the other -/

variable (M) in
/-- From `s` the transitions `l`, newest first, lead to `s'`. -/
inductive Steps (s : σ) : List (Transition σ α) → σ → Prop
  | nil : Steps s [] s
  | cons {l : List (Transition σ α)} {u s' : σ} (a : α) (hl : Steps s l u)
      (hst : M.step a u = some s') : Steps s (⟨u, a, s'⟩ :: l) s'

theorem Steps.one {s s' : σ} {a : α} (hst : M.step a s = some s') :
    M.Steps s [⟨s, a, s'⟩] s' :=
  Steps.nil.cons a hst

theorem Steps.append {s u s' : σ} {l k : List (Transition σ α)} (hl : M.Steps s l u)
    (hk : M.Steps u k s') : M.Steps s (k ++ l) s' := by
  induction hk with
  | nil => exact hl
  | cons a _ hst ih => exact ih.cons a hst

/-- A run goes on. -/
theorem Run.steps {h l : List (Transition σ α)} {s s' : σ} (hr : M.Run h s)
    (hl : M.Steps s l s') : M.Run (l ++ h) s' := by
  induction hl with
  | nil => exact hr
  | cons a _ hst ih => exact ih.step a hst

/-- What came before a transition of a run, and the transition. -/
theorem Run.split {l k : List (Transition σ α)} {x : Transition σ α} {s : σ}
    (hr : M.Run (l ++ x :: k) s) : M.Run k x.pre ∧ M.step x.act x.pre = some x.post := by
  induction l generalizing s with
  | nil =>
    cases hr with
    | step a hk hst => exact ⟨hk, hst⟩
  | cons y l ih =>
    cases hr with
    | step a hl _ => exact ih hl

/-! ## Covering -/

/-- Each step of `M` that meets `C` is followed by steps of `N` that meet `D` and look the
same. -/
structure Covers (M : Machine σ α) (N : Machine σ' α') (C : α → σ → Prop) (D : α' → σ' → Prop)
    (vis : Transition σ α → Option ε) (vis' : Transition σ' α' → Option ε)
    (R : σ → σ' → Prop) : Prop where
  init : ∀ s, M.init s → ∃ q, N.init q ∧ R s q
  step : ∀ a s s' q, R s q → C a s → M.step a s = some s' →
    ∃ l q', N.Steps q l q' ∧ (∀ t ∈ l, D t.act t.pre) ∧
      Machine.trace vis' l = (vis ⟨s, a, s'⟩).toList ∧ R s' q'

/-- **Every trace of `M` is a trace of `N`**, and the states the two runs end in are related. -/
theorem Covers.trace {C : α → σ → Prop} {D : α' → σ' → Prop} (hc : Covers M N C D vis vis' R)
    {h : List (Transition σ α)} {s : σ} (hr : M.Run h s) (hC : ∀ t ∈ h, C t.act t.pre) :
    ∃ h' q, N.Run h' q ∧ (∀ t ∈ h', D t.act t.pre) ∧
      Machine.trace vis' h' = Machine.trace vis h ∧ R s q := by
  induction hr with
  | init hinit =>
    obtain ⟨q, hq, hR⟩ := hc.init _ hinit
    exact ⟨[], q, .init hq, fun t ht => absurd ht List.not_mem_nil, rfl, hR⟩
  | @step h s s' a _ hst ih =>
    obtain ⟨h', q, hr', hD, htrace, hR⟩ := ih fun t ht => hC t (List.mem_cons_of_mem _ ht)
    obtain ⟨l, q', hl, hDl, hvis, hR'⟩ := hc.step a s s' q hR (hC _ List.mem_cons_self) hst
    refine ⟨l ++ h', q', hr'.steps hl, fun t ht => ?_, ?_, hR'⟩
    · exact (List.mem_append.mp ht).elim (hDl t) (hD t)
    · rw [trace_append, trace_cons, hvis, htrace]

/-- The related states are reached. -/
theorem Covers.reachable {C : α → σ → Prop} {D : α' → σ' → Prop}
    (hc : Covers M N C D vis vis' R) {s : σ} (hs : M.ReachableVia C s) :
    ∃ q, N.ReachableVia D q ∧ R s q := by
  obtain ⟨h, hr, hC⟩ := hs.exists_run
  obtain ⟨h', q, hr', hD, -, hR⟩ := hc.trace hr hC
  exact ⟨q, hr'.reachableVia hD, hR⟩

end Exe.Machine
